/-
  Andri.Payload

  The payload generator `fill_random` of `src/meter.rs`.  The code runs one
  generator through the full chunks of the buffer and once more for what is
  left behind them; `splitmix64` is the stream it is meant to write, a bit mix
  over a Weyl sequence.  The fill is the beginning of that stream at every
  length, and no two full words of it are equal.
-/
import Andri.Lib.Chunks
import Andri.Lib.Endian
import Andri.Lib.Mixing

namespace Andri

open Lib

/-! ## The generator -/

/-- The increment of the generator's state. -/
def GAMMA : U64 := 0x9E3779B97F4A7C15

/-- The closure `next` of `fill_random`: the state it leaves behind, and the word it
    returns. -/
def next (s : U64) : U64 × U64 :=
  let s := s + 0x9E3779B97F4A7C15
  let z := s
  let z := (z ^^^ (z >>> 30)) * 0xBF58476D1CE4E5B9
  let z := (z ^^^ (z >>> 27)) * 0x94D049BB133111EB
  (s, z ^^^ (z >>> 31))

/-- `copy_from_slice`, which panics unless the lengths agree. -/
def copyFromSlice (dst src : List Byte) : Option (List Byte) :=
  if dst.length = src.length then some src else none

/-- The loop over the full chunks: what it writes, and the state after it. -/
def fillChunks : List (List Byte) → U64 → Option (List Byte × U64)
  | [], s => some ([], s)
  | c :: chunks, s => do
      let written ← copyFromSlice c (leBytes 8 (next s).2.toNat)
      let (rest, s') ← fillChunks chunks (next s).1
      some (written ++ rest, s')

/-- `fill_random`: the buffer after it, `none` if it panics. -/
def fillRandom (buf : List Byte) (seed : U64) : Option (List Byte) := do
  let (chunks, rem) := chunksExact 8 buf
  let (filled, s) ← fillChunks chunks seed
  if rem.isEmpty then
    some filled
  else
    let bytes := leBytes 8 (next s).2.toNat
    let tail ← copyFromSlice rem (bytes.take rem.length)
    some (filled ++ tail)

/-! ## The stream -/

/-- The finalizer of splitmix64. -/
def mix64 (z : U64) : U64 :=
  xorShift 31 (xorShift 27 (xorShift 30 z * 0xBF58476D1CE4E5B9) * 0x94D049BB133111EB)

/-- The `k`-th output of splitmix64 from `seed`, from 0. -/
def splitmix64 (seed : U64) (k : ℕ) : U64 := mix64 (weyl GAMMA seed (k + 1))

example : splitmix64 0 0 = 0xE220A8397B1DCDAF := by decide

/-- Byte `i` of the stream: byte `i % 8` of output `i / 8`. -/
def streamByte (seed : U64) (i : ℕ) : Byte :=
  BitVec.ofNat 8 ((splitmix64 seed (i / 8)).toNat / 256 ^ (i % 8))

/-- The first `n` bytes of the stream. -/
def payload (seed : U64) (n : ℕ) : List Byte := (List.range n).map (streamByte seed)

@[simp] theorem payload_length (seed : U64) (n : ℕ) : (payload seed n).length = n := by
  rw [payload, List.length_map, List.length_range]

/-- A shorter payload is the beginning of a longer one. -/
theorem take_payload (seed : U64) {n m : ℕ} (h : n ≤ m) :
    (payload seed m).take n = payload seed n := by
  rw [payload, payload, ← List.map_take, List.take_range, Nat.min_eq_left h]

theorem getElem?_payload (seed : U64) {n i : ℕ} (h : i < n) :
    (payload seed n)[i]? = (leBytes 8 (splitmix64 seed (i / 8)).toNat)[i % 8]? := by
  have hbyte : i % 8 < 8 := Nat.mod_lt i (by decide)
  rw [getElem?_leBytes _ hbyte, payload, List.getElem?_map, List.getElem?_range h]
  rfl

/-- Word `k` of the stream, cut off after `r` bytes. -/
theorem take_leBytes_splitmix64 (seed : U64) (k : ℕ) {r : ℕ} (h : r ≤ 8) :
    (leBytes 8 (splitmix64 seed k).toNat).take r =
      (List.range r).map fun i => streamByte seed (8 * k + i) := by
  apply List.ext_getElem?
  intro i
  by_cases hi : i < r
  · have hword : (8 * k + i) / 8 = k := by omega
    have hbyte : (8 * k + i) % 8 = i := by omega
    rw [List.getElem?_take_of_lt hi, getElem?_leBytes _ (hi.trans_le h), List.getElem?_map,
      List.getElem?_range hi, Option.map_some, streamByte, hword, hbyte]
  · have hleft : ((leBytes 8 (splitmix64 seed k).toNat).take r).length ≤ i := by
      rw [List.length_take]
      omega
    have hright : ((List.range r).map fun i => streamByte seed (8 * k + i)).length ≤ i := by
      rw [List.length_map, List.length_range]
      omega
    rw [List.getElem?_eq_none hleft, List.getElem?_eq_none hright]

/-- A payload of `8 * k` bytes goes on with word `k`. -/
theorem payload_append (seed : U64) (k : ℕ) {r : ℕ} (h : r ≤ 8) :
    payload seed (8 * k) ++ (leBytes 8 (splitmix64 seed k).toNat).take r =
      payload seed (8 * k + r) := by
  rw [take_leBytes_splitmix64 seed k h, payload, payload, List.range_add, List.map_append,
    List.map_map]
  rfl

/-! ## The code writes the stream -/

/-- From the state after `k` words, the generator returns word `k` and moves on. -/
theorem next_weyl (seed : U64) (k : ℕ) :
    next (weyl GAMMA seed k) = (weyl GAMMA seed (k + 1), splitmix64 seed k) := by
  rw [splitmix64, weyl_succ]
  rfl

theorem copyFromSlice_of_length {dst src : List Byte} (h : dst.length = src.length) :
    copyFromSlice dst src = some src := if_pos h

/-- The chunk loop, started after `k` words. -/
theorem fillChunks_weyl (seed : U64) (chunks : List (List Byte)) (k : ℕ)
    (h : ∀ c ∈ chunks, c.length = 8) :
    ∃ out, fillChunks chunks (weyl GAMMA seed k) =
        some (out, weyl GAMMA seed (k + chunks.length)) ∧
      payload seed (8 * k) ++ out = payload seed (8 * (k + chunks.length)) := by
  induction chunks generalizing k with
  | nil => exact ⟨[], rfl, List.append_nil _⟩
  | cons c chunks ih =>
      have hc : c.length = (leBytes 8 (splitmix64 seed k).toNat).length := by
        rw [leBytes_length]
        exact h c (List.mem_cons_self ..)
      obtain ⟨out, hrun, hout⟩ := ih (k + 1) fun d hd => h d (List.mem_cons_of_mem c hd)
      have hlen : k + (c :: chunks).length = k + 1 + chunks.length := by
        rw [List.length_cons]
        omega
      have hword : payload seed (8 * k) ++ leBytes 8 (splitmix64 seed k).toNat =
          payload seed (8 * (k + 1)) := by
        have happend := payload_append seed k le_rfl
        rwa [List.take_of_length_le (leBytes_length 8 _).le] at happend
      refine ⟨leBytes 8 (splitmix64 seed k).toNat ++ out, ?_, ?_⟩
      · rw [fillChunks, next_weyl, copyFromSlice_of_length hc, hlen]
        simp only [Option.bind_eq_bind, Option.bind_some, hrun]
      · rw [hlen, ← hout, ← hword, List.append_assoc]

/-- `fill_random` never panics, and writes the beginning of the stream over the whole
    buffer. -/
theorem fillRandom_eq (buf : List Byte) (seed : U64) :
    fillRandom buf seed = some (payload seed buf.length) := by
  obtain ⟨out, hrun, hout⟩ := fillChunks_weyl seed (chunksExact 8 buf).1 0
    fun c hc => length_of_mem_chunksExact hc
  have hempty : payload seed (8 * 0) = [] := rfl
  rw [Nat.zero_add, length_chunksExact, hempty, List.nil_append] at hout
  rw [weyl_zero, Nat.zero_add, length_chunksExact] at hrun
  have hsplit := Nat.div_add_mod buf.length 8
  have hrem := length_remainder 8 buf
  have hmod : buf.length % 8 ≤ 8 := (Nat.mod_lt _ (by decide)).le
  simp only [fillRandom, hrun, Option.bind_eq_bind, Option.bind_some]
  split
  · next hnone =>
      rw [isEmpty_remainder] at hnone
      rw [hout, ← hsplit, hnone, Nat.add_zero, Nat.mul_div_cancel_left _ (by decide)]
  · have htail : (chunksExact 8 buf).2.length =
        ((leBytes 8 (splitmix64 seed (buf.length / 8)).toNat).take
          (chunksExact 8 buf).2.length).length := by
      rw [List.length_take, leBytes_length, hrem, Nat.min_eq_left hmod]
    rw [next_weyl, copyFromSlice_of_length htail, Option.bind_some, hout, hrem,
      payload_append seed _ hmod, hsplit]

/-- `fill_random` writes the splitmix64 byte stream: every byte of the buffer is the
    byte of the stream at its place, whatever the length and the old content, so
    a buffer of the same length is filled alike and a longer one begins with the
    same bytes. -/
theorem fillRandom_stream (buf : List Byte) (seed : U64) :
    ∃ out, fillRandom buf seed = some out ∧ out.length = buf.length ∧
      (∀ i < buf.length, out[i]? = (leBytes 8 (splitmix64 seed (i / 8)).toNat)[i % 8]?) ∧
      (∀ old : List Byte, old.length = buf.length → fillRandom old seed = some out) ∧
      ∀ longer : List Byte, buf.length ≤ longer.length →
        ∃ out', fillRandom longer seed = some out' ∧ out = out'.take buf.length := by
  refine ⟨payload seed buf.length, fillRandom_eq buf seed, payload_length seed _,
    fun i hi => getElem?_payload seed hi, fun old hold => ?_, fun longer hle => ?_⟩
  · rw [fillRandom_eq, hold]
  · exact ⟨_, fillRandom_eq longer seed, (take_payload seed hle).symm⟩

/-! ## No word of the stream repeats -/

/-- Word `k` of a buffer, 8-byte aligned. -/
def word (buf : List Byte) (k : ℕ) : List Byte := (buf.drop (8 * k)).take 8

theorem word_payload (seed : U64) {n k : ℕ} (h : k < n / 8) :
    word (payload seed n) k = leBytes 8 (splitmix64 seed k).toNat := by
  have hfull : 8 * k + 8 ≤ n := by omega
  have happend := payload_append seed k le_rfl
  rw [List.take_of_length_le (leBytes_length 8 _).le] at happend
  rw [word, List.take_drop, Nat.add_comm, take_payload seed (Nat.add_comm 8 _ ▸ hfull),
    Nat.add_comm 8, ← happend]
  exact List.drop_left' (payload_length seed _)

theorem mix64_injective : Function.Injective mix64 := by
  -- the two multipliers are units
  have hinner : (0xBF58476D1CE4E5B9 : U64) * 0x96DE1B173F119089 = 1 := by decide
  have houter : (0x94D049BB133111EB : U64) * 0x319642B2D24D8EC3 = 1 := by decide
  intro x y h
  have h27 := mul_right_injective_of_inverse houter (xorShift_injective (by decide) h)
  have h30 := mul_right_injective_of_inverse hinner (xorShift_injective (by decide) h27)
  exact xorShift_injective (by decide) h30

/-- The increment of the generator is a unit. -/
theorem GAMMA_mul_inverse : GAMMA * 0xF1DE83E19937733D = 1 := by decide

/-- Two words of one stream differ: the Weyl sequence has not come round. -/
theorem splitmix64_ne (seed : U64) {j k : ℕ} (hjk : j < k) (hk : k < 2 ^ 64) :
    splitmix64 seed j ≠ splitmix64 seed k := by
  intro h
  have hweyl : weyl GAMMA seed (j + 1) = weyl GAMMA seed (k + 1) := mix64_injective h
  rw [weyl_succ, weyl_succ] at hweyl
  have heq := weyl_injOn GAMMA_mul_inverse seed (hjk.trans hk) hk (add_right_cancel hweyl)
  exact hjk.ne heq

/-- Two streams differ in their first words. -/
theorem splitmix64_zero_injective : Function.Injective fun seed => splitmix64 seed 0 := by
  intro x y h
  have hweyl : weyl GAMMA x 1 = weyl GAMMA y 1 := mix64_injective h
  rw [weyl_succ, weyl_succ, weyl_zero, weyl_zero] at hweyl
  exact add_right_cancel hweyl

/-- The full words of a filled buffer differ, unless there are `2 ^ 64` of them. -/
theorem word_fillRandom_ne {buf out : List Byte} {seed : U64} (h : fillRandom buf seed = some out)
    (hlen : buf.length / 8 < 2 ^ 64) {j k : ℕ} (hjk : j < k) (hk : k < buf.length / 8) :
    word out j ≠ word out k := by
  rw [fillRandom_eq] at h
  cases h
  rw [word_payload seed (hjk.trans hk), word_payload seed hk]
  intro heq
  exact splitmix64_ne seed hjk (hk.trans hlen) (leBytes_toNat_injective heq)

end Andri

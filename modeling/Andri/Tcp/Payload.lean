/-
  Andri.Tcp.Payload

  The buffers the send loops of `src/modes/tcp.rs` write: every stream fills its own
  once, with a seed mixed from the announced one and the stream's index, so
  that neither one buffer nor two streams repeat a payload.
-/
import Andri.Payload
import Andri.Proto.Msg

namespace Andri.Tcp

open Lib

/-- Mixer of the per-stream payload seeds. -/
def SEED_MIX : U64 := 0x9E3779B97F4A7C15

/-- The seed `drive` hands to stream `i`. -/
def streamSeed (serverSeed : U64) (i : ℕ) : U64 := serverSeed ^^^ (BitVec.ofNat 64 i * SEED_MIX)

/-- The buffer `send_loop` fills before its first write. -/
def sendBuffer (seed : U64) (bufferBytes : Usize) : Option (List Byte) :=
  fillRandom (List.replicate bufferBytes.toNat 0) seed

/-- The buffers of a drive, stream by stream. -/
def sendBuffers (start : Start) (neg : Negotiate) : List (Option (List Byte)) :=
  (List.range neg.parallel.toNat).map fun i =>
    sendBuffer (streamSeed start.serverSeed i) neg.bufferBytes

/-- Streams get different seeds. -/
theorem streamSeed_ne (serverSeed : U64) {i j : ℕ} (hij : i ≠ j) (hi : i < 2 ^ 64)
    (hj : j < 2 ^ 64) : streamSeed serverSeed i ≠ streamSeed serverSeed j := by
  intro h
  have hmul : BitVec.ofNat 64 i * SEED_MIX = BitVec.ofNat 64 j * SEED_MIX :=
    (BitVec.xor_right_inj serverSeed).mp h
  -- the generator's own increment
  have hunit : SEED_MIX * 0xF1DE83E19937733D = 1 := GAMMA_mul_inverse
  exact hij (ofNat_inj_of_lt hi hj (mul_right_injective_of_inverse hunit hmul))

theorem sendBuffer_eq (seed : U64) (bufferBytes : Usize) :
    sendBuffer seed bufferBytes = some (payload seed bufferBytes.toNat) := by
  rw [sendBuffer, fillRandom_eq, List.length_replicate]

/-- Different seeds show in the first word, if the buffer holds one. -/
theorem word_zero_payload_ne {x y : U64} (hxy : x ≠ y) {n : ℕ} (hn : 8 ≤ n) :
    word (payload x n) 0 ≠ word (payload y n) 0 := by
  have hfull : 0 < n / 8 := Nat.div_pos hn (by decide)
  rw [word_payload x hfull, word_payload y hfull]
  intro h
  exact hxy (splitmix64_zero_injective (leBytes_toNat_injective h))

/-- The streams of one drive send pairwise different buffers. -/
theorem sendBuffers_nodup (start : Start) {neg : Negotiate} (h : 8 ≤ neg.bufferBytes.toNat) :
    (sendBuffers start neg).Nodup := by
  have hparallel : neg.parallel.toNat < 2 ^ 64 := neg.parallel.isLt.trans (by decide)
  apply List.Nodup.map_on _ List.nodup_range
  intro i hi j hj heq
  have hi := List.mem_range.mp hi
  have hj := List.mem_range.mp hj
  by_contra hij
  have hseed := streamSeed_ne start.serverSeed hij (hi.trans hparallel) (hj.trans hparallel)
  rw [sendBuffer_eq, sendBuffer_eq, Option.some.injEq] at heq
  apply word_zero_payload_ne hseed h
  rw [heq]

/-- Payloads never repeat: within a filled buffer no two full words are equal, and the
    buffers of two streams differ from their first word on. -/
theorem payloads_differ :
    (∀ (seed : U64) (buf out : List Byte), fillRandom buf seed = some out →
      buf.length / 8 < 2 ^ 64 → ∀ j k : ℕ, j < k → k < buf.length / 8 →
      word out j ≠ word out k) ∧
    ∀ (serverSeed : U64) (bufferBytes : Usize) (i j : ℕ), i ≠ j → i < 2 ^ 32 → j < 2 ^ 32 →
      8 ≤ bufferBytes.toNat →
      ∃ bufi bufj, sendBuffer (streamSeed serverSeed i) bufferBytes = some bufi ∧
        sendBuffer (streamSeed serverSeed j) bufferBytes = some bufj ∧
        word bufi 0 ≠ word bufj 0 ∧ bufi ≠ bufj := by
  refine ⟨fun seed buf out h hlen j k => word_fillRandom_ne h hlen,
    fun serverSeed bufferBytes i j hij hi hj hlen => ?_⟩
  have hseed := streamSeed_ne serverSeed hij (hi.trans (by decide)) (hj.trans (by decide))
  have hword := word_zero_payload_ne hseed hlen
  refine ⟨_, _, sendBuffer_eq _ _, sendBuffer_eq _ _, hword, fun h => hword ?_⟩
  rw [h]

/-- Two words of 16 filled bytes, and two streams of 8. -/
theorem payloads_differ_small :
    (∃ out, fillRandom (List.replicate 16 0) 7 = some out ∧ word out 0 ≠ word out 1) ∧
    ∃ bufi bufj, sendBuffer (streamSeed 7 0) 8 = some bufi ∧
      sendBuffer (streamSeed 7 1) 8 = some bufj ∧ word bufi 0 ≠ word bufj 0 ∧ bufi ≠ bufj :=
  ⟨⟨_, fillRandom_eq _ _, payloads_differ.1 7 _ _ (fillRandom_eq _ _) (by decide) 0 1
    (by decide) (by decide)⟩,
  payloads_differ.2 7 8 0 1 (by decide) (by decide) (by decide) (by decide)⟩

end Andri.Tcp

/-
  Andri.Meter

  Metering of `src/meter.rs`: instants in nanoseconds, rates as exact
  rationals, and the once-per-second sampler `run_sampler` as a task that
  other tasks interleave with.  The counters are read one at a time, so the
  task has a program point for every counter of a sum.
-/
import Andri.Proto.Msg
import Mathlib.Algebra.Order.Field.Rat
import Mathlib.Data.BitVec

namespace Andri

open Lib

/-- Nanoseconds in a second. -/
def SECOND : ℕ := 1000000000

/-- `Duration::from_secs`. -/
def fromSecs (secs : U64) : ℕ := secs.toNat * SECOND

/-- `Duration::as_secs_f64`. -/
def asSecsF64 (ns : ℕ) : ℚ := ns / SECOND

theorem SECOND_pos : 0 < SECOND := by decide

theorem asSecsF64_pos {ns : ℕ} (h : 0 < ns) : 0 < asSecsF64 ns :=
  div_pos (Nat.cast_pos.mpr h) (Nat.cast_pos.mpr SECOND_pos)

/-- Bits per second from a byte delta over an elapsed duration. -/
def bitsPerSec (bytes : U64) (secs : ℚ) : ℚ := if secs ≤ 0 then 0 else bytes.toNat * 8 / secs

/-- Bytes per second, as the `TestResult`s compute it. -/
def bytesPerSec (bytes : U64) (secs : ℚ) : ℚ := if secs > 0 then bytes.toNat / secs else 0

/-! ## The sampler task -/

/-- Locals of a sampling loop: the ticker's next instant, the totals at the last
    reading, and the series so far. -/
structure SampleLoop where
  next : ℕ
  lastBytes : ℕ
  lastT : ℕ
  samples : List Sample

/-- The reading a tick at `now` appends when the counters total `cur`. -/
def SampleLoop.reading (t0 now cur : ℕ) (l : SampleLoop) : Sample :=
  let intervalBytes : U64 := BitVec.ofNat 64 (cur - l.lastBytes)
  { tSecs := asSecsF64 (now - t0)
    bytes := intervalBytes
    bitsPerSec := Andri.bitsPerSec intervalBytes (asSecsF64 (now - l.lastT))
    packetsLost := none
    jitterMs := none }

/-- The loop after that tick. -/
def SampleLoop.record (t0 now cur : ℕ) (l : SampleLoop) : SampleLoop where
  next := l.next
  lastBytes := cur
  lastT := now
  samples := l.samples ++ [l.reading t0 now cur]

/-! ## What a series adds up to -/

/-- The sum of the samples' bytes. -/
def seriesBytes (samples : List Sample) : ℕ := (samples.map fun s => s.bytes.toNat).sum

/-- The samples account for what came between the totals `base` and `last`: in the
    words they are recorded in, and exactly if the total fits one. -/
structure Telescopes (base last : ℕ) (samples : List Sample) : Prop where
  words : (samples.map Sample.bytes).sum + BitVec.ofNat 64 base = BitVec.ofNat 64 last
  exact : last < 2 ^ 64 → seriesBytes samples + base = last

theorem Telescopes.nil (base : ℕ) : Telescopes base base [] where
  words := BitVec.zero_add _
  exact _ := Nat.zero_add _

/-- A reading that has not fallen extends the account to it. -/
theorem Telescopes.record {base cur : ℕ} {l : SampleLoop} (t0 now : ℕ)
    (h : Telescopes base l.lastBytes l.samples) (hle : l.lastBytes ≤ cur) :
    Telescopes base cur (l.record t0 now cur).samples where
  words := by
    have hword : BitVec.ofNat 64 l.lastBytes + BitVec.ofNat 64 (cur - l.lastBytes) =
        BitVec.ofNat 64 cur := by
      rw [← BitVec.ofNat_add, Nat.add_sub_cancel' hle]
    simp only [SampleLoop.record, SampleLoop.reading, List.map_append, List.map_singleton,
      List.sum_append, List.sum_singleton]
    rw [BitVec.add_assoc, BitVec.add_comm (BitVec.ofNat 64 (cur - l.lastBytes)),
      ← BitVec.add_assoc, h.words, hword]
  exact hfit := by
    have hlast := h.exact (by omega)
    have hdelta : cur - l.lastBytes < 2 ^ 64 := by omega
    simp only [seriesBytes, SampleLoop.record, SampleLoop.reading, List.map_append,
      List.map_singleton, List.sum_append, List.sum_singleton, BitVec.toNat_ofNat,
      Nat.mod_eq_of_lt hdelta] at hlast ⊢
    omega

/-! ## The sampler's steps -/

/-- Program points of `run_sampler`: not polled yet; summing the baseline;
    waiting for a tick; summing at a tick; returned. -/
inductive Sampler
  | spawned
  | baseline (next k sum : ℕ)
  | waiting (l : SampleLoop)
  | reading (l : SampleLoop) (now k sum : ℕ)
  | returned (samples : List Sample)

/-- Steps of `run_sampler` started with `t0` and `window` over the counters, with
    the clock before and after. -/
inductive Sampler.Step (t0 window : ℕ) (counters : List ℕ) :
    ℕ → Sampler → ℕ → Sampler → Prop
  /-- First poll: the ticker starts, its first tick is immediate. -/
  | poll {clock now : ℕ} (hnow : clock ≤ now) :
      Step t0 window counters clock .spawned now (.baseline (now + SECOND) 0 0)
  | baselineLoad {clock next k sum b : ℕ} (hk : counters[k]? = some b) :
      Step t0 window counters clock (.baseline next k sum) clock (.baseline next (k + 1) (sum + b))
  | baselineDone {clock next k sum : ℕ} (hk : k = counters.length) :
      Step t0 window counters clock (.baseline next k sum) clock (.waiting ⟨next, sum, t0, []⟩)
  | tick {clock now : ℕ} {l : SampleLoop} (hnow : clock ≤ now) (hdue : l.next ≤ now) :
      Step t0 window counters clock (.waiting l) now
        (.reading { l with next := l.next + SECOND } now 0 0)
  | load {clock now k sum b : ℕ} {l : SampleLoop} (hk : counters[k]? = some b) :
      Step t0 window counters clock (.reading l now k sum) clock (.reading l now (k + 1) (sum + b))
  /-- All counters read: append the sample, and go on while inside the window. -/
  | record {clock now k sum : ℕ} {l : SampleLoop} (hk : k = counters.length) :
      Step t0 window counters clock (.reading l now k sum) clock
        (if window ≤ now - t0 then .returned (l.record t0 now sum).samples
         else .waiting (l.record t0 now sum))

section Record

variable {t0 window clock now k sum : ℕ} {counters : List ℕ} {l : SampleLoop}

/-- Past the window the sample is the last. -/
theorem Sampler.Step.record_past (hk : k = counters.length) (hpast : window ≤ now - t0) :
    Step t0 window counters clock (.reading l now k sum) clock
      (.returned (l.record t0 now sum).samples) := by
  have h : Step t0 window counters clock (.reading l now k sum) clock _ := .record hk
  rwa [if_pos hpast] at h

/-- Inside it the loop goes on. -/
theorem Sampler.Step.record_within (hk : k = counters.length) (hwithin : now - t0 < window) :
    Step t0 window counters clock (.reading l now k sum) clock
      (.waiting (l.record t0 now sum)) := by
  have h : Step t0 window counters clock (.reading l now k sum) clock _ := .record hk
  rwa [if_neg (not_le.mpr hwithin)] at h

end Record

/-- Of `n` counters, those a sum has still to read are there. -/
def Sampler.InBounds (n : ℕ) : Sampler → Prop
  | .baseline _ k _ => k ≤ n
  | .reading _ _ k _ => k ≤ n
  | _ => True

theorem Sampler.Step.inBounds {t0 window clock clock' : ℕ} {counters : List ℕ} {s s' : Sampler}
    (h : Step t0 window counters clock s clock' s') : s'.InBounds counters.length := by
  cases h with
  | poll => exact Nat.zero_le _
  | baselineLoad hk => exact (List.getElem?_eq_some_iff.mp hk).1
  | baselineDone => trivial
  | tick => exact Nat.zero_le _
  | load hk => exact (List.getElem?_eq_some_iff.mp hk).1
  | record =>
      show InBounds _ (if _ then _ else _)
      split <;> trivial

/-- Sampler steps move the clock forward only. -/
theorem Sampler.Step.clock_le {t0 window clock clock' : ℕ} {counters : List ℕ} {s s' : Sampler}
    (h : Step t0 window counters clock s clock' s') : clock ≤ clock' := by
  cases h with
  | poll hnow => exact hnow
  | tick hnow => exact hnow
  | baselineLoad | baselineDone | load | record => exact le_refl _

/-! ## The sampler ends -/

/-- Steps the sampler of `n` counters needs to return when its next tick comes after
    the window. -/
def Sampler.rank (t0 window n : ℕ) : Sampler → ℕ
  | .spawned => 2 * n + 6
  | .baseline _ k _ => n + 4 + (n - k)
  | .waiting _ => n + 3
  | .reading _ now k _ => if window ≤ now - t0 then 1 + (n - k) else n + 4 + (n - k)
  | .returned _ => 0

/-- Unless it has returned, the sampler has a step towards its return. -/
theorem Sampler.exists_step {counters : List ℕ} {s : Sampler} (t0 window clock : ℕ)
    (hb : s.InBounds counters.length) (hs : ∀ samples, s ≠ .returned samples) :
    ∃ clock' s', Step t0 window counters clock s clock' s' ∧
      s'.rank t0 window counters.length < s.rank t0 window counters.length := by
  cases s with
  | spawned =>
      refine ⟨clock, _, .poll le_rfl, ?_⟩
      simp only [rank]
      omega
  | baseline next k sum =>
      have hk : k ≤ counters.length := hb
      rcases Nat.lt_or_eq_of_le hk with hlt | heq
      · refine ⟨clock, _, .baselineLoad (List.getElem?_eq_getElem hlt), ?_⟩
        simp only [rank]
        omega
      · refine ⟨clock, _, .baselineDone heq, ?_⟩
        simp only [rank]
        omega
  | waiting l =>
      -- the tick is taken past the window, so that it is the last
      have hpast : window ≤ max clock (max l.next (t0 + window)) - t0 := by omega
      refine ⟨max clock (max l.next (t0 + window)), _, .tick (by omega) (by omega), ?_⟩
      simp only [rank, if_pos hpast]
      omega
  | reading l now k sum =>
      have hk : k ≤ counters.length := hb
      rcases Nat.lt_or_eq_of_le hk with hlt | heq
      · refine ⟨clock, _, .load (List.getElem?_eq_getElem hlt), ?_⟩
        simp only [rank]
        split <;> omega
      · refine ⟨clock, _, .record heq, ?_⟩
        by_cases hpast : window ≤ now - t0
        · simp only [if_pos hpast, rank]
          omega
        · simp only [if_neg hpast, rank]
          omega
  | returned samples => exact absurd rfl (hs samples)

end Andri

/-
  Andri.Tcp.Measured

  The bytes of a TCP result.  They are the final snapshot less the warm-up
  snapshot, each of which loads the counters one at a time while the streams
  go on.  Whatever falls between, the result is what was added to each counter
  between its two loads, as long as the warm-up load came first; and never more
  than that.
-/
import Andri.Tcp.Trace

namespace Andri.Tcp

open Lib

/-- A result over fewer than `2 ^ 64` bytes holds what was added to every counter after
    its warm-up load and before its final load, when every warm-up load came
    first; nothing, when every final load did; and in no case more. -/
theorem result_measures (neg : Negotiate) (tr : List (Event Reader)) (net : Net) (r : TestResult)
    (h : Traced neg tr net (.returned r)) (hfit : addedUpTo neg.parallel.toNat tr < 2 ^ 64) :
    ((∀ i < neg.parallel.toNat, LoadsFirst .warmup .final i tr) →
      r.bytes.toNat = betweenUpTo .warmup .final neg.parallel.toNat tr) ∧
    ((∀ i < neg.parallel.toNat, LoadsFirst .final .warmup i tr) → r.bytes.toNat = 0) ∧
    r.bytes.toNat ≤ betweenUpTo .warmup .final neg.parallel.toNat tr := by
  have hne : Reader.warmup ≠ .final := by simp
  obtain ⟨finalBytes, finalAt, warmupBytes, warmupAt, samples, rfl, hfinal, hwarmup⟩ := h.accounts
  have hle := seenUpTo_le_addedUpTo Reader.final neg.parallel.toNat tr
  -- the difference fits the word it is returned in
  have hbytes : (result finalBytes finalAt warmupBytes warmupAt samples).bytes.toNat =
      seenUpTo .final neg.parallel.toNat tr - seenUpTo .warmup neg.parallel.toNat tr := by
    simp only [result, BitVec.toNat_ofNat]
    rw [hfinal.sum_eq, hwarmup.sum_eq, Nat.mod_eq_of_lt (by omega)]
  rw [hbytes]
  refine ⟨fun hfirst => seenUpTo_sub_eq hne hfirst, fun hfirst => ?_, seenUpTo_sub_le hne⟩
  have hless := seenUpTo_le hfirst
  omega

/-- A TCP request of one stream, without warm-up. -/
def oneStream : Negotiate where
  mode := .tcp
  durationSecs := 1
  warmupSecs := 0
  parallel := 1
  bufferBytes := 65536
  bidir := false
  bitrateBps := none
  packetBytes := none
  fileLen := none
  nullSource := none

/-- Three bytes on its stream, `taken` of them read. -/
def threeBytes (accepted clock taken : ℕ) : Net := ⟨clock, [⟨3, taken, false⟩], accepted, []⟩

/-- One byte before the warm-up snapshot, two before the final one. -/
def threeByteTrace : List (Event Reader) :=
  [.add 0 1, .load .warmup 0, .add 0 2, .load .final 0, .load .baseline 0, .load (.tick 0) 0]

/-- The sampler's loop before its tick. -/
def oneTick : SampleLoop := ⟨SECOND, 3, 0, []⟩

/-- The series of that run. -/
def oneTickSamples : List Sample :=
  (({ oneTick with next := oneTick.next + SECOND } : SampleLoop).record 0 SECOND 3).samples

theorem traced_threeBytes :
    Traced oneStream threeByteTrace (threeBytes 1 SECOND 3)
      (.returned (result 3 0 1 0 oneTickSamples)) := by
  have hpast : window oneStream ≤ SECOND - 0 := by decide
  -- accept the stream, and one byte on it
  have h : Traced oneStream [] (threeBytes 0 0 0) (.accepting 0) := .start _
  have h := h.step (.accept (k := 0) (by decide) (by decide))
  have h := h.step (.spawn rfl (le_refl 0))
  have h := h.step (.recv (i := 0) (n := 1) rfl rfl (by decide) (by decide))
  -- the warm-up snapshot, and two bytes more
  have h := h.step (.warmup (.poll le_rfl))
  have h := h.step (.warmup (.wake le_rfl le_rfl))
  have h := h.step (.warmup (.load rfl))
  have h := h.step (.warmup (.done le_rfl rfl))
  have h := h.step (.recv (i := 0) (n := 2) rfl rfl (by decide) (by decide))
  -- Stop and the final snapshot
  have h := h.stop rfl
  have h := h.step (.finalLoad rfl rfl)
  have h := h.step (.finalDone rfl rfl le_rfl)
  -- the sampler's only tick, and the joins
  have h := h.step (.sampler (.poll le_rfl))
  have h := h.step (.sampler (.baselineLoad rfl))
  have h := h.step (.sampler (.baselineDone rfl))
  have h := h.step (.sampler (.tick (Nat.zero_le SECOND) (Nat.zero_add SECOND).le))
  have h := h.step (.sampler (.load rfl))
  have h := h.step (.sampler (.record_past rfl hpast))
  have h := h.step (.joinSampler rfl rfl)
  exact h.step (.joinWarmup rfl rfl)

/-- The byte of the warm-up is left out. -/
theorem result_measures_threeBytes : (result 3 0 1 0 oneTickSamples).bytes.toNat = 2 := by
  have hfirst : ∀ i < oneStream.parallel.toNat, LoadsFirst .warmup .final i threeByteTrace := by
    intro i hi
    have hone : oneStream.parallel.toNat = 1 := rfl
    obtain rfl : i = 0 := by omega
    exact ⟨[.add 0 1], _, rfl, by simp⟩
  rw [(result_measures oneStream threeByteTrace _ _ traced_threeBytes (by decide)).1 hfirst]
  decide

end Andri.Tcp

/-
  Andri.Tcp.Series

  The time series of a TCP session against the counters.  The sampler takes its byte
  baseline when it is first polled, after the streams have started, but times
  its first interval from the start; so the samples add up to what a tick reads
  exactly when nothing was added to a counter before the baseline's load of it.
-/
import Andri.Tcp.Measured

namespace Andri.Tcp

open Lib

/-- The samples of a sampler that has recorded some. -/
def recorded : Sampler → List Sample
  | .waiting l | .reading l _ _ _ => l.samples
  | .returned samples => samples
  | .spawned | .baseline _ _ _ => []

/-- What the series holds, while it waits, reads or has returned. -/
theorem SamplerSummed.telescopes {n : ℕ} {tr : List (Event Reader)} {s : Sampler}
    {samples : List Sample} (h : SamplerSummed n tr s) (hs : recorded s = samples)
    (hne : samples ≠ []) :
    Telescopes (seenUpTo .baseline n tr) (seenUpTo (.tick (samples.length - 1)) n tr) samples := by
  -- the sum last taken is the one of the last sample
  have hlast : Reader.last samples.length = .tick (samples.length - 1) := by
    have hpos := List.length_pos_iff.mpr hne
    obtain ⟨m, hm⟩ : ∃ m, samples.length = m + 1 := ⟨samples.length - 1, by omega⟩
    rw [hm, Reader.last, Nat.add_sub_cancel]
  have key : ∀ {base last : ℕ}, SummedTo .baseline n base tr →
      SummedTo (.last samples.length) n last tr → Telescopes base last samples →
      Telescopes (seenUpTo .baseline n tr) (seenUpTo (.tick (samples.length - 1)) n tr)
        samples := by
    intro base last hbase hsum hseries
    rwa [← hlast, ← hsum.sum_eq, ← hbase.sum_eq]
  cases s with
  | spawned | baseline next k sum => exact absurd hs.symm hne
  | waiting l =>
      cases hs
      obtain ⟨base, hbase, hseries⟩ := h.baseline
      exact key hbase h.last hseries
  | reading l now k sum =>
      cases hs
      obtain ⟨base, hbase, hseries⟩ := h.baseline
      exact key hbase h.last hseries
  | returned samples' =>
      cases hs
      obtain ⟨last, h⟩ := h
      obtain ⟨base, hbase, hseries⟩ := h.baseline
      exact key hbase h.last hseries

/-- After every tick of every run, the samples add up to what the tick read exactly
    when nothing was added to a counter before the sampler's baseline load of
    it: in the words the samples are recorded in, up to a multiple of `2 ^ 64`;
    and as numbers, as long as fewer than `2 ^ 64` bytes have come in. -/
theorem series_accounts_iff (neg : Negotiate) (tr : List (Event Reader)) (net : Net) (t : Tasks)
    (h : Traced neg tr net (.measuring t)) (hne : recorded t.sampler ≠ []) :
    let n := neg.parallel.toNat
    let samples := recorded t.sampler
    let read := seenUpTo (.tick (samples.length - 1)) n tr
    ((samples.map Sample.bytes).sum = BitVec.ofNat 64 read ↔
      2 ^ 64 ∣ seenUpTo .baseline n tr) ∧
    (addedUpTo n tr < 2 ^ 64 →
      (seriesBytes samples = read ↔ ∀ i < n, addedBefore .baseline i tr = 0)) := by
  intro n samples read
  have hseries : Telescopes (seenUpTo .baseline n tr) read samples :=
    h.accounts.sampler.telescopes rfl hne
  constructor
  · have hzero : BitVec.ofNat 64 (seenUpTo .baseline n tr) = 0 ↔
        2 ^ 64 ∣ seenUpTo .baseline n tr := by
      rw [← BitVec.toNat_inj, BitVec.toNat_ofNat, Nat.dvd_iff_mod_eq_zero]
      rfl
    rw [← hzero, ← hseries.words]
    constructor
    · intro heq
      exact BitVec.add_right_eq_self.mp heq.symm
    · intro heq
      rw [heq]
      exact (BitVec.add_zero _).symm
  · intro hfit
    have hexact := hseries.exact ((seenUpTo_le_addedUpTo _ n tr).trans_lt hfit)
    have hzero : seenUpTo .baseline n tr = 0 ↔ ∀ i < n, addedBefore .baseline i tr = 0 := by
      rw [seenUpTo, Finset.sum_eq_zero_iff]
      simp only [Finset.mem_range]
    rw [← hzero]
    omega

/-- The sampler's loop before its tick, two bytes in before its first poll. -/
def lateLoop : SampleLoop := ⟨SECOND, 2, 0, []⟩

/-- The tasks after that tick, which has read one byte more. -/
def lateTasks : Tasks where
  t0 := 0
  counters := [3]
  sampler :=
    .waiting (({ lateLoop with next := lateLoop.next + SECOND } : SampleLoop).record 0 SECOND 3)
  warmup := .spawned
  main := .awaitingStop

/-- Two bytes before the sampler's baseline, one after. -/
def lateTrace : List (Event Reader) :=
  [.add 0 2, .load .baseline 0, .add 0 1, .load (.tick 0) 0]

/-- Two seconds of the one stream. -/
def twoSeconds : Negotiate := { oneStream with durationSecs := 2 }

theorem traced_lateTasks :
    Traced twoSeconds lateTrace (threeBytes 1 SECOND 3) (.measuring lateTasks) := by
  have hwithin : SECOND - 0 < window twoSeconds := by decide
  have h : Traced twoSeconds [] (threeBytes 0 0 0) (.accepting 0) := .start _
  have h := h.step (.accept (k := 0) (by decide) (by decide))
  have h := h.step (.spawn rfl (le_refl 0))
  -- the stream is read before the sampler is polled
  have h := h.step (.recv (i := 0) (n := 2) rfl rfl (by decide) (by decide))
  have h := h.step (.sampler (.poll le_rfl))
  have h := h.step (.sampler (.baselineLoad rfl))
  have h := h.step (.sampler (.baselineDone rfl))
  have h := h.step (.recv (i := 0) (n := 1) rfl rfl (by decide) (by decide))
  have h := h.step (.sampler (.tick (Nat.zero_le SECOND) (Nat.zero_add SECOND).le))
  have h := h.step (.sampler (.load rfl))
  exact h.step (.sampler (.record_within rfl hwithin))

/-- The bytes that came in before the sampler's first poll are in no sample. -/
theorem early_bytes_missed :
    seriesBytes (recorded lateTasks.sampler) = 1 ∧
    seenUpTo (.tick 0) twoSeconds.parallel.toNat lateTrace = 3 ∧
    ¬ ∀ (neg : Negotiate) (tr : List (Event Reader)) (net : Net) (t : Tasks),
      Traced neg tr net (.measuring t) → recorded t.sampler ≠ [] →
      addedUpTo neg.parallel.toNat tr < 2 ^ 64 →
      seriesBytes (recorded t.sampler) =
        seenUpTo (.tick ((recorded t.sampler).length - 1)) neg.parallel.toNat tr := by
  have hseries : seriesBytes (recorded lateTasks.sampler) = 1 := by decide
  have hread : seenUpTo (.tick 0) twoSeconds.parallel.toNat lateTrace = 3 := by decide
  refine ⟨hseries, hread, fun hall => ?_⟩
  have hne : recorded lateTasks.sampler ≠ [] := by simp [lateTasks, recorded, SampleLoop.record]
  have h := hall twoSeconds lateTrace _ lateTasks traced_lateTasks hne (by decide)
  rw [hseries] at h
  exact absurd (h.trans hread) (by decide)

theorem series_accounts_iff_late :
    seriesBytes (recorded lateTasks.sampler) =
        seenUpTo (.tick ((recorded lateTasks.sampler).length - 1)) twoSeconds.parallel.toNat
          lateTrace ↔
      ∀ i < twoSeconds.parallel.toNat, addedBefore .baseline i lateTrace = 0 :=
  (series_accounts_iff twoSeconds lateTrace _ lateTasks traced_lateTasks
    (by simp [lateTasks, recorded, SampleLoop.record])).2 (by decide)

end Andri.Tcp

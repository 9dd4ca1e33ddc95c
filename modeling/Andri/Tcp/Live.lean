/-
  Andri.Tcp.Live

  The live readouts of a TCP test: `run_sampler` as `tcp::serve` and `tcp::drive` spawn
  it.  The runs are those of the two functions with the lines printed so far.

  The bytes of a tagged line are meant to be left out of the Result, but the tag goes by
  the tick and the Result by the warm-up snapshot, and the last tick is not the
  final snapshot.  What the untagged lines add up to is the Result up to what
  came in between the two and the two.
-/
import Andri.Live
import Andri.Tcp.Drive

namespace Andri.Tcp

open Lib

/-! ## Runs with their lines -/

/-- What a step of `serve` prints. -/
def Serve.prints (neg : Negotiate) : Serve → Serve → List LiveLine
  | .measuring t, .measuring t' => t.sampler.prints t.t0 (fromSecs neg.warmupSecs) t'.sampler
  | _, _ => []

/-- The states `serve` can be in, with its lines, its trace and the net. -/
inductive Shown (neg : Negotiate) : List LiveLine → List (Event Reader) → Net → Serve → Prop
  | start (net : Net) : Shown neg [] [] net (.accepting 0)
  | step {lines : List LiveLine} {tr : List (Event Reader)} {net net' : Net} {s s' : Serve}
      (h : Shown neg lines tr net s) (hs : Step neg net s net' s') :
      Shown neg (lines ++ s.prints neg s') (tr ++ s.events s') net' s'
  | stop {lines : List LiveLine} {tr : List (Event Reader)} {net : Net} {s s' : Serve}
      (h : Shown neg lines tr net s) (hs : s.onStop = some s') :
      Shown neg (lines ++ s.prints neg s') (tr ++ s.events s') net s'
  | other {lines : List LiveLine} {tr : List (Event Reader)} {net net' : Net} {s : Serve}
      (h : Shown neg lines tr net s) (hle : net.clock ≤ net'.clock) : Shown neg lines tr net' s

/-- What a step of `drive` prints. -/
def Drive.prints (neg : Negotiate) : Drive → Drive → List LiveLine
  | .sending t, .sending t' =>
      match t.sampler, t'.sampler with
      | some s, some s' => s.prints t.t0 (fromSecs neg.warmupSecs) s'
      | _, _ => []
  | _, _ => []

/-- The states `drive` can be in, with its lines and the net. -/
inductive Drive.Shown (neg : Negotiate) (quiet : Bool) (cap : ℕ) :
    List LiveLine → Net → Drive → Prop
  | start (net : Net) : Shown neg quiet cap [] net (.connecting 0)
  | step {lines : List LiveLine} {listening : Prop} {net net' : Net} {d d' : Drive}
      (h : Shown neg quiet cap lines net d)
      (hd : Drive.Step neg quiet cap listening net d net' d') :
      Shown neg quiet cap (lines ++ d.prints neg d') net' d'
  | other {lines : List LiveLine} {net net' : Net} {d : Drive} (h : Shown neg quiet cap lines net d)
      (hle : net.clock ≤ net'.clock) : Shown neg quiet cap lines net' d

section Runs

variable {neg : Negotiate} {lines : List LiveLine} {tr : List (Event Reader)} {net : Net}
  {s : Serve}

/-- The lines are all that is added. -/
theorem Shown.traced (h : Shown neg lines tr net s) : Traced neg tr net s := by
  induction h with
  | start net => exact .start net
  | step _ hs ih => exact ih.step hs
  | stop _ hs ih => exact ih.stop hs
  | other _ hle ih => exact ih.other hle

/-- And printing holds nothing up. -/
theorem Traced.shown (h : Traced neg tr net s) : ∃ lines, Shown neg lines tr net s := by
  induction h with
  | start net => exact ⟨[], .start net⟩
  | step _ hs ih =>
      obtain ⟨lines, h⟩ := ih
      exact ⟨_, h.step hs⟩
  | stop _ hs ih =>
      obtain ⟨lines, h⟩ := ih
      exact ⟨_, h.stop hs⟩
  | other _ hle ih =>
      obtain ⟨lines, h⟩ := ih
      exact ⟨lines, h.other hle⟩

end Runs

@[simp] theorem prints_self (t0 warmup : ℕ) (s : Sampler) : s.prints t0 warmup s = [] := by
  cases s <;> rfl

/-! ## The lines of `serve` -/

/-- The readout of a measurement; the samples to be returned are the sampler's. -/
structure Tasks.Shows (neg : Negotiate) (clock : ℕ) (lines : List LiveLine) (t : Tasks) :
    Prop where
  started : t.t0 ≤ clock
  sampler : t.sampler.Shows t.t0 (window neg) (fromSecs neg.warmupSecs) clock lines
  joined : ∀ bytes at_ samples, t.main = .joiningWarmup bytes at_ samples →
    t.sampler = .returned samples

/-- The readout at each program point of `serve`. -/
def Serve.Shows (neg : Negotiate) (clock : ℕ) (lines : List LiveLine) : Serve → Prop
  | .accepting _ => lines = []
  | .measuring t => t.Shows neg clock lines
  | .returned r => ∃ t0, (Sampler.returned r.samples).Shows t0 (window neg)
      (fromSecs neg.warmupSecs) clock lines

section Serve

variable {neg : Negotiate} {lines : List LiveLine} {tr : List (Event Reader)} {net net' : Net}
  {s s' : Serve} {clock clock' : ℕ}

theorem Serve.Shows.later (h : s.Shows neg clock lines) (hle : clock ≤ clock') :
    s.Shows neg clock' lines := by
  cases s with
  | accepting => exact h
  | measuring t => exact ⟨h.started.trans hle, h.sampler.later hle, h.joined⟩
  | returned r =>
      obtain ⟨t0, h⟩ := h
      exact ⟨t0, h.later hle⟩

/-- A step of another task prints nothing. -/
theorem Tasks.Shows.noLine {t t' : Tasks} (h : t.Shows neg clock lines) (ht0 : t'.t0 = t.t0)
    (hsampler : t'.sampler = t.sampler) (hle : clock ≤ clock')
    (hjoined : ∀ bytes at_ samples, t'.main = .joiningWarmup bytes at_ samples →
      t.sampler = .returned samples) :
    (Serve.measuring t').Shows neg clock'
      (lines ++ (Serve.measuring t).prints neg (.measuring t')) := by
  simp only [Serve.prints, hsampler, prints_self, List.append_nil]
  refine ⟨?_, ?_, fun bytes at_ samples hm => ?_⟩
  · rw [ht0]
    exact h.started.trans hle
  · rw [ht0, hsampler]
    exact h.sampler.later hle
  · rw [hsampler]
    exact hjoined bytes at_ samples hm

theorem Step.shows (h : Step neg net s net' s') (hs : s.Shows neg net.clock lines) :
    s'.Shows neg net'.clock (lines ++ s.prints neg s') := by
  cases h with
  | accept =>
      obtain rfl : lines = [] := hs
      rfl
  | spawn hk hnow =>
      obtain rfl : lines = [] := hs
      exact ⟨le_rfl, rfl, fun bytes at_ samples hm => by cases hm⟩
  | recv => exact Tasks.Shows.noLine hs rfl rfl le_rfl hs.joined
  | @sampler t clock' s' hstep =>
      refine ⟨hs.started.trans hstep.clock_le, hstep.shows hs.started hs.sampler,
        fun bytes at_ samples hm => ?_⟩
      -- a sampler that has returned takes no step
      have hret := hs.joined bytes at_ samples hm
      rw [hret] at hstep
      cases hstep
  | @warmup t clock' w' hstep =>
      have hle : net.clock ≤ clock' := by
        generalize t.warmup = w at hstep
        cases hstep with
        | poll hnow | wake hnow | done hnow => exact hnow
        | load => exact le_rfl
      exact Tasks.Shows.noLine hs rfl rfl hle hs.joined
  | finalLoad =>
      exact Tasks.Shows.noLine hs rfl rfl le_rfl fun bytes at_ samples hm => by cases hm
  | finalDone hmain hk hnow =>
      exact Tasks.Shows.noLine hs rfl rfl hnow fun bytes at_ samples hm => by cases hm
  | joinSampler hmain hret =>
      refine Tasks.Shows.noLine hs rfl rfl le_rfl fun bytes at_ samples hm => ?_
      cases hm
      exact hret
  | @joinWarmup t bytes at_ wbytes wat samples hmain hw =>
      have hret := hs.joined _ _ _ hmain
      have hsampler := hs.sampler
      rw [hret] at hsampler
      simp only [Serve.prints, List.append_nil]
      exact ⟨t.t0, hsampler⟩

theorem Serve.Shows.onStop (hs : s.Shows neg clock lines) (h : s.onStop = some s') :
    s'.Shows neg clock (lines ++ s.prints neg s') := by
  unfold Serve.onStop at h
  split at h
  · split at h
    · cases h
      exact Tasks.Shows.noLine hs rfl rfl le_rfl fun bytes at_ samples hm => by cases hm
    · cases h
  · cases h

theorem Shown.shows (h : Shown neg lines tr net s) : s.Shows neg net.clock lines := by
  induction h with
  | start net => rfl
  | step _ hs ih => exact hs.shows ih
  | stop _ hs ih => exact ih.onStop hs
  | other _ hle ih => exact ih.later hle

end Serve

/-! ## The lines of `drive` -/

/-- The readout at each program point of `drive`: none when quiet. -/
def Drive.Shows (neg : Negotiate) (quiet : Bool) (clock : ℕ) (lines : List LiveLine) :
    Drive → Prop
  | .connecting _ => lines = []
  | .sending t => t.t0 ≤ clock ∧
      match t.sampler with
      | none => quiet = true ∧ lines = []
      | some s => quiet = false ∧ s.Shows t.t0 (total neg) (fromSecs neg.warmupSecs) clock lines
  | .returned => (quiet = true ∧ lines = []) ∨
      (quiet = false ∧ ∃ t0 samples, (Sampler.returned samples).Shows t0 (total neg)
        (fromSecs neg.warmupSecs) clock lines)

section Drive

variable {neg : Negotiate} {quiet : Bool} {cap : ℕ} {listening : Prop} {lines : List LiveLine}
  {net net' : Net} {d d' : Drive} {clock clock' : ℕ}

theorem Drive.Shows.later (h : d.Shows neg quiet clock lines) (hle : clock ≤ clock') :
    d.Shows neg quiet clock' lines := by
  cases d with
  | connecting => exact h
  | sending t =>
      obtain ⟨hstart, h⟩ := h
      refine ⟨hstart.trans hle, ?_⟩
      cases hs : t.sampler with
      | none =>
          rw [hs] at h
          exact h
      | some s =>
          rw [hs] at h
          exact ⟨h.1, h.2.later hle⟩
  | returned =>
      rcases h with h | ⟨hquiet, t0, samples, h⟩
      · exact .inl h
      · exact .inr ⟨hquiet, t0, samples, h.later hle⟩

/-- A step of a send loop prints nothing. -/
theorem Drive.Shows.noLine {t t' : Senders} (h : (Drive.sending t).Shows neg quiet clock lines)
    (ht0 : t'.t0 = t.t0) (hsampler : t'.sampler = t.sampler) (hle : clock ≤ clock') :
    (Drive.sending t').Shows neg quiet clock'
      (lines ++ (Drive.sending t).prints neg (.sending t')) := by
  have hnone : (Drive.sending t).prints neg (.sending t') = [] := by
    simp only [Drive.prints, hsampler]
    cases t.sampler with
    | none => rfl
    | some s => exact prints_self _ _ s
  rw [hnone, List.append_nil]
  have hlater := h.later hle
  simp only [Drive.Shows, ht0, hsampler] at hlater ⊢
  exact hlater

theorem Drive.Step.shows (h : Drive.Step neg quiet cap listening net d net' d')
    (hd : d.Shows neg quiet net.clock lines) :
    d'.Shows neg quiet net'.clock (lines ++ d.prints neg d') := by
  cases h with
  | connect =>
      obtain rfl : lines = [] := hd
      rfl
  | spawn hk hnow =>
      obtain rfl : lines = [] := hd
      cases quiet with
      | true => exact ⟨le_rfl, rfl, rfl⟩
      | false => exact ⟨le_rfl, rfl, rfl⟩
  | check hl hnow => exact Drive.Shows.noLine hd rfl rfl hnow
  | finish hl hc hnow => exact Drive.Shows.noLine hd rfl rfl hnow
  | write | wrote => exact Drive.Shows.noLine hd rfl rfl le_rfl
  | @sampler t clock' s s' hs hstep =>
      obtain ⟨hstart, h⟩ := hd
      rw [hs] at h
      simp only [Drive.prints, hs]
      exact ⟨hstart.trans hstep.clock_le, h.1, hstep.shows hstart h.2⟩
  | @join t hj =>
      obtain ⟨hstart, h⟩ := hd
      simp only [Drive.prints, List.append_nil]
      cases hs : t.sampler with
      | none =>
          rw [hs] at h
          exact .inl h
      | some s =>
          rw [hs] at h
          obtain ⟨samples, rfl⟩ := hj.2 s hs
          exact .inr ⟨h.1, t.t0, samples, h.2⟩

theorem Drive.Shown.shows (h : Drive.Shown neg quiet cap lines net d) :
    d.Shows neg quiet net.clock lines := by
  induction h with
  | start net => rfl
  | step _ hd ih => exact hd.shows ih
  | other _ hle ih => exact ih.later hle

end Drive

/-! ## Both readouts -/

/-- The readouts of a TCP test at the server and at the client, in every run of either:
    at any time while the test is measured, and when the function has returned.  A
    client that prints JSON has none. -/
theorem live_readout {neg : Negotiate}
    (hfit : neg.durationSecs.toNat + neg.warmupSecs.toNat < 2 ^ 64) :
    let duration := neg.durationSecs.toNat
    let warmup := neg.warmupSecs.toNat
    (∀ lines tr net t, Shown neg lines tr net (.measuring t) →
      LiveReadout duration warmup t.sampler lines) ∧
    (∀ lines tr net r, Shown neg lines tr net (.returned r) →
      LiveReadout duration warmup (.returned r.samples) lines) ∧
    (∀ quiet cap lines net t, Drive.Shown neg quiet cap lines net (.sending t) →
      match t.sampler with
      | none => quiet = true ∧ lines = []
      | some s => quiet = false ∧ LiveReadout duration warmup s lines) ∧
    ∀ quiet cap lines net, Drive.Shown neg quiet cap lines net .returned →
      (quiet = true ∧ lines = []) ∨
      (quiet = false ∧ ∃ samples, LiveReadout duration warmup (.returned samples) lines) := by
  intro duration warmup
  have hwindow : fromSecs (windowSecs neg) = (duration + warmup) * SECOND := by
    rw [fromSecs, windowSecs, BitVec.toNat_add, Nat.mod_eq_of_lt hfit]
  have hreadout : ∀ {t0 clock : ℕ} {s : Sampler} {lines : List LiveLine},
      s.Shows t0 (fromSecs (windowSecs neg)) (fromSecs neg.warmupSecs) clock lines →
      LiveReadout duration warmup s lines := by
    intro t0 clock s lines h
    rw [hwindow] at h
    exact h.readout
  refine ⟨fun lines tr net t h => ?_, fun lines tr net r h => ?_, fun quiet cap lines net t h => ?_,
    fun quiet cap lines net h => ?_⟩
  · exact hreadout h.shows.sampler
  · obtain ⟨t0, h⟩ := h.shows
    exact hreadout h
  · obtain ⟨-, h⟩ := h.shows
    cases hs : t.sampler with
    | none =>
        rw [hs] at h
        exact h
    | some s =>
        rw [hs] at h
        exact ⟨h.1, hreadout h.2⟩
  · rcases h.shows with h | ⟨hquiet, t0, samples, h⟩
    · exact .inl h
    · exact .inr ⟨hquiet, samples, hreadout h⟩

/-- The one line of a test of one second. -/
theorem live_readout_oneStream :
    ∃ lines, Shown oneStream lines threeByteTrace (threeBytes 1 SECOND 3)
        (.returned (result 3 0 1 0 oneTickSamples)) ∧
      LiveReadout 1 0 (.returned oneTickSamples) lines := by
  obtain ⟨lines, h⟩ := traced_threeBytes.shown
  exact ⟨lines, h, (@live_readout oneStream (by decide)).2.1 lines _ _ _ h⟩

/-! ## Sample by sample -/

/-- Every sample of a series is what two readings in a row differ by. -/
structure Stepwise (n : ℕ) (samples : List Sample) (tr : List (Event Reader)) : Prop where
  loaded : ∀ m ≤ samples.length, ∃ sum, SummedTo (.last m) n sum tr
  bytes : ∀ m s, samples[m]? = some s →
    s.bytes = BitVec.ofNat 64 (seenUpTo (.last (m + 1)) n tr - seenUpTo (.last m) n tr)
  rises : ∀ m < samples.length, seenUpTo (.last m) n tr ≤ seenUpTo (.last (m + 1)) n tr

section Stepwise

variable {n : ℕ} {tr us : List (Event Reader)} {samples : List Sample} {l : SampleLoop}

/-- The readings taken are not touched by what comes after. -/
theorem Stepwise.append (h : Stepwise n samples tr)
    (hus : ∀ m ≤ samples.length, ∀ i, Event.load (Reader.last m) i ∉ us) :
    Stepwise n samples (tr ++ us) := by
  have hseen : ∀ m ≤ samples.length,
      seenUpTo (.last m) n (tr ++ us) = seenUpTo (.last m) n tr := by
    intro m hm
    obtain ⟨sum, hsum⟩ := h.loaded m hm
    exact hsum.seenUpTo_append le_rfl
  refine ⟨fun m hm => ?_, fun m s hs => ?_, fun m hm => ?_⟩
  · obtain ⟨sum, hsum⟩ := h.loaded m hm
    exact ⟨sum, hsum.append (hus m hm)⟩
  · have hlt := (List.getElem?_eq_some_iff.mp hs).1
    rw [hseen m hlt.le, hseen (m + 1) hlt]
    exact h.bytes m s hs
  · rw [hseen m hm.le, hseen (m + 1) hm]
    exact h.rises m hm

/-- A tick's sample is what its reading and the one before differ by. -/
theorem Stepwise.record {t0 now sum : ℕ} (h : Stepwise n l.samples tr) (ht : Ticking n n sum l tr) :
    Stepwise n (l.record t0 now sum).samples tr := by
  have hlen : (l.record t0 now sum).samples.length = l.samples.length + 1 := by
    simp [SampleLoop.record]
  have hsum : sum = seenUpTo (.last (l.samples.length + 1)) n tr := ht.tick.sum_eq
  refine ⟨fun m hm => ?_, fun m s hs => ?_, fun m hm => ?_⟩
  · rcases Nat.le_or_eq_of_le_succ (hlen ▸ hm) with hold | rfl
    · exact h.loaded m hold
    · exact ⟨sum, ht.tick⟩
  · rw [SampleLoop.record] at hs
    rcases Nat.lt_or_ge m l.samples.length with hold | hnew
    · rw [List.getElem?_append_left hold] at hs
      exact h.bytes m s hs
    · rw [List.getElem?_append_right hnew, List.getElem?_singleton] at hs
      split at hs
      · next hzero =>
          obtain rfl : m = l.samples.length := by omega
          cases hs
          rw [← hsum, ← ht.last.sum_eq]
          rfl
      · cases hs
  · rcases Nat.lt_or_eq_of_le (Nat.le_of_lt_succ (hlen ▸ hm)) with hold | rfl
    · exact h.rises m hold
    · rw [← hsum]
      exact ht.noLess

/-- From any sample on, a series adds up to what its last reading and the one before that
    sample differ by. -/
theorem Stepwise.drop (h : Stepwise n samples tr) (hfit : addedUpTo n tr < 2 ^ 64) {k : ℕ}
    (hk : k ≤ samples.length) :
    seriesBytes (samples.drop k) + seenUpTo (.last k) n tr =
      seenUpTo (.last samples.length) n tr := by
  induction hd : samples.length - k generalizing k with
  | zero =>
      obtain rfl : k = samples.length := by omega
      rw [List.drop_length, seriesBytes, List.map_nil, List.sum_nil, Nat.zero_add]
  | succ d ih =>
      have hlt : k < samples.length := by omega
      have hrest := ih (k := k + 1) hlt (by omega)
      have hrise := h.rises k hlt
      have hbound := seenUpTo_le_addedUpTo (.last (k + 1)) n tr
      have hbytes : samples[k].bytes.toNat =
          seenUpTo (.last (k + 1)) n tr - seenUpTo (.last k) n tr := by
        rw [h.bytes k _ (List.getElem?_eq_getElem hlt), BitVec.toNat_ofNat,
          Nat.mod_eq_of_lt (by omega)]
      have hhead : seriesBytes (samples.drop k) =
          samples[k].bytes.toNat + seriesBytes (samples.drop (k + 1)) := by
        rw [List.drop_eq_getElem_cons hlt]
        rfl
      omega

end Stepwise

/-- The sampler's series so far, sample by sample. -/
def SamplerStepwise (n : ℕ) (tr : List (Event Reader)) : Sampler → Prop
  | .spawned | .baseline _ _ _ => True
  | .waiting l | .reading l _ _ _ => Stepwise n l.samples tr
  | .returned samples => Stepwise n samples tr

section SamplerStepwise

variable {n : ℕ} {tr us : List (Event Reader)} {s s' : Sampler}

theorem SamplerStepwise.append (h : SamplerStepwise n tr s) (hus : NoSampling us) :
    SamplerStepwise n (tr ++ us) s := by
  cases s with
  | spawned | baseline => trivial
  | waiting l | reading l | returned samples =>
      exact Stepwise.append h fun m _ i => hus.last m i

/-- Ticks after the last one recorded are not read back. -/
theorem last_ne_tick_of_le {m k : ℕ} (h : m ≤ k) : Reader.last m ≠ .tick k := by
  cases m with
  | zero => simp [Reader.last]
  | succ m =>
      simp only [Reader.last, ne_eq, Reader.tick.injEq]
      omega

theorem samplerStepwise_step {t0 window clock clock' : ℕ} {counters : List ℕ}
    (h : Sampler.Step t0 window counters clock s clock' s') (hlen : counters.length = n)
    (hsum : SamplerSummed n tr s) (hs : SamplerStepwise n tr s) :
    SamplerStepwise n (tr ++ samplerLoads s s') s' := by
  cases h with
  | poll | baselineLoad => trivial
  | baselineDone hk =>
      obtain ⟨hbase, -⟩ := hsum
      simp only [samplerLoads, List.append_nil]
      refine ⟨fun m hm => ?_, fun m s hs => (by simp at hs),
        fun m hm => absurd hm (Nat.not_lt_zero m)⟩
      obtain rfl : m = 0 := Nat.le_zero.mp hm
      exact ⟨_, by rwa [hk, hlen] at hbase⟩
  | tick =>
      simp only [samplerLoads, List.append_nil]
      exact hs
  | @load now k sum b l hk =>
      rw [samplerLoads, loadFrom_succ]
      refine Stepwise.append hs fun m hm i => ?_
      have hne := last_ne_tick_of_le hm
      simp [hne]
  | @record now k sum l hk =>
      have hticking : Ticking n n sum l tr := by
        rw [hk, hlen] at hsum
        exact hsum
      have hrecord : Stepwise n (l.record t0 now sum).samples tr := Stepwise.record hs hticking
      by_cases hpast : window ≤ now - t0
      · simp only [if_pos hpast, samplerLoads, List.append_nil]
        exact hrecord
      · simp only [if_neg hpast, samplerLoads, List.append_nil]
        exact hrecord

end SamplerStepwise

/-! ## The untagged lines and the Result -/

/-- The series of a measurement, and of the Result, sample by sample. -/
def Serve.Stepwise (neg : Negotiate) (tr : List (Event Reader)) : Serve → Prop
  | .accepting _ => True
  | .measuring t => SamplerStepwise neg.parallel.toNat tr t.sampler
  | .returned r => Tcp.Stepwise neg.parallel.toNat r.samples tr

section Untagged

variable {neg : Negotiate} {lines : List LiveLine} {tr : List (Event Reader)} {net net' : Net}
  {s s' : Serve} {r : TestResult}

theorem Step.stepwise (h : Step neg net s net' s') (haccounts : s.Accounts neg tr)
    (hshows : s.Shows neg net.clock lines) (hs : s.Stepwise neg tr) :
    s'.Stepwise neg (tr ++ s.events s') := by
  -- the main task loads for itself only
  have hmain : ∀ (t : Tasks) (m' : Main), SamplerStepwise neg.parallel.toNat tr t.sampler →
      SamplerStepwise neg.parallel.toNat (tr ++ t.events { t with main := m' }) t.sampler := by
    intro t m' ht
    rw [t.events_main]
    exact ht.append (noSampling_of_loadsBy (t.main.loads_loadsBy m') (by simp) (by simp))
  cases h with
  | accept | spawn => trivial
  | @recv t i m b c hc hb hm hle =>
      have hstep : SamplerStepwise _ tr t.sampler := hs
      show SamplerStepwise _ (tr ++ t.events _) t.sampler
      rw [t.events_counters hb hm]
      exact hstep.append fun r j _ => by simp
  | @sampler t clock' s' hstep =>
      show SamplerStepwise _ (tr ++ t.events _) s'
      rw [t.events_sampler]
      exact samplerStepwise_step hstep haccounts.length haccounts.sampler hs
  | @warmup t clock' w' hstep =>
      have hold : SamplerStepwise _ tr t.sampler := hs
      show SamplerStepwise _ (tr ++ t.events _) t.sampler
      rw [t.events_warmup]
      exact hold.append (noSampling_of_loadsBy (t.warmup.loads_loadsBy w') (by simp) (by simp))
  | finalLoad | finalDone | joinSampler => exact hmain _ _ hs
  | @joinWarmup t bytes at_ wbytes wat samples hm hw =>
      have hstep : SamplerStepwise _ tr t.sampler := hs
      rw [hshows.joined _ _ _ hm] at hstep
      simp only [Serve.events, List.append_nil]
      exact hstep

theorem Shown.stepwise (h : Shown neg lines tr net s) : s.Stepwise neg tr := by
  induction h with
  | start net => trivial
  | step h hs ih => exact hs.stepwise h.traced.accounts h.shows ih
  | @stop lines tr net s s' h hs ih =>
      unfold Serve.onStop at hs
      split at hs
      · next t =>
          split at hs
          · cases hs
            have hold : SamplerStepwise _ tr t.sampler := ih
            show SamplerStepwise _ (tr ++ t.events _) t.sampler
            rw [t.events_main]
            exact hold.append
              (noSampling_of_loadsBy (t.main.loads_loadsBy _) (by simp) (by simp))
          · cases hs
      · cases hs
  | other _ _ ih => exact ih

theorem Traced.toNat_bytes (h : Traced neg tr net (.returned r))
    (hfit : addedUpTo neg.parallel.toNat tr < 2 ^ 64) :
    r.bytes.toNat =
      seenUpTo .final neg.parallel.toNat tr - seenUpTo .warmup neg.parallel.toNat tr := by
  obtain ⟨finalBytes, finalAt, warmupBytes, warmupAt, samples, rfl, hfinal, hwarmup⟩ := h.accounts
  have hle := seenUpTo_le_addedUpTo Reader.final neg.parallel.toNat tr
  simp only [result, BitVec.toNat_ofNat]
  rw [hfinal.sum_eq, hwarmup.sum_eq, Nat.mod_eq_of_lt (by omega)]

/-- The bytes of the untagged lines and those of the Result, in every run in which the
    warm-up snapshot loads every counter before the final one.  They differ by what was
    added to the counters between the warm-up snapshot and the last tagged reading
    (the sampler's baseline, if there is none), and between the last reading and the
    final snapshot, whichever came first, and by nothing else. -/
theorem untagged_accounts (h : Shown neg lines tr net (.returned r))
    (hfit : addedUpTo neg.parallel.toNat tr < 2 ^ 64)
    (hfirst : ∀ i < neg.parallel.toNat, LoadsFirst .warmup .final i tr) :
    let n := neg.parallel.toNat
    let cut := Reader.last (tagged lines)
    let last := Reader.last r.samples.length
    seriesBytes (untagged lines r.samples) + betweenUpTo last .final n tr +
        betweenUpTo .warmup cut n tr =
      r.bytes.toNat + betweenUpTo .final last n tr + betweenUpTo cut .warmup n tr := by
  intro n cut last
  obtain ⟨t0, ⟨latest, hshows⟩, -⟩ := h.shows
  have hlen := hshows.length_eq
  have hearly : early (tagBound (fromSecs neg.warmupSecs)) (lines.map LiveLine.elapsed) ≤
      lines.length := by
    simpa using early_le_length _ (lines.map LiveLine.elapsed)
  obtain ⟨htagged, hdrop⟩ := untagged_eq_drop hlen hearly hshows.tags_eq
  have hseries := Tcp.Stepwise.drop h.stepwise hfit (hlen ▸ hearly)
  rw [← hdrop, ← htagged] at hseries
  have hbytes := h.traced.toNat_bytes hfit
  have hsnapshots := seenUpTo_le hfirst
  -- the readings against the snapshots
  have hne : ∀ m, Reader.last m ≠ .final ∧ Reader.last m ≠ .warmup := by
    intro m
    cases m <;> simp [Reader.last]
  have hend : seenUpTo last n tr + betweenUpTo last .final n tr =
      seenUpTo .final n tr + betweenUpTo .final last n tr :=
    seenUpTo_add_between (hne _).1
  have hstart : seenUpTo cut n tr + betweenUpTo cut .warmup n tr =
      seenUpTo .warmup n tr + betweenUpTo .warmup cut n tr :=
    seenUpTo_add_between (hne _).2
  change _ + seenUpTo cut n tr = seenUpTo last n tr at hseries
  change _ = seenUpTo .final n tr - seenUpTo .warmup n tr at hbytes
  change seenUpTo .warmup n tr ≤ seenUpTo .final n tr at hsnapshots
  omega

end Untagged

theorem untagged_accounts_threeBytes :
    ∃ lines, Shown oneStream lines threeByteTrace (threeBytes 1 SECOND 3)
        (.returned (result 3 0 1 0 oneTickSamples)) ∧
      seriesBytes (untagged lines oneTickSamples) +
          betweenUpTo (.last 1) .final 1 threeByteTrace +
          betweenUpTo .warmup (.last (tagged lines)) 1 threeByteTrace =
        2 + betweenUpTo .final (.last 1) 1 threeByteTrace +
          betweenUpTo (.last (tagged lines)) .warmup 1 threeByteTrace := by
  have hfirst : ∀ i < oneStream.parallel.toNat, LoadsFirst .warmup .final i threeByteTrace := by
    intro i hi
    have hone : oneStream.parallel.toNat = 1 := rfl
    obtain rfl : i = 0 := by omega
    exact ⟨[.add 0 1], _, rfl, by simp⟩
  obtain ⟨lines, h⟩ := traced_threeBytes.shown
  exact ⟨lines, h, untagged_accounts h (by decide) hfirst⟩

end Andri.Tcp

/-
  Andri.Tcp.Trace

  Runs of `tcp::serve` with the trace of their counter accesses.  A step's accesses
  are read off the states it joins: an increase of a counter is an add, a sum
  that goes on is a load.  Three sums are taken over the counters: the warm-up
  snapshot, the final snapshot, and the sampler's, which it takes once for its
  baseline and once at each tick.

  The run lemma says what every task holds in terms of the trace: its sum is what
  was added to each counter before it loaded it.
-/
import Andri.Lib.Counters
import Andri.Tcp.Serve

namespace Andri.Tcp

open Lib

/-- The sums taken over the counters; `tick m` is the sampler's at its tick `m`,
    counted from 0. -/
inductive Reader
  | warmup
  | final
  | baseline
  | tick (m : ℕ)
deriving DecidableEq

/-- The sum the sampler's `m`-th sample is compared with. -/
def Reader.last : ℕ → Reader
  | 0 => .baseline
  | m + 1 => .tick m

/-! ## The accesses of a step -/

/-- The counters that increase, with the amounts. -/
def increases : List ℕ → List ℕ → List (ℕ × ℕ)
  | b :: bs, b' :: bs' =>
      (if b' = b then [] else [(0, b' - b)]) ++
        (increases bs bs').map fun p => (p.1 + 1, p.2)
  | _, _ => []

/-- The load a sum makes when it goes from counter `k` on. -/
def loadFrom (r : Reader) (k k' : ℕ) : List (Event Reader) :=
  if k' = k + 1 then [.load r k] else []

def WarmupSnap.loads : WarmupSnap → WarmupSnap → List (Event Reader)
  | .reading k _, .reading k' _ => loadFrom .warmup k k'
  | _, _ => []

def Main.loads : Main → Main → List (Event Reader)
  | .reading k _, .reading k' _ => loadFrom .final k k'
  | _, _ => []

def samplerLoads : Sampler → Sampler → List (Event Reader)
  | .baseline _ k _, .baseline _ k' _ => loadFrom .baseline k k'
  | .reading l _ k _, .reading _ _ k' _ => loadFrom (.tick l.samples.length) k k'
  | _, _ => []

/-- The accesses between two states of the tasks. -/
def Tasks.events (t t' : Tasks) : List (Event Reader) :=
  (increases t.counters t'.counters).map (fun p => .add p.1 p.2) ++
    samplerLoads t.sampler t'.sampler ++ t.warmup.loads t'.warmup ++ t.main.loads t'.main

def Serve.events : Serve → Serve → List (Event Reader)
  | .measuring t, .measuring t' => t.events t'
  | _, _ => []

/-- The states `serve` can be in, with the net and the trace so far: its own steps,
    the `stop` future at any time, and whatever else happens to the net. -/
inductive Traced (neg : Negotiate) : List (Event Reader) → Net → Serve → Prop
  | start (net : Net) : Traced neg [] net (.accepting 0)
  | step {tr : List (Event Reader)} {net net' : Net} {s s' : Serve} (h : Traced neg tr net s)
      (hs : Step neg net s net' s') : Traced neg (tr ++ s.events s') net' s'
  | stop {tr : List (Event Reader)} {net : Net} {s s' : Serve} (h : Traced neg tr net s)
      (hs : s.onStop = some s') : Traced neg (tr ++ s.events s') net s'
  | other {tr : List (Event Reader)} {net net' : Net} {s : Serve} (h : Traced neg tr net s)
      (hle : net.clock ≤ net'.clock) : Traced neg tr net' s

@[simp] theorem increases_self (bs : List ℕ) : increases bs bs = [] := by
  induction bs with
  | nil => rfl
  | cons b bs ih => simp [increases, ih]

/-- One counter that increases. -/
theorem increases_set {bs : List ℕ} {i b n : ℕ} (hb : bs[i]? = some b) (hn : 0 < n) :
    increases bs (bs.set i (b + n)) = [(i, n)] := by
  induction bs generalizing i with
  | nil => simp at hb
  | cons a bs ih =>
      cases i with
      | zero =>
          cases hb
          have hne : n ≠ 0 := by omega
          simp [increases, hne]
      | succ i =>
          have htail := ih (i := i) (by simpa using hb)
          simp [increases, htail]

@[simp] theorem loadFrom_succ (r : Reader) (k : ℕ) : loadFrom r k (k + 1) = [.load r k] :=
  if_pos rfl

@[simp] theorem loadFrom_self (r : Reader) (k : ℕ) : loadFrom r k k = [] :=
  if_neg (Nat.succ_ne_self k).symm

@[simp] theorem WarmupSnap.loads_self (w : WarmupSnap) : w.loads w = [] := by
  cases w <;> simp [loads]

@[simp] theorem Main.loads_self (m : Main) : m.loads m = [] := by
  cases m <;> simp [loads]

@[simp] theorem samplerLoads_self (s : Sampler) : samplerLoads s s = [] := by
  cases s <;> simp [samplerLoads]

section Events

variable (t : Tasks)

theorem Tasks.events_counters {i b n : ℕ} (hb : t.counters[i]? = some b) (hn : 0 < n) :
    t.events { t with counters := t.counters.set i (b + n) } = [.add i n] := by
  simp [events, increases_set hb hn]

theorem Tasks.events_sampler (s' : Sampler) :
    t.events { t with sampler := s' } = samplerLoads t.sampler s' := by
  simp [events]

theorem Tasks.events_warmup (w' : WarmupSnap) :
    t.events { t with warmup := w' } = t.warmup.loads w' := by
  simp [events]

theorem Tasks.events_main (m' : Main) : t.events { t with main := m' } = t.main.loads m' := by
  simp [events]

end Events

/-! ## What the tasks hold -/

/-- The warm-up snapshot against the trace. -/
def WarmupSnap.Summed (n : ℕ) (tr : List (Event Reader)) : WarmupSnap → Prop
  | .spawned | .sleeping _ => ∀ i, Event.load Reader.warmup i ∉ tr
  | .reading k sum => SummedTo .warmup k sum tr
  | .returned bytes _ => SummedTo .warmup n bytes tr

/-- The final snapshot against the trace. -/
def Main.Summed (n : ℕ) (tr : List (Event Reader)) : Main → Prop
  | .awaitingStop => ∀ i, Event.load Reader.final i ∉ tr
  | .reading k sum => SummedTo .final k sum tr
  | .joiningSampler bytes _ | .joiningWarmup bytes _ _ => SummedTo .final n bytes tr

/-- The trace goes on without the sampler. -/
def NoSampling (tr : List (Event Reader)) : Prop :=
  ∀ r i, (r = .baseline ∨ ∃ m, r = Reader.tick m) → Event.load r i ∉ tr

/-- The series recorded up to the total `last`: no tick past it has been read. -/
structure Recorded (n last : ℕ) (samples : List Sample) (tr : List (Event Reader)) : Prop where
  baseline : ∃ base, SummedTo .baseline n base tr ∧ Telescopes base last samples
  last : SummedTo (.last samples.length) n last tr
  ahead : ∀ m i, samples.length ≤ m → Event.load (Reader.tick m) i ∉ tr

/-- Summing at a tick: what has been summed is no less than what the sum before it had
    seen of the same counters. -/
structure Ticking (n k sum : ℕ) (l : SampleLoop) (tr : List (Event Reader)) : Prop where
  baseline : ∃ base, SummedTo .baseline n base tr ∧ Telescopes base l.lastBytes l.samples
  last : SummedTo (.last l.samples.length) n l.lastBytes tr
  tick : SummedTo (.tick l.samples.length) k sum tr
  bound : k ≤ n
  noLess : seenUpTo (.last l.samples.length) k tr ≤ sum
  ahead : ∀ m i, l.samples.length < m → Event.load (Reader.tick m) i ∉ tr

/-- The sampler against the trace. -/
def SamplerSummed (n : ℕ) (tr : List (Event Reader)) : Sampler → Prop
  | .spawned => NoSampling tr
  | .baseline _ k sum => SummedTo .baseline k sum tr ∧ ∀ m i, Event.load (Reader.tick m) i ∉ tr
  | .waiting l => Recorded n l.lastBytes l.samples tr
  | .reading l _ k sum => Ticking n k sum l tr
  | .returned samples => ∃ last, Recorded n last samples tr

/-- The tasks against the trace. -/
structure Tasks.Accounts (n : ℕ) (tr : List (Event Reader)) (t : Tasks) : Prop where
  length : t.counters.length = n
  counters : ∀ {i b : ℕ}, t.counters[i]? = some b → b = added i tr
  sampler : SamplerSummed n tr t.sampler
  warmup : t.warmup.Summed n tr
  main : t.main.Summed n tr

/-- The invariant of `serve`'s program points. -/
def Serve.Accounts (neg : Negotiate) (tr : List (Event Reader)) : Serve → Prop
  | .accepting k => tr = [] ∧ k ≤ neg.parallel.toNat
  | .measuring t => t.Accounts neg.parallel.toNat tr
  | .returned r => ∃ finalBytes finalAt warmupBytes warmupAt samples,
      r = result finalBytes finalAt warmupBytes warmupAt samples ∧
      SummedTo .final neg.parallel.toNat finalBytes tr ∧
      SummedTo .warmup neg.parallel.toNat warmupBytes tr

section Append

variable {n : ℕ} {tr us : List (Event Reader)}

theorem WarmupSnap.Summed.append {w : WarmupSnap} (h : w.Summed n tr)
    (hus : ∀ i, Event.load Reader.warmup i ∉ us) : w.Summed n (tr ++ us) := by
  cases w with
  | spawned | sleeping wake => exact fun i => by simp [h i, hus i]
  | reading k sum => exact SummedTo.append h hus
  | returned bytes at_ => exact SummedTo.append h hus

theorem Main.Summed.append {m : Main} (h : m.Summed n tr)
    (hus : ∀ i, Event.load Reader.final i ∉ us) : m.Summed n (tr ++ us) := by
  cases m with
  | awaitingStop => exact fun i => by simp [h i, hus i]
  | reading k sum => exact SummedTo.append h hus
  | joiningSampler bytes at_ | joiningWarmup bytes at_ samples => exact SummedTo.append h hus

theorem NoSampling.last (h : NoSampling us) (m i : ℕ) : Event.load (Reader.last m) i ∉ us := by
  cases m with
  | zero => exact h _ i (.inl rfl)
  | succ m => exact h _ i (.inr ⟨m, rfl⟩)

theorem Recorded.append {last : ℕ} {samples : List Sample} (h : Recorded n last samples tr)
    (hus : NoSampling us) : Recorded n last samples (tr ++ us) where
  baseline := by
    obtain ⟨base, hbase, hseries⟩ := h.baseline
    exact ⟨base, hbase.append fun i => hus _ i (.inl rfl), hseries⟩
  last := h.last.append fun i => hus.last _ i
  ahead m i hm := by simp [h.ahead m i hm, hus _ i (.inr ⟨m, rfl⟩)]

theorem Ticking.append {k sum : ℕ} {l : SampleLoop} (h : Ticking n k sum l tr)
    (hus : NoSampling us) : Ticking n k sum l (tr ++ us) where
  baseline := by
    obtain ⟨base, hbase, hseries⟩ := h.baseline
    exact ⟨base, hbase.append fun i => hus _ i (.inl rfl), hseries⟩
  last := h.last.append fun i => hus.last _ i
  tick := h.tick.append fun i => hus _ i (.inr ⟨_, rfl⟩)
  bound := h.bound
  noLess := by
    rw [h.last.seenUpTo_append h.bound]
    exact h.noLess
  ahead m i hm := by simp [h.ahead m i hm, hus _ i (.inr ⟨m, rfl⟩)]

theorem SamplerSummed.append {s : Sampler} (h : SamplerSummed n tr s) (hus : NoSampling us) :
    SamplerSummed n (tr ++ us) s := by
  cases s with
  | spawned => exact fun r i hr => by simp [h r i hr, hus r i hr]
  | baseline next k sum =>
      obtain ⟨hsum, hticks⟩ := h
      exact ⟨hsum.append fun i => hus _ i (.inl rfl),
        fun m i => by simp [hticks m i, hus _ i (.inr ⟨m, rfl⟩)]⟩
  | waiting l => exact Recorded.append h hus
  | reading l now k sum => exact Ticking.append h hus
  | returned samples =>
      obtain ⟨last, h⟩ := h
      exact ⟨last, h.append hus⟩

end Append

/-! ## One step of a task -/

section TaskSteps

variable {n clock clock' : ℕ} {counters : List ℕ} {tr : List (Event Reader)}

theorem loadFrom_loadsBy {p : Reader → Prop} {r : Reader} (hr : p r) (k k' : ℕ) :
    LoadsBy p (loadFrom r k k') := by
  unfold loadFrom
  split
  · intro e he
    exact ⟨r, k, hr, List.mem_singleton.mp he⟩
  · exact .nil

/-- Every task loads for itself only. -/
theorem WarmupSnap.loads_loadsBy (w w' : WarmupSnap) : LoadsBy (· = .warmup) (w.loads w') := by
  unfold loads
  split
  · exact loadFrom_loadsBy (p := (· = _)) rfl _ _
  · exact .nil

theorem Main.loads_loadsBy (m m' : Main) : LoadsBy (· = .final) (m.loads m') := by
  unfold loads
  split
  · exact loadFrom_loadsBy (p := (· = _)) rfl _ _
  · exact .nil

theorem samplerLoads_loadsBy (s s' : Sampler) :
    LoadsBy (fun r => r = .baseline ∨ ∃ m, r = .tick m) (samplerLoads s s') := by
  unfold samplerLoads
  split
  · exact loadFrom_loadsBy (.inl rfl) _ _
  · exact loadFrom_loadsBy (.inr ⟨_, rfl⟩) _ _
  · exact .nil

theorem noSampling_of_loadsBy {r : Reader} {us : List (Event Reader)} (h : LoadsBy (· = r) us)
    (hbase : r ≠ .baseline) (htick : ∀ m, r ≠ .tick m) : NoSampling us := by
  rintro r' i (rfl | ⟨m, rfl⟩)
  · exact h.notMem hbase.symm i
  · exact h.notMem (htick m).symm i

theorem WarmupSnap.Step.summed {warmup : ℕ} {w w' : WarmupSnap}
    (h : Step warmup counters clock w clock' w') (hlen : counters.length = n)
    (hcounters : ∀ {i b : ℕ}, counters[i]? = some b → b = added i tr) (hw : w.Summed n tr) :
    w'.Summed n (tr ++ w.loads w') := by
  cases h with
  | poll hnow =>
      simp only [loads, List.append_nil]
      exact hw
  | wake hnow hdue =>
      simp only [loads, List.append_nil]
      exact SummedTo.zero hw
  | load hk =>
      rw [loads, loadFrom_succ, hcounters hk]
      exact SummedTo.load hw
  | done hnow hk =>
      simp only [loads, List.append_nil]
      rwa [hk, hlen] at hw

theorem Reader.last_ne_tick (m : ℕ) : Reader.last m ≠ .tick m := by
  cases m with
  | zero => simp [last]
  | succ m => simp [last]

/-- The tick's next load. -/
theorem Ticking.load {k sum : ℕ} {l : SampleLoop} (h : Ticking n k sum l tr) (hk : k < n) :
    Ticking n (k + 1) (sum + added k tr) l (tr ++ [.load (.tick l.samples.length) k]) where
  baseline := by
    obtain ⟨base, hbase, hseries⟩ := h.baseline
    exact ⟨base, hbase.append (by simp), hseries⟩
  last := h.last.append (by simp [Reader.last_ne_tick])
  tick := h.tick.load
  bound := hk
  noLess := by
    rw [h.last.seenUpTo_append hk, seenUpTo, Finset.sum_range_succ, ← seenUpTo]
    exact Nat.add_le_add h.noLess (addedBefore_le_added k tr _)
  ahead m i hm := by
    have hne : m ≠ l.samples.length := by omega
    simp [h.ahead m i hm, hne]

/-- All counters summed, the tick appends its sample. -/
theorem Ticking.record {sum : ℕ} {l : SampleLoop} (t0 now : ℕ) (h : Ticking n n sum l tr) :
    Recorded n sum (l.record t0 now sum).samples tr := by
  have hlen : (l.record t0 now sum).samples.length = l.samples.length + 1 := by
    simp [SampleLoop.record]
  have hle : l.lastBytes ≤ sum := by
    rw [h.last.sum_eq]
    exact h.noLess
  obtain ⟨base, hbase, hseries⟩ := h.baseline
  refine ⟨⟨base, hbase, hseries.record t0 now hle⟩, ?_, fun m i hm => h.ahead m i (by omega)⟩
  rw [hlen]
  exact h.tick

theorem samplerSummed_step {t0 window : ℕ} {s s' : Sampler}
    (h : Sampler.Step t0 window counters clock s clock' s') (hlen : counters.length = n)
    (hcounters : ∀ {i b : ℕ}, counters[i]? = some b → b = added i tr) (hs : SamplerSummed n tr s) :
    SamplerSummed n (tr ++ samplerLoads s s') s' := by
  cases h with
  | poll hnow =>
      simp only [samplerLoads, List.append_nil]
      exact ⟨SummedTo.zero fun i => hs _ i (.inl rfl), fun m i => hs _ i (.inr ⟨m, rfl⟩)⟩
  | baselineLoad hk =>
      obtain ⟨hsum, hticks⟩ := hs
      rw [samplerLoads, loadFrom_succ, hcounters hk]
      exact ⟨hsum.load, fun m i => by simp [hticks m i]⟩
  | baselineDone hk =>
      obtain ⟨hsum, hticks⟩ := hs
      simp only [samplerLoads, List.append_nil]
      rw [hk, hlen] at hsum
      exact ⟨⟨_, hsum, .nil _⟩, hsum, fun m i _ => hticks m i⟩
  | tick hnow hdue =>
      simp only [samplerLoads, List.append_nil]
      exact ⟨hs.baseline, hs.last, SummedTo.zero fun i => hs.ahead _ i le_rfl, Nat.zero_le n,
        le_rfl, fun m i hm => hs.ahead m i hm.le⟩
  | @load now k sum b l hk =>
      have hlt : k < n := hlen ▸ (List.getElem?_eq_some_iff.mp hk).1
      rw [samplerLoads, loadFrom_succ, hcounters hk]
      exact Ticking.load hs hlt
  | @record now k sum l hk =>
      rw [hk, hlen] at hs
      have hrecord := Ticking.record t0 now hs
      -- past the window the sampler returns, before it goes on
      by_cases hpast : window ≤ now - t0
      · simp only [if_pos hpast, samplerLoads, List.append_nil]
        exact ⟨sum, hrecord⟩
      · simp only [if_neg hpast, samplerLoads, List.append_nil]
        exact hrecord

end TaskSteps

/-! ## One step of `serve` -/

theorem Tasks.spawn_accounts (t0 n : ℕ) : (Tasks.spawn t0 n).Accounts n [] where
  length := List.length_replicate
  counters hb := (List.mem_replicate.mp (List.mem_of_getElem? hb)).2
  sampler _ _ _ := List.not_mem_nil
  warmup _ := List.not_mem_nil
  main _ := List.not_mem_nil

section Accounts

variable {n : ℕ} {tr us : List (Event Reader)} {t : Tasks}

/-- One add of a receive loop. -/
theorem Tasks.Accounts.add (h : t.Accounts n tr) {i b m : ℕ} (hb : t.counters[i]? = some b)
    (hm : 0 < m) :
    ({ t with counters := t.counters.set i (b + m) } : Tasks).Accounts n
      (tr ++ t.events { t with counters := t.counters.set i (b + m) }) := by
  rw [t.events_counters hb hm]
  refine ⟨by simpa using h.length, fun {j c} hc => ?_, h.sampler.append fun r j _ => by simp,
    h.warmup.append fun j => by simp, h.main.append fun j => by simp⟩
  by_cases hij : i = j
  · subst hij
    rw [List.getElem?_set_self (List.getElem?_eq_some_iff.mp hb).1] at hc
    cases hc
    rw [added_append, ← h.counters hb]
    simp [added]
  · rw [List.getElem?_set_ne hij] at hc
    rw [added_append, ← h.counters hc]
    simp [added, hij]

theorem Tasks.Accounts.sampler_step (h : t.Accounts n tr) {t0 window clock clock' : ℕ}
    {s' : Sampler} (hs : Sampler.Step t0 window t.counters clock t.sampler clock' s') :
    ({ t with sampler := s' } : Tasks).Accounts n (tr ++ t.events { t with sampler := s' }) := by
  have hloads := samplerLoads_loadsBy t.sampler s'
  rw [t.events_sampler]
  refine ⟨h.length, fun hc => ?_, samplerSummed_step hs h.length h.counters h.sampler,
    h.warmup.append (hloads.notMem (by simp)), h.main.append (hloads.notMem (by simp))⟩
  rw [hloads.added_append]
  exact h.counters hc

theorem Tasks.Accounts.warmup_step (h : t.Accounts n tr) {warmup clock clock' : ℕ} {w' : WarmupSnap}
    (hs : WarmupSnap.Step warmup t.counters clock t.warmup clock' w') :
    ({ t with warmup := w' } : Tasks).Accounts n (tr ++ t.events { t with warmup := w' }) := by
  have hloads := t.warmup.loads_loadsBy w'
  rw [t.events_warmup]
  have hnosampling : NoSampling _ := noSampling_of_loadsBy hloads (by simp) (by simp)
  refine ⟨h.length, fun hc => ?_, h.sampler.append hnosampling,
    hs.summed h.length h.counters h.warmup, h.main.append (hloads.notMem (by simp))⟩
  rw [hloads.added_append]
  exact h.counters hc

/-- The main task goes on to `m'`. -/
theorem Tasks.Accounts.main_step (h : t.Accounts n tr) {m' : Main}
    (hm : m'.Summed n (tr ++ t.main.loads m')) :
    ({ t with main := m' } : Tasks).Accounts n (tr ++ t.events { t with main := m' }) := by
  have hloads := t.main.loads_loadsBy m'
  rw [t.events_main]
  have hnosampling : NoSampling _ := noSampling_of_loadsBy hloads (by simp) (by simp)
  refine ⟨h.length, fun hc => ?_, h.sampler.append hnosampling,
    h.warmup.append (hloads.notMem (by simp)), hm⟩
  rw [hloads.added_append]
  exact h.counters hc

end Accounts

variable {neg : Negotiate} {tr : List (Event Reader)} {net net' : Net} {s s' : Serve}

/-- Every step keeps the tasks accounted for by the trace. -/
theorem Step.accounts (h : Step neg net s net' s') (hs : s.Accounts neg tr) :
    s'.Accounts neg (tr ++ s.events s') := by
  cases h with
  | @accept k hk hpending =>
      obtain ⟨rfl, -⟩ := hs
      exact ⟨rfl, hk⟩
  | @spawn k now hk hnow =>
      obtain ⟨rfl, -⟩ := hs
      rw [hk]
      exact Tasks.spawn_accounts now _
  | @recv t i m b c hc hb hm hle =>
      exact Tasks.Accounts.add hs hb hm
  | @sampler t clock' s' hstep =>
      exact Tasks.Accounts.sampler_step hs hstep
  | @warmup t clock' w' hstep =>
      exact Tasks.Accounts.warmup_step hs hstep
  | @finalLoad t k sum b hmain hk =>
      have hsum : t.main.Summed _ tr := hs.main
      apply Tasks.Accounts.main_step hs
      rw [hmain] at hsum ⊢
      simp only [Main.loads, loadFrom_succ, hs.counters hk]
      exact SummedTo.load hsum
  | @finalDone t k sum now hmain hk hnow =>
      have hsum : t.main.Summed _ tr := hs.main
      apply Tasks.Accounts.main_step hs
      rw [hmain] at hsum ⊢
      simp only [Main.loads, List.append_nil]
      rwa [hk, hs.length] at hsum
  | @joinSampler t bytes at_ samples hmain hret =>
      have hsum : t.main.Summed _ tr := hs.main
      apply Tasks.Accounts.main_step hs
      rw [hmain] at hsum ⊢
      simp only [Main.loads, List.append_nil]
      exact hsum
  | @joinWarmup t bytes at_ wbytes wat samples hmain hw =>
      have hfinal : t.main.Summed _ tr := hs.main
      have hwarm : t.warmup.Summed _ tr := hs.warmup
      rw [hmain] at hfinal
      rw [hw] at hwarm
      simp only [Serve.events, List.append_nil]
      exact ⟨bytes, at_, wbytes, wat, samples, rfl, hfinal, hwarm⟩

/-- Stop reaches a task that has not begun its final snapshot. -/
theorem Serve.Accounts.onStop (hs : s.Accounts neg tr) (h : s.onStop = some s') :
    s'.Accounts neg (tr ++ s.events s') := by
  unfold Serve.onStop at h
  split at h
  · next t =>
      split at h
      · next hmain =>
          cases h
          have hsum : t.main.Summed _ tr := hs.main
          apply Tasks.Accounts.main_step hs
          rw [hmain] at hsum ⊢
          simp only [Main.loads, List.append_nil]
          exact SummedTo.zero hsum
      · cases h
  · cases h

/-- The trace accounts for what the tasks hold, all along every run. -/
theorem Traced.accounts (h : Traced neg tr net s) : s.Accounts neg tr := by
  induction h with
  | start net => exact ⟨rfl, Nat.zero_le _⟩
  | step _ hs ih => exact hs.accounts ih
  | stop _ hs ih => exact ih.onStop hs
  | other _ _ ih => exact ih

end Andri.Tcp

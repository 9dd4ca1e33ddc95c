/-
  Andri.Lib.Transition

  Runs of a step relation: invariants of every reachable state, and reaching
  a goal.  `CanReach` composes stage by stage (`trans`), is established by a
  rank that some step always decreases, and is refuted by an invariant that
  excludes the goal.
-/
import Mathlib.Logic.Relation
import Mathlib.Order.WellFounded

namespace Andri.Lib

variable {σ τ : Type*}

/-- Finite runs of a step relation. -/
abbrev Run (step : σ → σ → Prop) : σ → σ → Prop := Relation.ReflTransGen step

/-- The state lies on a run from an initial state. -/
def Reachable (init : σ → Prop) (step : σ → σ → Prop) (s : σ) : Prop :=
  ∃ s₀, init s₀ ∧ Run step s₀ s

/-- Some run from the state ends in the goal. -/
def CanReach (step : σ → σ → Prop) (goal : σ → Prop) (s : σ) : Prop :=
  ∃ s', Run step s s' ∧ goal s'

variable {init : σ → Prop} {step : σ → σ → Prop} {goal mid I : σ → Prop} {s s' : σ}

/-! ## Invariants -/

/-- What every step preserves, every run preserves. -/
theorem run_invariant (hstep : ∀ s s', I s → step s s' → I s') (h : Run step s s') (hI : I s) :
    I s' := by
  induction h with
  | refl => exact hI
  | tail _ hlast ih => exact hstep _ _ ih hlast

theorem Reachable.start (h : init s) : Reachable init step s :=
  ⟨s, h, .refl⟩

theorem Reachable.next (h : Reachable init step s) (hs : step s s') : Reachable init step s' := by
  obtain ⟨s₀, h₀, hrun⟩ := h
  exact ⟨s₀, h₀, hrun.tail hs⟩

theorem Reachable.run (h : Reachable init step s) (hs : Run step s s') :
    Reachable init step s' := by
  obtain ⟨s₀, h₀, hrun⟩ := h
  exact ⟨s₀, h₀, hrun.trans hs⟩

/-- What is reachable stays so with more steps. -/
theorem Reachable.mono {step' : σ → σ → Prop} (h : Reachable init step s)
    (hstep : ∀ s s', step s s' → step' s s') : Reachable init step' s := by
  obtain ⟨s₀, h₀, hrun⟩ := h
  exact ⟨s₀, h₀, Relation.ReflTransGen.mono hstep _ _ hrun⟩

/-- A property of the initial states that every step preserves holds of every
    reachable state. -/
theorem Reachable.invariant (h : Reachable init step s) (h₀ : ∀ s, init s → I s)
    (hstep : ∀ s s', I s → step s s' → I s') : I s := by
  obtain ⟨s₀, hinit, hrun⟩ := h
  exact run_invariant hstep hrun (h₀ s₀ hinit)

/-- Runs map along a function that sends steps to runs, under an invariant of the
    source. -/
theorem Run.map {step' : τ → τ → Prop} {f : σ → τ}
    (hI : ∀ s s', I s → step s s' → I s')
    (hf : ∀ s s', I s → step s s' → Run step' (f s) (f s'))
    (h : Run step s s') (hs : I s) : Run step' (f s) (f s') := by
  induction h with
  | refl => exact .refl
  | tail hrun hlast ih => exact ih.trans (hf _ _ (run_invariant hI hrun hs) hlast)

/-- A property that holds before every step it holds after holds all along a run that
    ends in it. -/
theorem Reachable.within {Q : σ → Prop} {step' : σ → σ → Prop}
    (hQ : ∀ s s', step s s' → Q s' → Q s) (hstep : ∀ s s', Q s → step s s' → Q s' → step' s s')
    (h : Reachable init step s) (hs : Q s) : Reachable init step' s := by
  obtain ⟨s₀, h₀, hrun⟩ := h
  refine ⟨s₀, h₀, ?_⟩
  induction hrun with
  | refl => exact .refl
  | tail _ hlast ih =>
      have hQs := hQ _ _ hlast hs
      exact (ih hQs).tail (hstep _ _ hQs hlast hs)

/-! ## Reaching a goal -/

theorem CanReach.here (h : goal s) : CanReach step goal s :=
  ⟨s, .refl, h⟩

theorem CanReach.head (hs : step s s') (h : CanReach step goal s') : CanReach step goal s := by
  obtain ⟨t, hrun, hgoal⟩ := h
  exact ⟨t, .head hs hrun, hgoal⟩

theorem CanReach.of_run (hs : Run step s s') (h : CanReach step goal s') :
    CanReach step goal s := by
  obtain ⟨t, hrun, hgoal⟩ := h
  exact ⟨t, hs.trans hrun, hgoal⟩

/-- Stages compose: from anywhere the first stage ends, the second goes on. -/
theorem CanReach.trans (h : CanReach step mid s)
    (hnext : ∀ t, Run step s t → mid t → CanReach step goal t) : CanReach step goal s := by
  obtain ⟨t, hrun, hmid⟩ := h
  exact (hnext t hrun hmid).of_run hrun

theorem CanReach.mono {goal' : σ → Prop} (h : CanReach step goal s)
    (hg : ∀ t, goal t → goal' t) : CanReach step goal' s := by
  obtain ⟨t, hrun, hgoal⟩ := h
  exact ⟨t, hrun, hg t hgoal⟩

/-- If below the goal some step keeps `I` and decreases a well-founded rank, the
    goal is reached. -/
theorem canReach_of_rank {α : Type*} {r : α → α → Prop} (wf : WellFounded r) (rank : σ → α)
    (h : ∀ s, I s → ¬ goal s → ∃ s', step s s' ∧ I s' ∧ r (rank s') (rank s)) (hs : I s) :
    CanReach step goal s := by
  induction hrank : rank s using wf.induction generalizing s with
  | _ a ih =>
      by_cases hgoal : goal s
      · exact .here hgoal
      · obtain ⟨s', hstep, hI, hlt⟩ := h s hs hgoal
        exact .head hstep (ih (rank s') (hrank ▸ hlt) hI rfl)

/-- The same with a measure in the naturals. -/
theorem canReach_of_measure (μ : σ → ℕ)
    (h : ∀ s, I s → ¬ goal s → ∃ s', step s s' ∧ I s' ∧ μ s' < μ s) (hs : I s) :
    CanReach step goal s :=
  canReach_of_rank Nat.lt_wfRel.wf μ h hs

/-- If under `I` every step decreases a measure, no run goes on forever. -/
theorem acc_of_measure (μ : σ → ℕ) (h : ∀ s s', I s → step s s' → I s' ∧ μ s' < μ s) (hs : I s) :
    Acc (fun t s => step s t) s := by
  induction hμ : μ s using Nat.strong_induction_on generalizing s with
  | _ n ih =>
      refine Acc.intro s fun t hstep => ?_
      obtain ⟨hI, hlt⟩ := h s t hs hstep
      exact ih (μ t) (hμ ▸ hlt) hI rfl

/-- An invariant that excludes the goal keeps every run away from it. -/
theorem not_canReach_of_invariant (hstep : ∀ s s', I s → step s s' → I s')
    (hgoal : ∀ s, I s → ¬ goal s) (hs : I s) : ¬ CanReach step goal s := by
  rintro ⟨t, hrun, ht⟩
  exact hgoal t (run_invariant hstep hrun hs) ht

/-! ## Labelled runs -/

section Labelled

variable {α : Type*} {step : α → σ → σ → Prop} {s t u : σ} {ls ls' : List α}

/-- Finite runs of a labelled step relation, with the labels in order. -/
inductive LabelledRun (step : α → σ → σ → Prop) (s : σ) : List α → σ → Prop
  | refl : LabelledRun step s [] s
  | tail {ls : List α} {a : α} {t u : σ} (h : LabelledRun step s ls t) (hlast : step a t u) :
      LabelledRun step s (ls ++ [a]) u

/-- What holds at the start of no labels and goes on from step to step holds of every
    run. -/
theorem LabelledRun.invariant {I : List α → σ → Prop} (h : LabelledRun step s ls t)
    (hstart : I [] s) (hstep : ∀ ls a t u, I ls t → step a t u → I (ls ++ [a]) u) : I ls t := by
  induction h with
  | refl => exact hstart
  | tail _ hlast ih => exact hstep _ _ _ _ ih hlast

theorem LabelledRun.trans (h : LabelledRun step s ls t) (h' : LabelledRun step t ls' u) :
    LabelledRun step s (ls ++ ls') u := by
  induction h' with
  | refl =>
      rw [List.append_nil]
      exact h
  | tail _ hlast ih =>
      rw [← List.append_assoc]
      exact ih.tail hlast

/-- A run whose labels are forgotten has some. -/
theorem LabelledRun.exists_of_run (h : Run (fun s t => ∃ a, step a s t) s t) :
    ∃ ls, LabelledRun step s ls t := by
  induction h with
  | refl => exact ⟨[], .refl⟩
  | tail _ hlast ih =>
      obtain ⟨ls, hrun⟩ := ih
      obtain ⟨a, hstep⟩ := hlast
      exact ⟨ls ++ [a], hrun.tail hstep⟩

end Labelled

end Andri.Lib

/-
  Andri.Lib.Inevitable

  Goals that every run meets.  `CanReach` says that some run gets there;
  `Inevitable` that no run goes on forever without, and that none stops short.  It is
  established by a well-founded rank that every step decreases, where short of
  the goal some step can be taken.
-/
import Andri.Lib.Transition

namespace Andri.Lib

variable {σ : Type*} {step : σ → σ → Prop} {goal I : σ → Prop} {s : σ}

/-- Every run meets the goal. -/
inductive Inevitable (step : σ → σ → Prop) (goal : σ → Prop) : σ → Prop
  | here {s : σ} (h : goal s) : Inevitable step goal s
  | later {s : σ} (hmove : ∃ t, step s t) (h : ∀ t, step s t → Inevitable step goal t) :
      Inevitable step goal s

/-- If below the goal there is a step, and every step keeps `I` and decreases a
    well-founded rank, every run meets the goal. -/
theorem inevitable_of_rank {α : Type*} {r : α → α → Prop} (wf : WellFounded r) (rank : σ → α)
    (hmove : ∀ s, I s → ¬ goal s → ∃ t, step s t)
    (hstep : ∀ s t, I s → step s t → I t ∧ r (rank t) (rank s)) (hs : I s) :
    Inevitable step goal s := by
  induction hrank : rank s using wf.induction generalizing s with
  | _ a ih =>
      by_cases hgoal : goal s
      · exact .here hgoal
      · refine .later (hmove s hs hgoal) fun t ht => ?_
        obtain ⟨hI, hlt⟩ := hstep s t hs ht
        exact ih (rank t) (hrank ▸ hlt) hI rfl

end Andri.Lib

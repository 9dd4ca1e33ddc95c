/-
  Andri.Lib.Simulation

  A concrete system that stands for an abstract one until it leaves it.  What every
  step of the concrete system is to the abstract one, every run of it is; what
  the abstract system can reach the concrete one can, if it realizes the
  abstract steps one by one.
-/
import Andri.Lib.Transition

namespace Andri.Lib

variable {σ τ : Type*}

/-- Every step of the concrete system is a run of the abstract one, or leaves it for
    good.  `R` relates the states, `I` is an invariant of the abstract system. -/
structure Simulates (step : σ → σ → Prop) (step' : τ → τ → Prop) (I : τ → Prop)
    (R : σ → τ → Prop) (off : σ → Prop) : Prop where
  moves : ∀ {s s' t}, I t → R s t → step s s' → (∃ t', Run step' t t' ∧ R s' t') ∨ off s'
  stays : ∀ {s s'}, off s → step s s' → off s'

/-- Every step of the abstract system is some run of the concrete one, or the
    concrete one can leave. -/
structure Realizes (step : σ → σ → Prop) (step' : τ → τ → Prop) (I : τ → Prop)
    (R : σ → τ → Prop) (off : σ → Prop) : Prop where
  moves : ∀ {s t t'}, I t → R s t → step' t t' → ∃ s', Run step s s' ∧ (R s' t' ∨ off s')

variable {step : σ → σ → Prop} {step' : τ → τ → Prop} {I : τ → Prop} {R : σ → τ → Prop}
  {off : σ → Prop} {s s' : σ} {t : τ}

/-- A run of the concrete system stands for one of the abstract system, or has left. -/
theorem Simulates.run (h : Simulates step step' I R off) (hI : ∀ t t', I t → step' t t' → I t')
    (hrun : Run step s s') (ht : I t) (hR : R s t) :
    (∃ t', Run step' t t' ∧ R s' t') ∨ off s' := by
  induction hrun with
  | refl => exact .inl ⟨t, .refl, hR⟩
  | tail _ hlast ih =>
      rcases ih with ⟨u, hrun', hR'⟩ | hoff
      · rcases h.moves (run_invariant hI hrun' ht) hR' hlast with ⟨u', hrun'', hR''⟩ | hoff
        · exact .inl ⟨u', hrun'.trans hrun'', hR''⟩
        · exact .inr hoff
      · exact .inr (h.stays hoff hlast)

/-- What the abstract system can reach, the concrete one can, unless it leaves. -/
theorem Realizes.canReach {goal : τ → Prop} (h : Realizes step step' I R off)
    (hI : ∀ t t', I t → step' t t' → I t') (hreach : CanReach step' goal t) (ht : I t)
    (hR : R s t) : CanReach step (fun s => (∃ t, R s t ∧ goal t) ∨ off s) s := by
  obtain ⟨u, hrun, hgoal⟩ := hreach
  induction hrun using Relation.ReflTransGen.head_induction_on generalizing s with
  | refl => exact .here (.inl ⟨u, hR, hgoal⟩)
  | head hfirst _ ih =>
      obtain ⟨s', hrun', hR' | hoff⟩ := h.moves ht hR hfirst
      · exact (ih (hI _ _ ht hfirst) hR').of_run hrun'
      · exact ⟨s', hrun', .inr hoff⟩

end Andri.Lib

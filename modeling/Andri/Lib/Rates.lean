/-
  Andri.Lib.Rates

  Rates shown for a running count.  A rate is true if it is the increase of the
  count since the rate shown before over the time since then; the first one is
  measured from the start.  Rates that weigh what their intervals hold add up,
  each times its interval, to the last count.
-/
import Mathlib.Algebra.Order.Field.Rat
import Mathlib.Data.List.Chain

namespace Andri.Lib

/-! ## Chains by their last link -/

theorem isChain_cons_append_singleton {α : Type*} {R : α → α → Prop} {a b : α} {l : List α} :
    (a :: (l ++ [b])).IsChain R ↔ (a :: l).IsChain R ∧ R (l.getLastD a) b := by
  induction l generalizing a with
  | nil => simp
  | cons c l ih =>
      rw [List.cons_append, List.isChain_cons_cons, ih, List.isChain_cons_cons, List.getLastD_cons,
        and_assoc]

/-! ## Marks -/

/-- A rate shown, with the time and the count it was shown at. -/
structure Mark where
  time : ℚ
  count : ℚ
  rate : ℚ

/-- Nothing counted and nothing shown. -/
def Mark.start : Mark := ⟨0, 0, 0⟩

/-- The rate shown is that of the interval since the mark before. -/
def Mark.RateSince (a b : Mark) : Prop := b.rate = (b.count - a.count) / (b.time - a.time)

/-- The rate times the interval is the increase. -/
def Mark.Weighs (a b : Mark) : Prop := b.rate * (b.time - a.time) = b.count - a.count

/-- The rates shown after `a`, each times its interval. -/
def weighted (a : Mark) : List Mark → ℚ
  | [] => 0
  | b :: ms => b.rate * (b.time - a.time) + weighted b ms

/-- The marks of a readout show true interval rates, so that they add up to what has
    been counted. -/
structure TrueRates (ms : List Mark) : Prop where
  rates : (Mark.start :: ms).IsChain Mark.RateSince
  weighted : weighted .start ms = (ms.getLastD .start).count

theorem weighted_eq_of_weighs {a : Mark} {ms : List Mark} (h : (a :: ms).IsChain Mark.Weighs) :
    weighted a ms = (ms.getLastD a).count - a.count := by
  induction ms generalizing a with
  | nil => exact (sub_self a.count).symm
  | cons b ms ih =>
      obtain ⟨hb, hms⟩ := List.isChain_cons_cons.mp h
      rw [Lib.weighted, hb, ih hms, List.getLastD_cons, sub_add_sub_cancel']

theorem trueRates_nil : TrueRates [] := ⟨List.isChain_singleton _, rfl⟩

theorem TrueRates.of_weighs {ms : List Mark} (hrates : (Mark.start :: ms).IsChain Mark.RateSince)
    (hweighs : (Mark.start :: ms).IsChain Mark.Weighs) : TrueRates ms where
  rates := hrates
  weighted := by
    rw [weighted_eq_of_weighs hweighs]
    exact sub_zero _

/-- A true rate over a positive interval weighs what the interval holds. -/
theorem Mark.RateSince.weighs {a b : Mark} (h : a.RateSince b) (hlt : a.time < b.time) :
    a.Weighs b := by
  rw [Weighs, h]
  exact div_mul_cancel₀ _ (sub_pos.mpr hlt).ne'

end Andri.Lib

/-
  Andri.Lib.Smoothing

  Exponential smoothing: every sample moves the state a fixed fraction of the
  way towards itself.  The state after a list of samples is their sum under
  weights that decay geometrically with age, so it stays between the bounds of
  the samples, and is zero for nonnegative samples only when all of them are.
-/
import Mathlib.Algebra.BigOperators.Fin
import Mathlib.Analysis.Convex.Basic
import Mathlib.Tactic.Ring

namespace Andri.Lib

section Closed

variable {K : Type*} [CommRing K]

/-- One sample `d` at gain `g`. -/
def smoothStep (g j d : K) : K := j + (d - j) * g

/-- The state after the samples `ds`, in order, from `j`. -/
def smoothed (g j : K) (ds : List K) : K := ds.foldl (smoothStep g) j

@[simp] theorem smoothed_nil (g j : K) : smoothed g j [] = j := rfl

@[simp] theorem smoothed_cons (g j d : K) (ds : List K) :
    smoothed g j (d :: ds) = smoothed g (smoothStep g j d) ds := rfl

/-- The step is the mean of the state and the sample, weighted by the gain. -/
theorem smoothStep_eq (g j d : K) : smoothStep g j d = (1 - g) * j + g * d := by
  simp only [smoothStep]
  ring

/-- A sample counts with the gain, and decays once for every sample after it. -/
theorem smoothed_eq_sum (g j : K) (ds : List K) :
    smoothed g j ds = (1 - g) ^ ds.length * j +
      ∑ k : Fin ds.length, g * (1 - g) ^ (ds.length - 1 - k) * ds.get k := by
  induction ds generalizing j with
  | nil => simp
  | cons d ds ih =>
      -- the exponents of the later samples count from the end
      have hterm : ∀ k : Fin ds.length,
          g * (1 - g) ^ ((d :: ds).length - 1 - (k.succ : ℕ)) * (d :: ds).get k.succ =
            g * (1 - g) ^ (ds.length - 1 - k) * ds.get k := by
        intro k
        have hexp : (d :: ds).length - 1 - (k.succ : ℕ) = ds.length - 1 - k := by
          rw [Fin.val_succ, List.length_cons]
          omega
        rw [hexp]
        rfl
      calc smoothed g j (d :: ds)
          = (1 - g) ^ ds.length * smoothStep g j d +
              ∑ k : Fin ds.length, g * (1 - g) ^ (ds.length - 1 - k) * ds.get k := ih _
        _ = (1 - g) ^ ds.length * smoothStep g j d +
              ∑ k : Fin ds.length,
                g * (1 - g) ^ ((d :: ds).length - 1 - (k.succ : ℕ)) * (d :: ds).get k.succ := by
            rw [Finset.sum_congr rfl fun k _ => hterm k]
        _ = (1 - g) ^ (d :: ds).length * j +
              (g * (1 - g) ^ ds.length * d +
                ∑ k : Fin ds.length,
                  g * (1 - g) ^ ((d :: ds).length - 1 - (k.succ : ℕ)) *
                    (d :: ds).get k.succ) := by
            simp only [smoothStep, List.length_cons]
            ring
        _ = _ := congrArg _ (Fin.sum_univ_succ fun k : Fin (ds.length + 1) =>
            g * (1 - g) ^ ((d :: ds).length - 1 - (k : ℕ)) * (d :: ds).get k).symm

end Closed

section Bounds

variable {K : Type*} [Field K] [LinearOrder K] [IsStrictOrderedRing K] {g j M : K} {ds : List K}

/-- The state stays in whatever convex set it and the samples come from. -/
theorem smoothed_mem {s : Set K} (hs : Convex K s) (h0 : 0 ≤ g) (h1 : g ≤ 1) (hj : j ∈ s)
    (hds : ∀ d ∈ ds, d ∈ s) : smoothed g j ds ∈ s := by
  induction ds generalizing j with
  | nil => exact hj
  | cons d ds ih =>
      have hd := hds d List.mem_cons_self
      apply ih _ fun x hx => hds x (List.mem_cons_of_mem d hx)
      rw [smoothStep_eq]
      exact hs hj hd (sub_nonneg.mpr h1) h0 (sub_add_cancel 1 g)

theorem le_smoothed (h0 : 0 ≤ g) (h1 : g ≤ 1) (hj : M ≤ j) (hds : ∀ d ∈ ds, M ≤ d) :
    M ≤ smoothed g j ds :=
  smoothed_mem (convex_Ici M) h0 h1 hj hds

theorem smoothed_le (h0 : 0 ≤ g) (h1 : g ≤ 1) (hj : j ≤ M) (hds : ∀ d ∈ ds, d ≤ M) :
    smoothed g j ds ≤ M :=
  smoothed_mem (convex_Iic M) h0 h1 hj hds

/-- With a proper gain nothing is forgotten altogether: the state is zero only
    if it started there and every sample was zero. -/
theorem smoothed_eq_zero_iff (h0 : 0 < g) (h1 : g < 1) (hj : 0 ≤ j) (hds : ∀ d ∈ ds, 0 ≤ d) :
    smoothed g j ds = 0 ↔ j = 0 ∧ ∀ d ∈ ds, d = 0 := by
  induction ds generalizing j with
  | nil => simp
  | cons d ds ih =>
      have hd := hds d List.mem_cons_self
      have hkeep : 0 ≤ (1 - g) * j := mul_nonneg (sub_nonneg.mpr h1.le) hj
      have hgain : 0 ≤ g * d := mul_nonneg h0.le hd
      have hstep : smoothStep g j d = 0 ↔ j = 0 ∧ d = 0 := by
        rw [smoothStep_eq, add_eq_zero_iff_of_nonneg hkeep hgain,
          mul_eq_zero_iff_left (sub_pos.mpr h1).ne', mul_eq_zero_iff_left h0.ne']
      rw [smoothed_cons, ih (smoothStep_eq g j d ▸ add_nonneg hkeep hgain)
        fun x hx => hds x (List.mem_cons_of_mem d hx), hstep, List.forall_mem_cons, and_assoc]

end Bounds

end Andri.Lib

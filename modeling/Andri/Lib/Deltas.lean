/-
  Andri.Lib.Deltas

  A series of readings of a running total, recorded as the increase since the
  reading before, a decrease as nothing.  The increases add up to at least the
  last reading, and to exactly that when no reading fell behind the one before.
-/
import Mathlib.Algebra.Order.BigOperators.Group.List
import Mathlib.Algebra.Order.Ring.Nat
import Mathlib.Data.List.Chain

namespace Andri.Lib

/-- The increases from `x` through the readings. -/
def deltas (x : ℕ) : List ℕ → List ℕ
  | [] => []
  | y :: ys => (y - x) :: deltas y ys

@[simp] theorem deltas_nil (x : ℕ) : deltas x [] = [] := rfl

@[simp] theorem deltas_cons (x y : ℕ) (ys : List ℕ) :
    deltas x (y :: ys) = (y - x) :: deltas y ys := rfl

@[simp] theorem length_deltas (x : ℕ) (ys : List ℕ) : (deltas x ys).length = ys.length := by
  induction ys generalizing x with
  | nil => rfl
  | cons y ys ih => rw [deltas_cons, List.length_cons, ih, List.length_cons]

/-- One more reading is compared with the last. -/
theorem deltas_append_singleton (x : ℕ) (ys : List ℕ) (z : ℕ) :
    deltas x (ys ++ [z]) = deltas x ys ++ [z - ys.getLastD x] := by
  induction ys generalizing x with
  | nil => rfl
  | cons y ys ih =>
      rw [List.cons_append, deltas_cons, ih, List.getLastD_cons, deltas_cons, List.cons_append]

/-- The increases up to a reading. -/
theorem take_deltas (x k : ℕ) (ys : List ℕ) : (deltas x ys).take k = deltas x (ys.take k) := by
  induction ys generalizing x k with
  | nil => simp
  | cons y ys ih =>
      cases k with
      | zero => rfl
      | succ k => rw [deltas_cons, List.take_succ_cons, ih, List.take_succ_cons, deltas_cons]

/-- An increase is at most the reading it leads to. -/
theorem forall_mem_deltas_lt {x b : ℕ} {ys : List ℕ} (h : ∀ y ∈ ys, y < b) :
    ∀ d ∈ deltas x ys, d < b := by
  induction ys generalizing x with
  | nil => simp
  | cons y ys ih =>
      have hy := h y List.mem_cons_self
      rw [deltas_cons, List.forall_mem_cons]
      exact ⟨by omega, ih fun z hz => h z (List.mem_cons_of_mem y hz)⟩

/-- Falling readings only ever add to the increases. -/
theorem getLastD_le_sum_deltas (x : ℕ) (ys : List ℕ) : ys.getLastD x ≤ x + (deltas x ys).sum := by
  induction ys generalizing x with
  | nil => simp
  | cons y ys ih =>
      have h := ih y
      rw [List.getLastD_cons, deltas_cons, List.sum_cons]
      omega

/-- The increases account for the last reading exactly when none fell. -/
theorem sum_deltas_eq_iff (x : ℕ) (ys : List ℕ) :
    x + (deltas x ys).sum = ys.getLastD x ↔ (x :: ys).IsChain (· ≤ ·) := by
  induction ys generalizing x with
  | nil => simp
  | cons y ys ih =>
      have hle := getLastD_le_sum_deltas y ys
      rw [List.getLastD_cons, deltas_cons, List.sum_cons, List.isChain_cons_cons, ← ih y]
      -- a fall from `x` to `y` leaves an excess that nothing later takes back
      omega

end Andri.Lib

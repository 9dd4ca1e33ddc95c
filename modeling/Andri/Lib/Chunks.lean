/-
  Andri.Lib.Chunks

  Cutting a list into chunks of exactly `n` elements from its beginning, with
  what is left over behind the last of them.
-/
import Mathlib.Data.List.Basic

namespace Andri.Lib

variable {α : Type} {n : ℕ} {l : List α}

/-- `chunks_exact`: the full chunks in order, and the remainder. -/
def chunksExact (n : ℕ) (l : List α) : List (List α) × List α :=
  ((List.range (l.length / n)).map fun k => (l.drop (n * k)).take n, l.drop (n * (l.length / n)))

theorem length_chunksExact (n : ℕ) (l : List α) : (chunksExact n l).1.length = l.length / n := by
  rw [chunksExact, List.length_map, List.length_range]

theorem length_remainder (n : ℕ) (l : List α) : (chunksExact n l).2.length = l.length % n := by
  have hsplit := Nat.div_add_mod l.length n
  rw [chunksExact, List.length_drop]
  omega

/-- Every chunk is full. -/
theorem length_of_mem_chunksExact {c : List α} (h : c ∈ (chunksExact n l).1) : c.length = n := by
  obtain ⟨k, hk, rfl⟩ := List.mem_map.mp h
  have hfull : n * (k + 1) ≤ l.length := calc
    n * (k + 1) ≤ n * (l.length / n) := Nat.mul_le_mul_left n (List.mem_range.mp hk)
    _ ≤ l.length := Nat.mul_div_le l.length n
  rw [Nat.mul_succ] at hfull
  rw [List.length_take, List.length_drop]
  omega

/-- The list has a remainder just when it does not divide evenly. -/
theorem isEmpty_remainder (n : ℕ) (l : List α) :
    (chunksExact n l).2.isEmpty = true ↔ l.length % n = 0 := by
  rw [List.isEmpty_iff_length_eq_zero, length_remainder]

end Andri.Lib

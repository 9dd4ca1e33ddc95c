/-
  Andri.Lib.Trim

  Trimming a list at both ends, and the white space a string is trimmed of.
-/
import Mathlib.Data.List.DropRight

namespace Andri.Lib

section Trim

variable {α : Type*} {p : α → Bool} {l l₁ l₂ : List α}

/-- Without the elements at either end that satisfy `p`. -/
def trimBy (p : α → Bool) (l : List α) : List α := (l.dropWhile p).rdropWhile p

/-- What is cut off satisfies `p`. -/
theorem exists_trimBy (p : α → Bool) (l : List α) :
    ∃ l₁ l₂, l = l₁ ++ (trimBy p l ++ l₂) ∧ (∀ a ∈ l₁, p a = true) ∧ ∀ a ∈ l₂, p a = true := by
  refine ⟨l.takeWhile p, (l.dropWhile p).rtakeWhile p, ?_, fun a ha => List.mem_takeWhile_imp ha,
    fun a ha => List.mem_rtakeWhile_imp ha⟩
  rw [trimBy, List.rdropWhile_append_rtakeWhile, List.takeWhile_append_dropWhile]

/-- What is left does not begin with it. -/
theorem not_of_trimBy_eq_cons {a : α} (h : trimBy p l = a :: l₁) : ¬ p a = true := by
  obtain ⟨l₂, hl₂⟩ := List.rdropWhile_prefix p (l.dropWhile p)
  rw [trimBy] at h
  rw [h, List.cons_append] at hl₂
  have hhead : p a = false := by
    have hnot := List.head?_dropWhile_not p l
    rw [← hl₂, List.head?_cons] at hnot
    exact hnot
  rw [hhead]
  exact Bool.false_ne_true

/-- A list none of whose elements satisfy `p` is left of itself and what does. -/
theorem trimBy_append (h₁ : ∀ a ∈ l₁, p a = false) (h₂ : ∀ a ∈ l₂, p a = true) (hne : l₁ ≠ []) :
    trimBy p (l₁ ++ l₂) = l₁ := by
  have hstart : (l₁ ++ l₂).dropWhile p = l₁ ++ l₂ := by
    obtain ⟨a, l, rfl⟩ := List.exists_cons_of_ne_nil hne
    have ha : ¬ p a = true := by
      rw [h₁ a List.mem_cons_self]
      exact Bool.false_ne_true
    rw [List.cons_append, List.dropWhile_cons_of_neg ha]
  have hend : l₁.rdropWhile p = l₁ := by
    rw [List.rdropWhile_eq_self_iff]
    intro hl
    rw [h₁ _ (List.getLast_mem hl)]
    exact Bool.false_ne_true
  rw [trimBy, hstart, List.rdropWhile, List.reverse_append,
    List.dropWhile_append_of_pos fun a ha => h₂ a (List.mem_reverse.mp ha)]
  exact hend

/-- Trimming leaves nothing to trim. -/
theorem trimBy_trimBy (p : α → Bool) (l : List α) : trimBy p (trimBy p l) = trimBy p l := by
  have hstart : (trimBy p l).dropWhile p = trimBy p l := by
    cases h : trimBy p l with
    | nil => rfl
    | cons a l' => rw [List.dropWhile_cons_of_neg (not_of_trimBy_eq_cons h)]
  rw [trimBy, hstart, trimBy, List.rdropWhile_idempotent]

end Trim

/-! ## White space -/

/-- The Unicode property `White_Space`. -/
def isWhitespace (c : Char) : Bool :=
  let n := c.toNat
  (9 ≤ n && n ≤ 13) || n == 0x20 || n == 0x85 || n == 0xA0 || n == 0x1680 ||
    (0x2000 ≤ n && n ≤ 0x200A) || n == 0x2028 || n == 0x2029 || n == 0x202F || n == 0x205F ||
    n == 0x3000

/-- None of it is printable ASCII. -/
theorem isWhitespace_eq_false {c : Char} (hlow : 33 ≤ c.toNat) (hhigh : c.toNat ≤ 126) :
    isWhitespace c = false := by
  rw [Bool.eq_false_iff]
  intro h
  simp only [isWhitespace, Bool.or_eq_true, Bool.and_eq_true, decide_eq_true_eq, beq_iff_eq] at h
  omega

end Andri.Lib

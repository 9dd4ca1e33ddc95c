/-
  Andri.Lib.Words

  Fixed-width words.  Rust's `u8` … `u64` are bit vectors: their arithmetic wraps,
  their order is unsigned.  `usize` is 64 bits wide, as on every target the
  release workflow builds.  The unsigned minimum and maximum have no
  instance on bit vectors, so they are defined here with their `toNat` reading.
  A cast to `i64` is the same word read in two's complement.
-/
import Mathlib.Algebra.GroupWithZero.Nat
import Mathlib.Algebra.Order.Group.Unbundled.Int
import Mathlib.Order.Lattice
import Mathlib.Order.MinMax

namespace Andri.Lib

abbrev Byte := BitVec 8
abbrev U16 := BitVec 16
abbrev U32 := BitVec 32
abbrev U64 := BitVec 64
abbrev Usize := BitVec 64

/-- The bytes of an ASCII text. -/
def ascii (s : String) : List Byte := s.toList.map fun c => BitVec.ofNat 8 c.toNat

variable {w : Nat}

/-- Unsigned minimum. -/
def umin (a b : BitVec w) : BitVec w := if a ≤ b then a else b

/-- Unsigned maximum. -/
def umax (a b : BitVec w) : BitVec w := if a ≤ b then b else a

@[simp] theorem toNat_umin (a b : BitVec w) : (umin a b).toNat = min a.toNat b.toNat := by
  unfold umin
  split <;> rename_i h <;> rw [BitVec.le_def] at h <;> omega

@[simp] theorem toNat_umax (a b : BitVec w) : (umax a b).toNat = max a.toNat b.toNat := by
  unfold umax
  split <;> rename_i h <;> rw [BitVec.le_def] at h <;> omega

/-- The exact sum, when it fits the word. -/
theorem toNat_add_eq_iff (a b : BitVec w) :
    (a + b).toNat = a.toNat + b.toNat ↔ a.toNat + b.toNat < 2 ^ w := by
  rw [BitVec.toNat_add, Nat.mod_eq_iff_lt (Nat.two_pow_pos w).ne']

/-- The exact product, when it fits the word. -/
theorem toNat_mul_eq_iff (a b : BitVec w) :
    (a * b).toNat = a.toNat * b.toNat ↔ a.toNat * b.toNat < 2 ^ w := by
  rw [BitVec.toNat_mul, Nat.mod_eq_iff_lt (Nat.two_pow_pos w).ne']

/-! ## Signed readings -/

/-- The range of `i64`. -/
theorem toInt_range (a : U64) : -2 ^ 63 ≤ a.toInt ∧ a.toInt < 2 ^ 63 := by
  have hlow := BitVec.le_two_mul_toInt (x := a)
  have hhigh := BitVec.two_mul_toInt_lt (x := a)
  omega

/-- The exact signed difference, when it fits the word. -/
theorem toInt_sub_eq_iff (a b : U64) :
    (a - b).toInt = a.toInt - b.toInt ↔
      -2 ^ 63 ≤ a.toInt - b.toInt ∧ a.toInt - b.toInt < 2 ^ 63 := by
  constructor
  · intro h
    rw [← h]
    exact toInt_range (a - b)
  · rintro ⟨hlow, hhigh⟩
    rw [BitVec.toInt_sub]
    exact Int.bmod_eq_of_le (by omega) (by omega)

/-- The exact absolute value: only the least word has none. -/
theorem toInt_abs_eq_iff (a : U64) : a.abs.toInt = |a.toInt| ↔ -2 ^ 63 < a.toInt := by
  have hmin : (BitVec.intMin 64).toInt = -2 ^ 63 := by decide
  by_cases ha : a = BitVec.intMin 64
  · subst ha
    rw [BitVec.abs_intMin, hmin]
    decide
  · have hne : a.toInt ≠ -2 ^ 63 := fun h => ha (BitVec.eq_of_toInt_eq (h.trans hmin.symm))
    have hlow := (toInt_range a).1
    rw [BitVec.toInt_abs_eq_natAbs_of_ne_intMin ha, Int.natCast_natAbs]
    exact ⟨fun _ => by omega, fun _ => rfl⟩

/-- Below `2 ^ 63` the signed reading is the unsigned one. -/
theorem toInt_of_lt {a : U64} (h : a.toNat < 2 ^ 63) : a.toInt = a.toNat :=
  BitVec.toInt_eq_toNat_of_lt (by omega)

end Andri.Lib

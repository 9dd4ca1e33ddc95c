/-
  Andri.Lib.Mixing

  Bit mixing on words: the xor-shift, multiplication by a unit and the Weyl sequence
  are injective, so what is composed of them never maps two words to one.
-/
import Mathlib.Data.BitVec

namespace Andri.Lib

variable {w : ℕ}

/-- A word xored with itself, shifted right by `k`. -/
def xorShift (k : ℕ) (z : BitVec w) : BitVec w := z ^^^ (z >>> k)

/-- A word that shifting does not change is zero. -/
theorem eq_zero_of_ushiftRight_eq {k : ℕ} (hk : 0 < k) {d : BitVec w} (h : d >>> k = d) :
    d = 0 := by
  apply BitVec.eq_of_toNat_eq
  have hdiv : d.toNat / 2 ^ k = d.toNat := by
    rw [← Nat.shiftRight_eq_div_pow, ← BitVec.toNat_ushiftRight, h]
  by_contra hne
  have hpos : 0 < d.toNat := Nat.pos_of_ne_zero hne
  exact (Nat.div_lt_self hpos (Nat.one_lt_two_pow hk.ne')).ne hdiv

theorem xorShift_injective {k : ℕ} (hk : 0 < k) :
    Function.Injective (xorShift k : BitVec w → BitVec w) := by
  intro x y h
  -- the difference of the two is its own shift
  have hdiff : (x ^^^ y) >>> k = x ^^^ y := by
    have hzero : (x ^^^ x >>> k) ^^^ (y ^^^ y >>> k) = 0#w := BitVec.xor_eq_zero_iff.mpr h
    rw [BitVec.ushiftRight_xor_distrib]
    apply BitVec.xor_eq_zero_iff.mp
    rw [← hzero]
    ac_rfl
  exact BitVec.xor_eq_zero_iff.mp (eq_zero_of_ushiftRight_eq hk hdiff)

/-- Multiplication by a word that has an inverse. -/
theorem mul_right_injective_of_inverse {m m' : BitVec w} (h : m * m' = 1) :
    Function.Injective (· * m) :=
  (IsUnit.of_mul_eq_one m' h).mul_left_injective

/-- Words below the modulus are told apart by their numbers. -/
theorem ofNat_inj_of_lt {i j : ℕ} (hi : i < 2 ^ w) (hj : j < 2 ^ w)
    (h : BitVec.ofNat w i = BitVec.ofNat w j) : i = j := by
  have hmod := congrArg BitVec.toNat h
  rwa [BitVec.toNat_ofNat, BitVec.toNat_ofNat, Nat.mod_eq_of_lt hi, Nat.mod_eq_of_lt hj] at hmod

/-- The Weyl sequence: the start and `k` increments. -/
def weyl (gamma start : BitVec w) (k : ℕ) : BitVec w := start + BitVec.ofNat w k * gamma

@[simp] theorem weyl_zero (gamma start : BitVec w) : weyl gamma start 0 = start := by
  simp [weyl]

theorem weyl_succ (gamma start : BitVec w) (k : ℕ) :
    weyl gamma start (k + 1) = weyl gamma start k + gamma := by
  have hone : BitVec.ofNat w 1 = 1 := rfl
  rw [weyl, weyl, BitVec.ofNat_add, add_mul, hone, one_mul, add_assoc]

/-- With an increment that has an inverse it visits every word before it returns. -/
theorem weyl_injOn {gamma gamma' : BitVec w} (h : gamma * gamma' = 1) (start : BitVec w)
    {i j : ℕ} (hi : i < 2 ^ w) (hj : j < 2 ^ w) (heq : weyl gamma start i = weyl gamma start j) :
    i = j :=
  ofNat_inj_of_lt hi hj (mul_right_injective_of_inverse h (add_left_cancel heq))

end Andri.Lib

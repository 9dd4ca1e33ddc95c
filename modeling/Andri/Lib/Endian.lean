/-
  Andri.Lib.Endian

  Little- and big-endian byte strings of a natural number.  `leBytes n v` is
  the `n`-byte little-endian writing of `v` (reduced modulo `256 ^ n`), and
  `leValue` reads a byte string back; the big-endian forms are their reverses.
  Reading what was written gives the residue, writing what was read gives the
  bytes.
-/
import Andri.Lib.Words
import Mathlib.Tactic.Ring

namespace Andri.Lib

/-- The `n` low bytes of `v`, least significant first. -/
def leBytes : Nat → Nat → List Byte
  | 0, _ => []
  | n + 1, v => BitVec.ofNat 8 v :: leBytes n (v / 256)

/-- The number a little-endian byte string denotes. -/
def leValue : List Byte → Nat
  | [] => 0
  | b :: bs => b.toNat + 256 * leValue bs

/-- The `n` low bytes of `v`, most significant first. -/
def beBytes (n v : Nat) : List Byte := (leBytes n v).reverse

/-- The number a big-endian byte string denotes. -/
def beValue (bs : List Byte) : Nat := leValue bs.reverse

/-! ## Lengths -/

@[simp] theorem leBytes_length (n v : Nat) : (leBytes n v).length = n := by
  induction n generalizing v with
  | zero => rfl
  | succ n ih => simp [leBytes, ih]

@[simp] theorem beBytes_length (n v : Nat) : (beBytes n v).length = n := by
  simp [beBytes]

theorem leValue_lt (bs : List Byte) : leValue bs < 256 ^ bs.length := by
  induction bs with
  | nil => decide
  | cons b bs ih =>
      have hb : b.toNat < 256 := b.isLt
      rw [leValue, List.length_cons, Nat.pow_succ]
      omega

/-- Byte `i` of a writing. -/
theorem getElem?_leBytes {n i : Nat} (v : Nat) (hi : i < n) :
    (leBytes n v)[i]? = some (BitVec.ofNat 8 (v / 256 ^ i)) := by
  induction n generalizing i v with
  | zero => omega
  | succ n ih =>
      cases i with
      | zero => simp [leBytes]
      | succ i =>
          have htail := ih (v / 256) (Nat.lt_of_succ_lt_succ hi)
          rw [leBytes, List.getElem?_cons_succ, htail, Nat.div_div_eq_div_mul, Nat.pow_succ']

/-! ## Reading back -/

theorem leValue_leBytes (n v : Nat) : leValue (leBytes n v) = v % 256 ^ n := by
  induction n generalizing v with
  | zero => simp [leBytes, leValue, Nat.mod_one]
  | succ n ih =>
      -- the low byte, and what the other bytes stand for
      have hsplit : v % 256 ^ (n + 1) = v % 256 + 256 * (v / 256 % 256 ^ n) := by
        rw [Nat.pow_succ, Nat.mul_comm, Nat.mod_mul]
      rw [leBytes, leValue, ih, hsplit, BitVec.toNat_ofNat]

theorem leBytes_leValue (bs : List Byte) : leBytes bs.length (leValue bs) = bs := by
  induction bs with
  | nil => rfl
  | cons b bs ih =>
      have hb : b.toNat < 256 := b.isLt
      -- the low byte comes apart from the rest
      have hdiv : (b.toNat + 256 * leValue bs) / 256 = leValue bs := by omega
      have hmod : BitVec.ofNat 8 (b.toNat + 256 * leValue bs) = b := by
        apply BitVec.eq_of_toNat_eq
        rw [BitVec.toNat_ofNat]
        omega
      rw [List.length_cons, leBytes, leValue, hdiv, hmod, ih]

theorem beValue_beBytes (n v : Nat) : beValue (beBytes n v) = v % 256 ^ n := by
  rw [beValue, beBytes, List.reverse_reverse, leValue_leBytes]

/-- Writing a value that fits the field and reading it back is lossless. -/
theorem beValue_beBytes_of_lt {n v : Nat} (h : v < 256 ^ n) : beValue (beBytes n v) = v := by
  rw [beValue_beBytes, Nat.mod_eq_of_lt h]

/-! ## 64-bit words -/

/-- Eight bytes hold a word. -/
theorem ofNat_leValue_leBytes (x : U64) : BitVec.ofNat 64 (leValue (leBytes 8 x.toNat)) = x := by
  have hx : x.toNat < 256 ^ 8 := x.isLt
  rw [leValue_leBytes, Nat.mod_eq_of_lt hx, BitVec.ofNat_toNat, BitVec.setWidth_eq]

theorem leBytes_ofNat_leValue {bs : List Byte} (h : bs.length = 8) :
    leBytes 8 (BitVec.ofNat 64 (leValue bs)).toNat = bs := by
  have hlt : leValue bs < 2 ^ 64 := by
    have hlt := leValue_lt bs
    rw [h] at hlt
    exact hlt
  rw [BitVec.toNat_ofNat, Nat.mod_eq_of_lt hlt, ← h, leBytes_leValue]

theorem leBytes_toNat_injective {x y : U64} (h : leBytes 8 x.toNat = leBytes 8 y.toNat) :
    x = y := by
  rw [← ofNat_leValue_leBytes x, h, ofNat_leValue_leBytes]

end Andri.Lib

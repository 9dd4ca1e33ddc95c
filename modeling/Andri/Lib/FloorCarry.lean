/-
  Andri.Lib.FloorCarry

  Emitting whole units at a fractional rate: each tick adds the rate to a
  carry, emits the integer part and keeps the fraction.  After `k` ticks the
  units emitted are the floor of `k` times the rate and the carry is the
  fraction left over, so nothing is lost or gained to rounding.
-/
import Mathlib.Algebra.Order.Floor.Semiring
import Mathlib.Tactic.Linarith
import Mathlib.Tactic.Ring

namespace Andri.Lib

variable {K : Type*} [CommRing K] [LinearOrder K] [IsStrictOrderedRing K] [FloorSemiring K]

/-- Units emitted so far and the fraction carried. -/
structure FloorCarry (K : Type*) where
  emitted : ℕ
  carry : K

/-- One tick at rate `r`. -/
def FloorCarry.tick (r : K) (s : FloorCarry K) : FloorCarry K where
  emitted := s.emitted + ⌊s.carry + r⌋₊
  carry := s.carry + r - ⌊s.carry + r⌋₊

/-- Where `x` units offered in total leave the accumulator. -/
def FloorCarry.offered (x : K) : FloorCarry K where
  emitted := ⌊x⌋₊
  carry := x - ⌊x⌋₊

/-- A tick offers `r` more. -/
theorem FloorCarry.tick_offered {r x : K} (hr : 0 ≤ r) (hx : 0 ≤ x) :
    (FloorCarry.offered x).tick r = FloorCarry.offered (x + r) := by
  have hcarry : (0 : K) ≤ x - ⌊x⌋₊ := sub_nonneg.mpr (Nat.floor_le hx)
  have hsplit : x + r = x - ⌊x⌋₊ + r + ⌊x⌋₊ := by ring
  -- the units already emitted come off the floor
  have hfloor : ⌊x + r⌋₊ = ⌊x⌋₊ + ⌊x - ⌊x⌋₊ + r⌋₊ := by
    rw [hsplit, Nat.floor_add_natCast (add_nonneg hcarry hr), Nat.add_comm]
  simp only [FloorCarry.tick, FloorCarry.offered, hfloor, Nat.cast_add, FloorCarry.mk.injEq,
    true_and]
  ring

/-- The carry stays a proper fraction. -/
theorem FloorCarry.carry_offered {x : K} (hx : 0 ≤ x) :
    0 ≤ (FloorCarry.offered x).carry ∧ (FloorCarry.offered x).carry < 1 := by
  refine ⟨sub_nonneg.mpr (Nat.floor_le hx), ?_⟩
  have h := Nat.lt_floor_add_one x
  simp only [FloorCarry.offered]
  exact sub_left_lt_of_lt_add h

/-- Between two totals, the units emitted are within one of the units offered. -/
theorem FloorCarry.abs_emitted_sub_lt {x y : K} (hx : 0 ≤ x) (hy : 0 ≤ y) :
    |(((FloorCarry.offered y).emitted : K) - (FloorCarry.offered x).emitted) - (y - x)| < 1 := by
  have hcx := FloorCarry.carry_offered hx
  have hcy := FloorCarry.carry_offered hy
  simp only [FloorCarry.offered] at hcx hcy ⊢
  -- the two carries are what separates the two differences
  rw [abs_lt]
  constructor <;> linarith [hcx.1, hcx.2, hcy.1, hcy.2]

/-- After `k` ticks from nothing, `k * r` has been offered. -/
theorem FloorCarry.iterate_tick {r : K} (hr : 0 ≤ r) (k : ℕ) :
    (FloorCarry.tick r)^[k] ⟨0, 0⟩ = FloorCarry.offered (k * r) := by
  induction k with
  | zero => simp [FloorCarry.offered]
  | succ k ih =>
      -- the last tick offers `r` more than the `k` before it
      rw [Function.iterate_succ_apply', ih,
        FloorCarry.tick_offered hr (mul_nonneg (Nat.cast_nonneg k) hr)]
      congr 1
      push_cast
      ring

end Andri.Lib

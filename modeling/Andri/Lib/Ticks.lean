/-
  Andri.Lib.Ticks

  The readings of a clock at the ticks of a ticker.  A tick may come late and several
  may then come at once, but none comes before it is due: reading `j` (from 0) is
  not before `j + 1` periods.  Readings come in order, so those up to a bound
  are the first ones, and no more than the bound has periods.  If no tick is late
  by a period or more, how many there are up to a bound is known.
-/
import Mathlib.Data.List.Basic
import Mathlib.Order.Nat

namespace Andri.Lib

/-- How many readings are within the bound. -/
def early (bound : ℕ) (ts : List ℕ) : ℕ := ts.countP (· ≤ bound)

/-- Readings in order. -/
structure Ticks (period : ℕ) (ts : List ℕ) : Prop where
  ordered : ts.Pairwise (· ≤ ·)
  due : ∀ j t, ts[j]? = some t → (j + 1) * period ≤ t

/-- No reading comes later than `delay` after its tick was due. -/
def Prompt (period delay : ℕ) (ts : List ℕ) : Prop :=
  ∀ j t, ts[j]? = some t → t ≤ (j + 1) * period + delay

variable {period delay bound n : ℕ} {ts : List ℕ}

theorem Ticks.nil (period : ℕ) : Ticks period [] where
  ordered := .nil
  due j t h := by simp at h

/-- The next reading. -/
theorem Ticks.snoc {now : ℕ} (h : Ticks period ts) (hnow : ∀ t ∈ ts, t ≤ now)
    (hdue : (ts.length + 1) * period ≤ now) : Ticks period (ts ++ [now]) where
  ordered := by
    rw [List.pairwise_append]
    refine ⟨h.ordered, List.pairwise_singleton _ _, fun t ht u hu => ?_⟩
    rw [List.mem_singleton.mp hu]
    exact hnow t ht
  due j t hj := by
    rcases Nat.lt_trichotomy j ts.length with hlt | rfl | hgt
    · rw [List.getElem?_append_left hlt] at hj
      exact h.due j t hj
    · rw [List.getElem?_concat_length] at hj
      cases hj
      exact hdue
    · rw [List.getElem?_eq_none (by simp; omega)] at hj
      cases hj

/-- The readings up to a bound are the first ones. -/
theorem early_iff (h : ts.Pairwise (· ≤ ·)) {j t : ℕ} (hj : ts[j]? = some t) :
    t ≤ bound ↔ j < early bound ts := by
  induction ts generalizing j with
  | nil => simp at hj
  | cons u ts ih =>
      obtain ⟨hhead, htail⟩ := List.pairwise_cons.mp h
      by_cases hu : u ≤ bound
      · have hcount : early bound (u :: ts) = early bound ts + 1 := by simp [early, hu]
        cases j with
        | zero =>
            cases hj
            exact ⟨fun _ => by omega, fun _ => hu⟩
        | succ j =>
            have hrest := ih htail (by simpa using hj)
            omega
      · -- past the bound all the others are too
        have hall : ∀ v ∈ u :: ts, ¬ v ≤ bound := by
          intro v hv
          rcases List.mem_cons.mp hv with rfl | hmem
          · exact hu
          · have hle := hhead v hmem
            omega
        have hcount : early bound (u :: ts) = 0 := by
          rw [early, List.countP_eq_zero]
          simpa using hall
        have ht := hall t (List.mem_of_getElem? hj)
        omega

theorem early_le_length (bound : ℕ) (ts : List ℕ) : early bound ts ≤ ts.length :=
  List.countP_le_length

/-- The last reading within a bound. -/
theorem Ticks.exists_early (h : Ticks period ts) (hpos : 0 < early bound ts) :
    ∃ t, ts[early bound ts - 1]? = some t ∧ t ≤ bound := by
  have hle := early_le_length bound ts
  have hlt : early bound ts - 1 < ts.length := by omega
  refine ⟨_, List.getElem?_eq_getElem hlt, ?_⟩
  rw [early_iff h.ordered (List.getElem?_eq_getElem hlt)]
  omega

/-- There are no more of them than the bound has periods. -/
theorem Ticks.early_mul_le (h : Ticks period ts) : early bound ts * period ≤ bound := by
  rcases Nat.eq_zero_or_pos (early bound ts) with hzero | hpos
  · rw [hzero, Nat.zero_mul]
    exact Nat.zero_le _
  · obtain ⟨t, ht, hle⟩ := h.exists_early hpos
    have hdue := h.due _ t ht
    rw [Nat.sub_add_cancel hpos] at hdue
    exact hdue.trans hle

/-- Within `n` periods and less than one more, there are at most `n` readings. -/
theorem Ticks.early_le (h : Ticks period ts) (hbound : bound < (n + 1) * period) :
    early bound ts ≤ n := by
  have hlt : early bound ts * period < (n + 1) * period := h.early_mul_le.trans_lt hbound
  exact Nat.le_of_lt_succ (Nat.lt_of_mul_lt_mul_right hlt)

/-- Prompt readings: the first `n` are within `n` periods and the delay, and no others. -/
theorem Ticks.early_eq (h : Ticks period ts) (hprompt : Prompt period delay ts)
    (hdelay : delay < period) : early (n * period + delay) ts = min n ts.length := by
  have hle := early_le_length (n * period + delay) ts
  have hfew : early (n * period + delay) ts ≤ n := by
    apply h.early_le
    rw [Nat.succ_mul]
    omega
  -- a reading among the first `n` is in time
  by_contra hne
  have hlt : early (n * period + delay) ts < min n ts.length := by omega
  have hget := List.getElem?_eq_getElem (l := ts) (i := early (n * period + delay) ts) (by omega)
  have hlate := hprompt _ _ hget
  have hin : ts[early (n * period + delay) ts] ≤ n * period + delay := by
    refine hlate.trans (Nat.add_le_add_right (Nat.mul_le_mul_right period ?_) delay)
    omega
  exact absurd ((early_iff h.ordered hget).mp hin) (lt_irrefl _)

/-- The last reading is the only one at or past the window. -/
def Ended (window : ℕ) (ts : List ℕ) : Prop :=
  ∃ before last, ts = before ++ [last] ∧ (∀ t ∈ before, t < window) ∧ window ≤ last

/-- Readings that end with a window of `n` periods are at most as many. -/
theorem Ticks.length_le_of_ended (h : Ticks period ts) (hended : Ended (n * period) ts) :
    ts.length ≤ max 1 n := by
  obtain ⟨before, last, rfl, hbefore, -⟩ := hended
  rw [List.length_append, List.length_singleton]
  by_cases hnil : before = []
  · subst hnil
    exact Nat.le_max_left 1 n
  · -- the one before the last is inside the window
    have hpos := List.length_pos_iff.mpr hnil
    have hlt : before.length - 1 < before.length := by omega
    have hget : (before ++ [last])[before.length - 1]? = some before[before.length - 1] := by
      rw [List.getElem?_append_left hlt, List.getElem?_eq_getElem hlt]
    have hdue := h.due _ _ hget
    have hin := hbefore _ (List.getElem_mem hlt)
    rw [Nat.sub_add_cancel hpos] at hdue
    have hfew := Nat.lt_of_mul_lt_mul_right (hdue.trans_lt hin)
    omega

/-- If they are prompt there are exactly as many. -/
theorem Ticks.length_of_ended (h : Ticks period ts) (hended : Ended (n * period) ts)
    (hprompt : Prompt period delay ts) (hdelay : delay < period) : ts.length = max 1 n := by
  have hle := h.length_le_of_ended hended
  obtain ⟨before, last, rfl, -, hlast⟩ := hended
  rw [List.length_append, List.length_singleton] at hle ⊢
  have hlate := hprompt before.length last (List.getElem?_concat_length ..)
  have hlt : n * period < (before.length + 2) * period := by
    rw [Nat.succ_mul (before.length + 1)]
    omega
  have hmany := Nat.lt_of_mul_lt_mul_right hlt
  omega

/-- What is done up to a bound and not after it, in order. -/
theorem map_ite_eq_replicate {α : Type*} (bound : ℕ) (h : ts.Pairwise (· ≤ ·)) (a b : α) :
    (ts.map fun t => if t ≤ bound then a else b) =
      List.replicate (early bound ts) a ++ List.replicate (ts.length - early bound ts) b := by
  have hle := early_le_length bound ts
  apply List.ext_getElem?
  intro j
  rw [List.getElem?_map]
  by_cases hj : j < ts.length
  · have hget := List.getElem?_eq_getElem hj
    have hiff : ts[j] ≤ bound ↔ j < early bound ts := early_iff h hget
    rw [hget, Option.map_some]
    by_cases hin : j < early bound ts
    · rw [if_pos (hiff.mpr hin), List.getElem?_append_left (by simpa using hin)]
      simp [hin]
    · rw [if_neg (fun hle => hin (hiff.mp hle)), List.getElem?_append_right (by simp; omega)]
      rw [List.length_replicate, List.getElem?_replicate, if_pos (by omega)]
  · rw [List.getElem?_eq_none (by omega), List.getElem?_eq_none (by simp; omega)]
    rfl

end Andri.Lib

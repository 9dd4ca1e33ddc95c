/-
  Andri.Lib.Counters

  Counters that some tasks add to while others read them, one counter at a time.
  A trace lists the adds and the loads in the order they took effect; a load
  by a reader returns what was added to its counter before it.

  `SummedTo` describes a reader that sums the counters in order and is `k` of them
  along.  It is carried over any event but the reader's next load, so a sum
  taken over all counters is the total of what came before the single loads,
  wherever the loads of two readers and the adds fall between each other.
-/
import Mathlib.Algebra.BigOperators.Group.Finset.Basic
import Mathlib.Algebra.Order.BigOperators.Group.Finset
import Mathlib.Data.Finset.Range

namespace Andri.Lib

/-- One access to the counters. -/
inductive Event (ρ : Type*)
  | add (i n : ℕ)
  | load (r : ρ) (i : ℕ)

variable {ρ : Type*}

/-- What the trace adds to counter `i`. -/
def added (i : ℕ) : List (Event ρ) → ℕ
  | [] => 0
  | .add j n :: tr => (if j = i then n else 0) + added i tr
  | .load _ _ :: tr => added i tr

variable [DecidableEq ρ]

/-- What the trace adds to counter `i` before reader `r` loads it. -/
def addedBefore (r : ρ) (i : ℕ) : List (Event ρ) → ℕ
  | [] => 0
  | .add j n :: tr => (if j = i then n else 0) + addedBefore r i tr
  | .load r' j :: tr => if r' = r ∧ j = i then 0 else addedBefore r i tr

/-- What the trace adds to counter `i` after reader `r` has loaded it and before
    reader `r'` has. -/
def addedBetween (r r' : ρ) (i : ℕ) : List (Event ρ) → ℕ
  | [] => 0
  | .add _ _ :: tr => addedBetween r r' i tr
  | .load q j :: tr =>
      if q = r ∧ j = i then addedBefore r' i tr
      else if q = r' ∧ j = i then 0
      else addedBetween r r' i tr

/-- Reader `r` loads counter `i`, and `r'` has not loaded it before. -/
def LoadsFirst (r r' : ρ) (i : ℕ) (tr : List (Event ρ)) : Prop :=
  ∃ before after, tr = before ++ .load r i :: after ∧ Event.load r' i ∉ before

section Added

variable (i : ℕ) (tr us : List (Event ρ)) (r r' : ρ)

omit [DecidableEq ρ] in
theorem added_append : added i (tr ++ us) = added i tr + added i us := by
  induction tr with
  | nil => simp [added]
  | cons e tr ih =>
      cases e with
      | add j n => simp only [List.cons_append, added, ih, Nat.add_assoc]
      | load q j => exact ih

theorem addedBefore_le_added : addedBefore r i tr ≤ added i tr := by
  induction tr with
  | nil => exact le_rfl
  | cons e tr ih =>
      cases e with
      | add j n => exact Nat.add_le_add_left ih _
      | load q j =>
          simp only [addedBefore, added]
          split_ifs
          · exact Nat.zero_le _
          · exact ih

variable {i tr us r r'}

/-- Before the load, an extension of the trace counts from its start. -/
theorem addedBefore_append_of_notMem (h : Event.load r i ∉ tr) :
    addedBefore r i (tr ++ us) = added i tr + addedBefore r i us := by
  induction tr with
  | nil => simp [added]
  | cons e tr ih =>
      have htail := ih fun hmem => h (List.mem_cons_of_mem e hmem)
      cases e with
      | add j n => simp only [List.cons_append, addedBefore, added, htail, Nat.add_assoc]
      | load q j =>
          have hne : ¬ (q = r ∧ j = i) := by
            rintro ⟨rfl, rfl⟩
            exact h List.mem_cons_self
          simp only [List.cons_append, addedBefore, added, if_neg hne, htail]

/-- After the load, nothing more counts. -/
theorem addedBefore_append_of_mem (h : Event.load r i ∈ tr) :
    addedBefore r i (tr ++ us) = addedBefore r i tr := by
  induction tr with
  | nil => simp at h
  | cons e tr ih =>
      cases e with
      | add j n =>
          have htail : Event.load r i ∈ tr := by simpa using h
          simp only [List.cons_append, addedBefore, ih htail]
      | load q j =>
          simp only [List.cons_append, addedBefore]
          split_ifs with hq
          · rfl
          · refine ih ?_
            rcases List.mem_cons.mp h with heq | hmem
            · cases heq
              exact absurd ⟨rfl, rfl⟩ hq
            · exact hmem

/-- The reader that loads first has seen no more. -/
theorem addedBefore_le_of_loadsFirst (h : LoadsFirst r r' i tr) :
    addedBefore r i tr ≤ addedBefore r' i tr := by
  obtain ⟨before, after, rfl, hnot⟩ := h
  calc addedBefore r i (before ++ .load r i :: after)
      = addedBefore r i (before ++ [.load r i] ++ after) := by rw [List.append_assoc]; rfl
    _ = addedBefore r i (before ++ [.load r i]) :=
        addedBefore_append_of_mem (List.mem_append_right _ List.mem_cons_self)
    _ ≤ added i (before ++ [.load r i]) := addedBefore_le_added i _ r
    _ = added i before := by rw [added_append]; rfl
    _ ≤ addedBefore r' i (before ++ .load r i :: after) := by
        rw [addedBefore_append_of_notMem hnot]
        exact Nat.le_add_right _ _

/-- What falls between the loads is what the later reader saw and the earlier did
    not; nothing, when the loads are the other way round. -/
theorem addedBetween_eq (hne : r ≠ r') :
    addedBetween r r' i tr = addedBefore r' i tr - addedBefore r i tr := by
  induction tr with
  | nil => rfl
  | cons e tr ih =>
      cases e with
      | add j n =>
          simp only [addedBetween, addedBefore, ih]
          omega
      | load q j =>
          by_cases hr : q = r ∧ j = i
          · obtain ⟨rfl, rfl⟩ := hr
            simp [addedBetween, addedBefore, hne]
          · by_cases hr' : q = r' ∧ j = i
            · simp only [addedBetween, addedBefore, if_neg hr, if_pos hr', Nat.zero_sub]
            · simp only [addedBetween, addedBefore, if_neg hr, if_neg hr', ih]

end Added

/-! ## Stretches of loads -/

/-- The events are loads, by readers of `p` only. -/
def LoadsBy (p : ρ → Prop) (us : List (Event ρ)) : Prop :=
  ∀ e ∈ us, ∃ r i, p r ∧ e = .load r i

section LoadsBy

omit [DecidableEq ρ]

variable {p : ρ → Prop} {tr us : List (Event ρ)}

theorem LoadsBy.nil : LoadsBy p [] := fun _ he => absurd he List.not_mem_nil

/-- No other reader loads. -/
theorem LoadsBy.notMem {r : ρ} (h : LoadsBy p us) (hr : ¬ p r) (i : ℕ) : Event.load r i ∉ us := by
  intro hmem
  obtain ⟨r', j, hr', heq⟩ := h _ hmem
  cases heq
  exact hr hr'

/-- Loads leave the totals as they are. -/
theorem LoadsBy.added_append (h : LoadsBy p us) (i : ℕ) : added i (tr ++ us) = added i tr := by
  have hzero : added i us = 0 := by
    induction us with
    | nil => rfl
    | cons e us ih =>
        obtain ⟨r, j, -, rfl⟩ := h e List.mem_cons_self
        exact ih fun e' he' => h e' (List.mem_cons_of_mem _ he')
  rw [Lib.added_append, hzero, Nat.add_zero]

end LoadsBy

/-! ## Sums over the counters -/

/-- Totals over the first `n` counters. -/
def addedUpTo (n : ℕ) (tr : List (Event ρ)) : ℕ := ∑ i ∈ Finset.range n, added i tr

/-- What reader `r` sees of the first `n` counters. -/
def seenUpTo (r : ρ) (n : ℕ) (tr : List (Event ρ)) : ℕ := ∑ i ∈ Finset.range n, addedBefore r i tr

/-- What falls between the loads of `r` and of `r'`, over the first `n` counters. -/
def betweenUpTo (r r' : ρ) (n : ℕ) (tr : List (Event ρ)) : ℕ :=
  ∑ i ∈ Finset.range n, addedBetween r r' i tr

theorem seenUpTo_le_addedUpTo (r : ρ) (n : ℕ) (tr : List (Event ρ)) :
    seenUpTo r n tr ≤ addedUpTo n tr :=
  Finset.sum_le_sum fun i _ => addedBefore_le_added i tr r

section Between

variable {r r' : ρ} {n : ℕ} {tr : List (Event ρ)}

/-- With every counter loaded by `r` first, the difference of the two sums is what
    falls between the loads. -/
theorem seenUpTo_sub_eq (hne : r ≠ r') (h : ∀ i < n, LoadsFirst r r' i tr) :
    seenUpTo r' n tr - seenUpTo r n tr = betweenUpTo r r' n tr := by
  have hle : ∀ i ∈ Finset.range n, addedBefore r i tr ≤ addedBefore r' i tr :=
    fun i hi => addedBefore_le_of_loadsFirst (h i (Finset.mem_range.mp hi))
  rw [seenUpTo, seenUpTo, ← Finset.sum_tsub_distrib _ hle]
  exact Finset.sum_congr rfl fun i _ => (addedBetween_eq hne).symm

/-- With every counter loaded by `r` first, it has seen no more. -/
theorem seenUpTo_le (h : ∀ i < n, LoadsFirst r r' i tr) : seenUpTo r n tr ≤ seenUpTo r' n tr :=
  Finset.sum_le_sum fun i hi => addedBefore_le_of_loadsFirst (h i (Finset.mem_range.mp hi))

/-- In any order of the loads, the difference of the sums never exceeds what falls
    between them: a counter loaded the other way round can only take away. -/
theorem seenUpTo_sub_le (hne : r ≠ r') :
    seenUpTo r' n tr - seenUpTo r n tr ≤ betweenUpTo r r' n tr := by
  have hsum : seenUpTo r' n tr ≤ seenUpTo r n tr + betweenUpTo r r' n tr := by
    rw [seenUpTo, seenUpTo, betweenUpTo, ← Finset.sum_add_distrib]
    apply Finset.sum_le_sum
    intro i _
    rw [addedBetween_eq hne]
    omega
  omega

/-- What either has seen and what falls between its loads and the other's is what the two
    have seen together. -/
theorem seenUpTo_add_between (hne : r ≠ r') :
    seenUpTo r n tr + betweenUpTo r r' n tr = seenUpTo r' n tr + betweenUpTo r' r n tr := by
  rw [seenUpTo, seenUpTo, betweenUpTo, betweenUpTo, ← Finset.sum_add_distrib,
    ← Finset.sum_add_distrib]
  apply Finset.sum_congr rfl
  intro i _
  rw [addedBetween_eq hne, addedBetween_eq hne.symm]
  omega

end Between

/-- Reader `r` has loaded the first `k` counters and holds their sum. -/
structure SummedTo (r : ρ) (k sum : ℕ) (tr : List (Event ρ)) : Prop where
  loaded : ∀ i, Event.load r i ∈ tr ↔ i < k
  sum_eq : sum = seenUpTo r k tr

section SummedTo

variable {r : ρ} {k sum : ℕ} {tr us : List (Event ρ)}

/-- What a reader has seen of the counters it has loaded stays what it is. -/
theorem SummedTo.seenUpTo_append {n : ℕ} (h : SummedTo r n sum tr) (hk : k ≤ n) :
    seenUpTo r k (tr ++ us) = seenUpTo r k tr := by
  apply Finset.sum_congr rfl
  intro i hi
  have hi' : i < n := (Finset.mem_range.mp hi).trans_le hk
  exact addedBefore_append_of_mem ((h.loaded i).mpr hi')

/-- A reader that has not started. -/
theorem SummedTo.zero (h : ∀ i, Event.load r i ∉ tr) : SummedTo r 0 0 tr where
  loaded i := by simp [h i]
  sum_eq := rfl

/-- What others do to the counters does not change the sum. -/
theorem SummedTo.append (h : SummedTo r k sum tr) (hus : ∀ i, Event.load r i ∉ us) :
    SummedTo r k sum (tr ++ us) where
  loaded i := by simp [h.loaded i, hus i]
  sum_eq := by rw [h.sum_eq, h.seenUpTo_append le_rfl]

/-- The next load adds what the counter holds. -/
theorem SummedTo.load (h : SummedTo r k sum tr) :
    SummedTo r (k + 1) (sum + added k tr) (tr ++ [.load r k]) where
  loaded i := by
    rw [List.mem_append, h.loaded i, List.mem_singleton, Event.load.injEq]
    simp only [true_and]
    omega
  sum_eq := by
    have hnew : Event.load r k ∉ tr := fun hmem => absurd ((h.loaded k).mp hmem) (lt_irrefl k)
    have hlast : addedBefore r k (tr ++ [.load r k]) = added k tr := by
      rw [addedBefore_append_of_notMem hnew]
      simp [addedBefore]
    rw [seenUpTo, Finset.sum_range_succ, ← seenUpTo, h.seenUpTo_append le_rfl, hlast, ← h.sum_eq]

end SummedTo

end Andri.Lib

/-
  Andri.Lib.Span

  The span of a finite sequence of points of a linear order, and the points of
  the span the sequence misses.  Order of arrival and multiplicity do not
  matter to either; the counting results say how the length of the sequence,
  which does see multiplicity, relates to them.
-/
import Mathlib.Data.Finset.Max
import Mathlib.Data.Set.Card
import Mathlib.Order.Interval.Finset.Nat
import Mathlib.Order.Bounds.Basic

namespace Andri.Lib

section Span

variable {α : Type*} [LinearOrder α]

/-- The points between two elements of the list. -/
def hull (l : List α) : Set α := {s | (∃ a ∈ l, a ≤ s) ∧ ∃ b ∈ l, s ≤ b}

/-- The points of the span that are not in the list. -/
def gaps (l : List α) : Set α := {s | s ∈ hull l ∧ s ∉ l}

theorem mem_hull_of_mem {l : List α} {s : α} (h : s ∈ l) : s ∈ hull l :=
  ⟨⟨s, h, le_refl s⟩, ⟨s, h, le_refl s⟩⟩

@[simp] theorem hull_nil : hull ([] : List α) = ∅ := by
  simp [hull]

/-- With the extremes known, the span is an interval. -/
theorem hull_eq_Icc {l : List α} {a b : α} (ha : IsLeast {s | s ∈ l} a)
    (hb : IsGreatest {s | s ∈ l} b) : hull l = Set.Icc a b := by
  ext s
  constructor
  · rintro ⟨⟨x, hx, hxs⟩, y, hy, hsy⟩
    exact ⟨le_trans (ha.2 hx) hxs, le_trans hsy (hb.2 hy)⟩
  · rintro ⟨has, hsb⟩
    exact ⟨⟨a, ha.1, has⟩, b, hb.1, hsb⟩

/-- The span is the list's points and the gaps. -/
theorem hull_eq_union (l : List α) : hull l = {s | s ∈ l} ∪ gaps l := by
  ext s
  simp only [gaps, Set.mem_union, Set.mem_ofPred_eq]
  constructor
  · intro h
    by_cases hs : s ∈ l
    · exact .inl hs
    · exact .inr ⟨h, hs⟩
  · rintro (h | h)
    · exact mem_hull_of_mem h
    · exact h.1

variable [LocallyFiniteOrder α]

theorem hull_finite (l : List α) : (hull l).Finite := by
  rcases l.eq_nil_or_concat with rfl | ⟨xs, x, hl⟩
  · simp
  · have hne : l.toFinset.Nonempty := ⟨x, by simp [hl]⟩
    -- the extremes of the list bound its span
    apply (Set.finite_Icc (l.toFinset.min' hne) (l.toFinset.max' hne)).subset
    rintro s ⟨⟨a, ha, has⟩, b, hb, hsb⟩
    exact ⟨le_trans (l.toFinset.min'_le a (by simpa using ha)) has,
      le_trans hsb (l.toFinset.le_max' b (by simpa using hb))⟩

theorem gaps_finite (l : List α) : (gaps l).Finite :=
  (hull_finite l).subset fun _ h => h.1

/-- The distinct points and the gaps make up the span. -/
theorem card_add_ncard_gaps (l : List α) :
    l.toFinset.card + (gaps l).ncard = (hull l).ncard := by
  have hdisj : Disjoint {s | s ∈ l} (gaps l) := by
    rw [Set.disjoint_left]
    intro s hs hg
    exact hg.2 hs
  have hcoe : ({s | s ∈ l} : Set α) = ↑l.toFinset := by
    ext s
    simp
  rw [hull_eq_union, Set.ncard_union_eq hdisj (hcoe ▸ Finset.finite_toSet _) (gaps_finite l), hcoe,
    Set.ncard_coe_finset]

/-- Without repetitions, length and gaps make up the span. -/
theorem length_add_ncard_gaps {l : List α} (h : l.Nodup) :
    l.length + (gaps l).ncard = (hull l).ncard := by
  rw [← List.toFinset_card_of_nodup h, card_add_ncard_gaps]

/-- Span minus length counts the gaps exactly when no repetition stands in for
    a missing point: there is no repetition, or nothing is missing. -/
theorem ncard_hull_sub_length_eq_iff (l : List α) :
    (hull l).ncard - l.length = (gaps l).ncard ↔ l.Nodup ∨ gaps l = ∅ := by
  have hsum := card_add_ncard_gaps l
  have hle := List.toFinset_card_le l
  constructor
  · intro h
    -- with something missing, equality makes every arrival a point of its own
    by_cases hg : (gaps l).ncard = 0
    · exact .inr ((Set.ncard_eq_zero (gaps_finite l)).mp hg)
    · have hcard : (l : Multiset α).toFinset.card = (l : Multiset α).card := by
        show l.toFinset.card = l.length
        omega
      exact .inl (Multiset.coe_nodup.mp (Multiset.toFinset_card_eq_card_iff_nodup.mp hcard))
  · rintro (h | h)
    · have := length_add_ncard_gaps h
      omega
    · rw [h, Set.ncard_empty] at hsum ⊢
      omega

end Span

/-! ## Sequence numbers -/

/-- The size of a span of naturals, from its extremes. -/
theorem ncard_hull_nat {l : List ℕ} {a b : ℕ} (ha : IsLeast {s | s ∈ l} a)
    (hb : IsGreatest {s | s ∈ l} b) : (hull l).ncard = b + 1 - a := by
  rw [hull_eq_Icc ha hb, ← Finset.coe_Icc, Set.ncard_coe_finset, Nat.card_Icc]

/-- Points of `[lo, hi)` span at most all of it. -/
theorem ncard_hull_le_width {l : List ℕ} {lo hi : ℕ} (hl : ∀ s ∈ l, lo ≤ s ∧ s < hi) :
    (hull l).ncard ≤ hi - lo := by
  have hsub : hull l ⊆ ↑(Finset.Ico lo hi) := by
    rintro s ⟨⟨a, ha, has⟩, b, hb, hsb⟩
    have := hl a ha
    have := hl b hb
    simp only [Finset.coe_Ico, Set.mem_Ico]
    omega
  have hcard := Set.ncard_le_ncard hsub (Finset.finite_toSet _)
  rwa [Set.ncard_coe_finset, Nat.card_Ico] at hcard

/-- Points of `[lo, hi)` span all of it exactly when both ends are among them. -/
theorem ncard_hull_eq_width_iff {l : List ℕ} {lo hi : ℕ} (hl : ∀ s ∈ l, lo ≤ s ∧ s < hi) :
    (hull l).ncard = hi - lo ↔ hi ≤ lo ∨ (lo ∈ l ∧ hi - 1 ∈ l) := by
  rcases l.eq_nil_or_concat with rfl | ⟨xs, x, hx⟩
  · simp
    omega
  · have hne : l.toFinset.Nonempty := ⟨x, by simp [hx]⟩
    have ha : IsLeast {s | s ∈ l} (l.toFinset.min' hne) := by
      simpa using l.toFinset.isLeast_min' hne
    have hb : IsGreatest {s | s ∈ l} (l.toFinset.max' hne) := by
      simpa using l.toFinset.isGreatest_max' hne
    -- from here on only that they are the extremes matters
    generalize l.toFinset.min' hne = a at ha
    generalize l.toFinset.max' hne = b at hb
    have hal := hl a ha.1
    have hbl := hl b hb.1
    have hab : a ≤ b := ha.2 hb.1
    rw [ncard_hull_nat ha hb]
    constructor
    · intro h
      have hlo : a = lo := by omega
      have hhi : b = hi - 1 := by omega
      exact .inr ⟨hlo ▸ ha.1, hhi ▸ hb.1⟩
    · rintro (h | ⟨hlo, hhi⟩)
      · omega
      · have := ha.2 hlo
        have := hb.2 hhi
        omega

end Andri.Lib

/-
  Andri.Udp.Loss

  What the loss figures of `LossJitter` count.  `window W ds` lists the in-window
  sequence numbers of an arrival sequence; the invariant `Describes` says how
  the accumulator's count, minimum and maximum stand to it, one `observe` at a
  time, and the run lemma carries it over any arrival sequence.

  From it: `packets_expected` is the span of the window, and `packets_lost` the
  number of its gaps exactly when no repeated sequence number stands in for a
  missing one.  Against the sender's count, received and lost make up all the
  datagrams sent exactly when the first and last in-window ones arrived.
-/
import Andri.Lib.Span
import Andri.Udp.LossJitter

namespace Andri.Udp

open Lib LossJitter

/-- The in-window sequence numbers, in arrival order. -/
def window (W : U64) (ds : List Datagram) : List ℕ :=
  (ds.filter fun d => W ≤ d.seq).map fun d => d.seq.toNat

theorem mem_window {W : U64} {ds : List Datagram} {s : ℕ} :
    s ∈ window W ds ↔ ∃ d ∈ ds, W ≤ d.seq ∧ d.seq.toNat = s := by
  simp [window, and_assoc]

/-- A duplicate-free arrival sequence has a duplicate-free window. -/
theorem window_nodup {W : U64} {ds : List Datagram} (h : (ds.map Datagram.seq).Nodup) :
    (window W ds).Nodup := by
  have hsub : window W ds = ((ds.filter fun d => W ≤ d.seq).map Datagram.seq).map BitVec.toNat := by
    simp [window]
  rw [hsub]
  exact (h.sublist (List.filter_sublist.map _)).map fun _ _ => BitVec.eq_of_toNat_eq

/-! ## The accumulator describes the window -/

/-- The count and the extremes are those of the sequence numbers seen so far. -/
structure Describes (acc : LossJitter) (seen : List ℕ) : Prop where
  received : acc.received = seen.length
  none_iff : acc.minSeq = none ↔ seen = []
  least : ∀ m, acc.minSeq = some m → IsLeast {s | s ∈ seen} m.toNat
  greatest : seen ≠ [] → IsGreatest {s | s ∈ seen} acc.maxSeq.toNat
  maxSeq_zero : seen = [] → acc.maxSeq = 0

theorem describes_new (W : U64) : Describes (new W) [] where
  received := rfl
  none_iff := by simp [new]
  least := by simp [new]
  greatest h := absurd rfl h
  maxSeq_zero _ := rfl

private theorem mem_concat_eq_insert (seen : List ℕ) (s : ℕ) :
    {x | x ∈ seen ++ [s]} = insert s {x | x ∈ seen} := by
  ext x
  simp [or_comm]

/-- One in-window datagram extends the description by its sequence number. -/
theorem Describes.observe {acc : LossJitter} {seen : List ℕ} (h : Describes acc seen)
    {d : Datagram} (hd : acc.warmupPackets ≤ d.seq) :
    Describes (acc.observe d) (seen ++ [d.seq.toNat]) := by
  obtain ⟨-, hrec, hmin, hmax⟩ := observe_of_le acc d hd
  refine ⟨by simp [hrec, h.received], by simp [hmin], ?_, ?_, by simp⟩
  · intro m hm
    rw [hmin] at hm
    cases hm
    rw [mem_concat_eq_insert]
    -- the first datagram is the minimum, a later one is compared with it
    cases hprev : acc.minSeq with
    | none =>
        rw [h.none_iff.mp hprev]
        simp
    | some m =>
        rw [toNat_umin, min_comm]
        exact (h.least m hprev).insert _
  · intro _
    rw [hmax, toNat_umax, max_comm, mem_concat_eq_insert]
    -- the maximum starts at 0, below every sequence number
    by_cases hseen : seen = []
    · rw [hseen, h.maxSeq_zero hseen]
      simp
    · exact (h.greatest hseen).insert _

/-- The description holds along the in-window datagrams. -/
theorem Describes.foldl {acc : LossJitter} {seen : List ℕ} {ds : List Datagram}
    (h : Describes acc seen) (hds : ∀ d ∈ ds, acc.warmupPackets ≤ d.seq) :
    Describes (ds.foldl LossJitter.observe acc) (seen ++ ds.map fun d => d.seq.toNat) := by
  induction ds generalizing acc seen with
  | nil => simpa using h
  | cons d ds ih =>
      have hstep := ih (h.observe (hds d List.mem_cons_self)) fun x hx => by
        rw [observe_warmupPackets]
        exact hds x (List.mem_cons_of_mem d hx)
      rwa [List.append_assoc] at hstep

theorem observeAll_describes (W : U64) (ds : List Datagram) :
    Describes (observeAll W ds) (window W ds) := by
  have hin : ∀ d ∈ inWindow W ds, (new W).warmupPackets ≤ d.seq :=
    fun d hd => (mem_inWindow.mp hd).2
  rw [observeAll_inWindow]
  exact (describes_new W).foldl hin

/-- The reported span, as long as it fits its word. -/
theorem Describes.toNat_expected {acc : LossJitter} {seen : List ℕ} (h : Describes acc seen)
    (hspan : (hull seen).ncard < 2 ^ 64) : acc.expected.toNat = (hull seen).ncard := by
  unfold expected
  cases hmin : acc.minSeq with
  | none => simp [h.none_iff.mp hmin]
  | some m =>
      have hne : seen ≠ [] := fun he => by simp [h.none_iff.mpr he] at hmin
      have hle : m.toNat ≤ acc.maxSeq.toNat := (h.least m hmin).2 (h.greatest hne).1
      rw [ncard_hull_nat (h.least m hmin) (h.greatest hne)] at hspan ⊢
      -- neither the difference nor the one added wraps
      have hmax := acc.maxSeq.isLt
      have hone : (1 : U64).toNat = 1 := rfl
      simp only [BitVec.toNat_add, BitVec.toNat_sub, hone]
      omega

/-- A window from the first word to the last is computed to span nothing. -/
theorem Describes.toNat_expected_of_ends {acc : LossJitter} {seen : List ℕ}
    (h : Describes acc seen) (hends : 0 ∈ seen ∧ 2 ^ 64 - 1 ∈ seen) : acc.expected.toNat = 0 := by
  have hne : seen ≠ [] := List.ne_nil_of_mem hends.1
  unfold expected
  cases hmin : acc.minSeq with
  | none => exact absurd (h.none_iff.mp hmin) hne
  | some m =>
      have hm : m.toNat ≤ 0 := (h.least m hmin).2 hends.1
      have hM : 2 ^ 64 - 1 ≤ acc.maxSeq.toNat := (h.greatest hne).2 hends.2
      have hmax := acc.maxSeq.isLt
      have hone : (1 : U64).toNat = 1 := rfl
      simp only [BitVec.toNat_add, BitVec.toNat_sub, hone]
      omega

/-! ## Loss against the sequence numbers seen -/

/-- The figures reported for an arrival sequence, as numbers. -/
def reported (field : TestResult → Option U64) (W : U64) (ds : List Datagram) (secs : ℚ) :
    Option ℕ :=
  (field ((observeAll W ds).intoResult secs)).map BitVec.toNat

section Reported

variable {W : U64} {ds : List Datagram} (secs : ℚ)

theorem reported_expected (hspan : (hull (window W ds)).ncard < 2 ^ 64) :
    reported TestResult.packetsExpected W ds secs = some (hull (window W ds)).ncard := by
  simp [reported, intoResult, (observeAll_describes W ds).toNat_expected hspan]

theorem reported_lost (hspan : (hull (window W ds)).ncard < 2 ^ 64) :
    reported TestResult.packetsLost W ds secs =
      some ((hull (window W ds)).ncard - (window W ds).length) := by
  have h := observeAll_describes W ds
  have hlt := lost_lt (observeAll W ds)
  rw [lost, h.toNat_expected hspan, h.received] at hlt
  simp only [reported, intoResult, Option.map_some, BitVec.toNat_ofNat, lost,
    h.toNat_expected hspan, h.received]
  rw [Nat.mod_eq_of_lt hlt]

theorem reported_received (hlen : (window W ds).length < 2 ^ 64) :
    reported TestResult.packetsReceived W ds secs = some (window W ds).length := by
  simp only [reported, intoResult, Option.map_some, BitVec.toNat_ofNat,
    (observeAll_describes W ds).received]
  rw [Nat.mod_eq_of_lt hlen]

end Reported

/-- The reported loss is the number of sequence numbers of the window's span
    never observed, and the reported expectation is the span. -/
def LossIsGaps (W : U64) (ds : List Datagram) (secs : ℚ) : Prop :=
  reported TestResult.packetsLost W ds secs = some (gaps (window W ds)).ncard ∧
  reported TestResult.packetsExpected W ds secs = some (hull (window W ds)).ncard

/-- The reported loss counts the missing sequence numbers exactly when the
    window has no repeated sequence number, or nothing is missing from it. -/
theorem lossIsGaps_iff (W : U64) (ds : List Datagram) (secs : ℚ)
    (hspan : (hull (window W ds)).ncard < 2 ^ 64) :
    LossIsGaps W ds secs ↔ (window W ds).Nodup ∨ gaps (window W ds) = ∅ := by
  rw [LossIsGaps, reported_lost secs hspan, reported_expected secs hspan,
    ← ncard_hull_sub_length_eq_iff]
  simp

/-- Sequence numbers 0, 1, 1, 3: one repeated, one missing. -/
def repeatedArrivals : List Datagram :=
  [⟨0, 0, 9, 100⟩, ⟨1, 0, 9, 100⟩, ⟨1, 0, 9, 100⟩, ⟨3, 0, 9, 100⟩]

private theorem ncard_hull_repeatedArrivals : (hull (window 0 repeatedArrivals)).ncard = 4 := by
  apply ncard_hull_nat (a := 0) (b := 3)
  · exact ⟨by decide, fun s _ => Nat.zero_le s⟩
  · refine ⟨by decide, fun s hs => ?_⟩
    have hlist : s ∈ [0, 1, 1, 3] := hs
    simp at hlist
    omega

/-- The repetition hides the missing datagram: nothing is reported lost. -/
theorem repeated_hides_missing :
    (hull (window 0 repeatedArrivals)).ncard < 2 ^ 64 ∧
    reported TestResult.packetsLost 0 repeatedArrivals 1 = some 0 ∧
    2 ∈ gaps (window 0 repeatedArrivals) ∧
    ¬ LossIsGaps 0 repeatedArrivals 1 := by
  have hspan : (hull (window 0 repeatedArrivals)).ncard < 2 ^ 64 := by
    rw [ncard_hull_repeatedArrivals]
    decide
  have hlost : reported TestResult.packetsLost 0 repeatedArrivals 1 = some 0 := by
    rw [reported_lost 1 hspan, ncard_hull_repeatedArrivals]
    rfl
  have hgap : 2 ∈ gaps (window 0 repeatedArrivals) :=
    ⟨⟨⟨0, by decide⟩, 3, by decide⟩, by decide⟩
  refine ⟨hspan, hlost, hgap, fun h => ?_⟩
  -- if the loss counted the gaps there would be none
  have hzero : (gaps (window 0 repeatedArrivals)).ncard = 0 := by
    have hsame := hlost.symm.trans h.1
    simpa using hsame.symm
  rw [Set.ncard_eq_zero (gaps_finite _)] at hzero
  rw [hzero] at hgap
  exact hgap

theorem lossIsGaps_iff_repeatedArrivals :
    LossIsGaps 0 repeatedArrivals 1 ↔
      (window 0 repeatedArrivals).Nodup ∨ gaps (window 0 repeatedArrivals) = ∅ :=
  lossIsGaps_iff 0 repeatedArrivals 1 (by rw [ncard_hull_repeatedArrivals]; decide)

/-! ## Loss against the datagrams sent -/

/-- Of `N` datagrams sent, every one from `W` on is reported as received or as
    lost. -/
def AccountsForSent (N W : U64) (ds : List Datagram) (secs : ℚ) : Prop :=
  ∃ received lost, reported TestResult.packetsReceived W ds secs = some received ∧
    reported TestResult.packetsLost W ds secs = some lost ∧ received + lost = N.toNat - W.toNat

/-- Received and lost make up the span of the in-window datagrams delivered,
    so every datagram between two delivered ones is accounted for.  All the
    in-window datagrams sent are accounted for exactly when there are none, or
    the first and the last of them were delivered. -/
theorem received_add_lost (N W : U64) (ds : List Datagram) (secs : ℚ)
    (hW : W ≤ N) (hsent : ∀ d ∈ ds, d.seq < N) (honce : (ds.map Datagram.seq).Nodup) :
    (∃ received lost, reported TestResult.packetsReceived W ds secs = some received ∧
      reported TestResult.packetsLost W ds secs = some lost ∧
      received + lost = (hull (window W ds)).ncard) ∧
    (AccountsForSent N W ds secs ↔
      N = W ∨ (W.toNat ∈ window W ds ∧ N.toNat - 1 ∈ window W ds)) := by
  have hrange : ∀ s ∈ window W ds, W.toNat ≤ s ∧ s < N.toNat := by
    intro s hs
    obtain ⟨d, hd, hdW, rfl⟩ := mem_window.mp hs
    exact ⟨hdW, hsent d hd⟩
  have hN := N.isLt
  have hwidth := ncard_hull_le_width hrange
  have hcount := length_add_ncard_gaps (window_nodup (W := W) honce)
  have hreceived := reported_received (W := W) secs (by omega : (window W ds).length < 2 ^ 64)
  have hlost := reported_lost (W := W) secs (by omega : (hull (window W ds)).ncard < 2 ^ 64)
  have hsum : (window W ds).length + ((hull (window W ds)).ncard - (window W ds).length) =
      (hull (window W ds)).ncard := by omega
  refine ⟨⟨_, _, hreceived, hlost, hsum⟩, ?_⟩
  -- a window without a datagram to send has both ends at `N`
  have hends : N.toNat ≤ W.toNat ↔ N = W := by
    rw [BitVec.le_def] at hW
    rw [← BitVec.toNat_inj]
    omega
  rw [← hends, ← ncard_hull_eq_width_iff hrange, AccountsForSent, hreceived, hlost]
  constructor
  · rintro ⟨received, lost, hr, hl, h⟩
    cases hr
    cases hl
    omega
  · intro h
    exact ⟨_, _, rfl, rfl, by omega⟩

/-- Of five datagrams, all but the third, out of order. -/
def innerGapArrivals : List Datagram :=
  [⟨0, 0, 9, 100⟩, ⟨1, 0, 9, 100⟩, ⟨4, 0, 9, 100⟩, ⟨3, 0, 9, 100⟩]

theorem received_add_lost_innerGap :
    (∃ received lost,
      reported TestResult.packetsReceived 0 innerGapArrivals 1 = some received ∧
      reported TestResult.packetsLost 0 innerGapArrivals 1 = some lost ∧
      received + lost = (hull (window 0 innerGapArrivals)).ncard) ∧
    (AccountsForSent 5 0 innerGapArrivals 1 ↔
      (5 : U64) = 0 ∨ ((0 : U64).toNat ∈ window 0 innerGapArrivals ∧
        (5 : U64).toNat - 1 ∈ window 0 innerGapArrivals)) :=
  received_add_lost 5 0 innerGapArrivals 1 (by decide) (by decide) (by decide)

/-- Of three datagrams, all but the last. -/
def tailLossArrivals : List Datagram := [⟨0, 0, 9, 100⟩, ⟨1, 0, 9, 100⟩]

/-- The lost tail is reported neither as received nor as lost. -/
theorem tail_loss_unaccounted :
    reported TestResult.packetsReceived 0 tailLossArrivals 1 = some 2 ∧
    reported TestResult.packetsLost 0 tailLossArrivals 1 = some 0 ∧
    ¬ ∀ (N W : U64) (ds : List Datagram) (secs : ℚ), W ≤ N → (∀ d ∈ ds, d.seq < N) →
      (ds.map Datagram.seq).Nodup → AccountsForSent N W ds secs := by
  have hreceived : reported TestResult.packetsReceived 0 tailLossArrivals 1 = some 2 := by decide
  have hlost : reported TestResult.packetsLost 0 tailLossArrivals 1 = some 0 := by decide
  refine ⟨hreceived, hlost, fun hall => ?_⟩
  obtain ⟨received, lost, hr, hl, h⟩ :=
    hall 3 0 tailLossArrivals 1 (by decide) (by decide) (by decide)
  rw [hreceived] at hr
  rw [hlost] at hl
  cases hr
  cases hl
  revert h
  decide

end Andri.Udp

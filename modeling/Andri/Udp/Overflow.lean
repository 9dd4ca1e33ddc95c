/-
  Andri.Udp.Overflow

  Which datagrams make the arithmetic of `LossJitter` overflow.  The header is
  whatever the peer sent: two 64-bit words, read as `i64` where `observe`
  subtracts and as `u64` where `snapshot` and `into_result` take the span.

  With receive times below `2 ^ 63` every difference is exact as long as no
  send time, read as signed, lies `2 ^ 63` or more below its receive time, no
  two consecutive in-window transits are that far apart, and the window does
  not reach over all of the sequence numbers.
-/
import Andri.Udp.Header
import Andri.Udp.Jitter
import Andri.Udp.Loss
import Mathlib.Data.BitVec

namespace Andri.Udp

open Lib LossJitter

/-- What `observe` is called with for the datagrams received, each with the time
    it came in at; one too short for a header is skipped. -/
def arrivals (bufs : List (List Byte × U64)) : List Datagram :=
  bufs.filterMap fun b => (unstamp b.1).map fun header => ⟨header.1, header.2, b.2, b.1.length⟩

/-! ## Exact arithmetic -/

/-- The `i64` subtractions and the `abs` of one `observe` have their exact values. -/
structure ObserveExact (acc : LossJitter) (d : Datagram) : Prop where
  transit : d.transit.toInt = d.recvNs.toInt - d.sendNs.toInt
  sub : ∀ prev, acc.prevTransit = some prev →
    (d.transit - prev).toInt = d.transit.toInt - prev.toInt
  abs : ∀ prev, acc.prevTransit = some prev →
    (d.transit - prev).abs.toInt = |(d.transit - prev).toInt|

/-- The `u64` span of `snapshot` and `into_result` has its exact value. -/
def SpanExact (acc : LossJitter) : Prop :=
  ∀ m, acc.minSeq = some m →
    ((acc.maxSeq - m + 1).toNat : ℤ) = (acc.maxSeq.toNat : ℤ) - m.toNat + 1

/-- Every `observe` of the in-window datagrams is exact. -/
def ObservesExact (acc : LossJitter) : List Datagram → Prop
  | [] => True
  | d :: ds => (acc.warmupPackets ≤ d.seq → ObserveExact acc d) ∧ ObservesExact (acc.observe d) ds

/-- No step overflows: every `observe` is exact, and so is a `snapshot` or
    `into_result` taken after any number of datagrams. -/
def NoOverflow (W : U64) (ds : List Datagram) : Prop :=
  ObservesExact (new W) ds ∧ ∀ n, SpanExact (observeAll W (ds.take n))

/-! ## The datagrams that stay exact -/

/-- The transit time of a send time read as signed. -/
def Datagram.signedTransit (d : Datagram) : ℤ := d.recvNs.toInt - d.sendNs.toInt

/-- Send times and sequence numbers that no step overflows on. -/
structure FitsWords (W : U64) (ds : List Datagram) : Prop where
  clock : ∀ d ∈ inWindow W ds, d.signedTransit < 2 ^ 63
  pairs : (inWindow W ds).IsChain fun a b => |b.signedTransit - a.signedTransit| < 2 ^ 63
  span : ¬ (0 ∈ window W ds ∧ 2 ^ 64 - 1 ∈ window W ds)

section Observe

variable {acc : LossJitter} {a d : Datagram} {ds : List Datagram}

/-- A receive time below `2 ^ 63` leaves only the upper end to overflow. -/
theorem transit_exact_iff (hrecv : d.recvNs.toNat < 2 ^ 63) :
    d.transit.toInt = d.recvNs.toInt - d.sendNs.toInt ↔ d.signedTransit < 2 ^ 63 := by
  have hpos := toInt_of_lt hrecv
  have hsend := toInt_range d.sendNs
  rw [Datagram.transit, toInt_sub_eq_iff, Datagram.signedTransit]
  omega

/-- Subtraction and absolute value are exact together: the least `i64` is excluded
    by the second. -/
theorem sub_abs_exact_iff {x y : U64} :
    ((x - y).toInt = x.toInt - y.toInt ∧ (x - y).abs.toInt = |(x - y).toInt|) ↔
      |x.toInt - y.toInt| < 2 ^ 63 := by
  rw [toInt_sub_eq_iff, toInt_abs_eq_iff, abs_lt]
  constructor
  · rintro ⟨hsub, habs⟩
    rw [(toInt_sub_eq_iff x y).mpr hsub] at habs
    exact ⟨habs, hsub.2⟩
  · rintro ⟨hlow, hhigh⟩
    have hsub : -2 ^ 63 ≤ x.toInt - y.toInt ∧ x.toInt - y.toInt < 2 ^ 63 := ⟨by omega, hhigh⟩
    rw [(toInt_sub_eq_iff x y).mpr hsub]
    exact ⟨hsub, hlow⟩

/-- One `observe` after the datagram `a`. -/
theorem observeExact_iff (hprev : acc.prevTransit = some a.transit)
    (ha : a.transit.toInt = a.signedTransit) (hrecv : d.recvNs.toNat < 2 ^ 63) :
    ObserveExact acc d ↔
      d.signedTransit < 2 ^ 63 ∧ |d.signedTransit - a.signedTransit| < 2 ^ 63 := by
  constructor
  · intro h
    have htransit := h.transit
    have hpair := sub_abs_exact_iff.mp ⟨h.sub _ hprev, h.abs _ hprev⟩
    rw [htransit, ha] at hpair
    exact ⟨(transit_exact_iff hrecv).mp htransit, hpair⟩
  · rintro ⟨hclock, hpair⟩
    have htransit := (transit_exact_iff hrecv).mpr hclock
    have hboth : |d.transit.toInt - a.transit.toInt| < 2 ^ 63 := by
      rw [htransit, ha]
      exact hpair
    obtain ⟨hsub, habs⟩ := sub_abs_exact_iff.mpr hboth
    refine ⟨htransit, ?_, ?_⟩ <;> intro prev hp <;> rw [hprev] at hp <;> cases hp
    · exact hsub
    · exact habs

/-- The datagrams after `a`, all of them in the window. -/
theorem observesExact_iff (hprev : acc.prevTransit = some a.transit)
    (ha : a.transit.toInt = a.signedTransit)
    (hds : ∀ d ∈ ds, acc.warmupPackets ≤ d.seq ∧ d.recvNs.toNat < 2 ^ 63) :
    ObservesExact acc ds ↔ (∀ d ∈ ds, d.signedTransit < 2 ^ 63) ∧
      (a :: ds).IsChain fun a b => |b.signedTransit - a.signedTransit| < 2 ^ 63 := by
  induction ds generalizing acc a with
  | nil => simp [ObservesExact]
  | cons d ds ih =>
      obtain ⟨hle, hrecv⟩ := hds d List.mem_cons_self
      have hrest : ∀ x ∈ ds, (acc.observe d).warmupPackets ≤ x.seq ∧ x.recvNs.toNat < 2 ^ 63 := by
        intro x hx
        rw [observe_warmupPackets]
        exact hds x (List.mem_cons_of_mem d hx)
      rw [ObservesExact, List.forall_mem_cons, List.isChain_cons_cons,
        forall_prop_of_true hle, observeExact_iff hprev ha hrecv]
      -- the rest is judged from `d`, whose transit is exact
      constructor
      · rintro ⟨⟨hclock, hpair⟩, hds'⟩
        have hd := (transit_exact_iff hrecv).mpr hclock
        obtain ⟨hclocks, hchain⟩ := (ih (observe_jitterNs hle).2 hd hrest).mp hds'
        exact ⟨⟨hclock, hclocks⟩, hpair, hchain⟩
      · rintro ⟨⟨hclock, hclocks⟩, hpair, hchain⟩
        have hd := (transit_exact_iff hrecv).mpr hclock
        exact ⟨⟨hclock, hpair⟩, (ih (observe_jitterNs hle).2 hd hrest).mpr ⟨hclocks, hchain⟩⟩

/-- Datagrams of the warm-up are not subtracted. -/
theorem observesExact_inWindow :
    ObservesExact acc ds ↔ ObservesExact acc (inWindow acc.warmupPackets ds) := by
  induction ds generalizing acc with
  | nil => rfl
  | cons d ds ih =>
      rw [ObservesExact, inWindow_cons]
      by_cases hd : acc.warmupPackets ≤ d.seq
      · rw [if_pos hd, ObservesExact, ih, observe_warmupPackets]
      · rw [if_neg hd, observe_of_lt acc d (BitVec.not_le.mp hd), ih, forall_prop_of_false hd,
          true_and]

end Observe

/-- From a new accumulator: the first in-window datagram has no predecessor. -/
theorem observesExact_new_iff {W : U64} {ds : List Datagram}
    (hrecv : ∀ d ∈ ds, d.recvNs.toNat < 2 ^ 63) :
    ObservesExact (new W) ds ↔ (∀ d ∈ inWindow W ds, d.signedTransit < 2 ^ 63) ∧
      (inWindow W ds).IsChain fun a b => |b.signedTransit - a.signedTransit| < 2 ^ 63 := by
  have hall : ∀ d ∈ inWindow W ds, W ≤ d.seq ∧ d.recvNs.toNat < 2 ^ 63 := by
    intro d hd
    obtain ⟨hmem, hle⟩ := mem_inWindow.mp hd
    exact ⟨hle, hrecv d hmem⟩
  rw [observesExact_inWindow]
  show ObservesExact (new W) (inWindow W ds) ↔ _
  generalize inWindow W ds = ws at hall
  cases ws with
  | nil => simp [ObservesExact]
  | cons a ws =>
      obtain ⟨hle, hra⟩ := hall a List.mem_cons_self
      have hin : (new W).warmupPackets ≤ a.seq := hle
      have hfirst : ObserveExact (new W) a ↔ a.signedTransit < 2 ^ 63 := by
        rw [← transit_exact_iff hra]
        refine ⟨fun h => h.transit, fun h => ⟨h, ?_, ?_⟩⟩ <;> intro prev hp <;> cases hp
      have hrest : ∀ x ∈ ws, ((new W).observe a).warmupPackets ≤ x.seq ∧
          x.recvNs.toNat < 2 ^ 63 := by
        intro x hx
        rw [observe_warmupPackets]
        exact hall x (List.mem_cons_of_mem a hx)
      rw [ObservesExact, List.forall_mem_cons, forall_prop_of_true hin, hfirst]
      constructor
      · rintro ⟨hclock, hws⟩
        have ha := (transit_exact_iff hra).mpr hclock
        obtain ⟨hclocks, hchain⟩ :=
          (observesExact_iff (observe_jitterNs hle).2 ha hrest).mp hws
        exact ⟨⟨hclock, hclocks⟩, hchain⟩
      · rintro ⟨⟨hclock, hclocks⟩, hchain⟩
        have ha := (transit_exact_iff hra).mpr hclock
        exact ⟨hclock, (observesExact_iff (observe_jitterNs hle).2 ha hrest).mpr
          ⟨hclocks, hchain⟩⟩

/-! ## The span -/

/-- The span is exact unless the window holds the first and the last word. -/
theorem Describes.spanExact_iff {acc : LossJitter} {seen : List ℕ} (h : Describes acc seen) :
    SpanExact acc ↔ ¬ (0 ∈ seen ∧ 2 ^ 64 - 1 ∈ seen) := by
  unfold SpanExact
  cases hmin : acc.minSeq with
  | none => simp [h.none_iff.mp hmin]
  | some m =>
      have hne : seen ≠ [] := fun he => by simp [h.none_iff.mpr he] at hmin
      have hleast := h.least m hmin
      have hgreatest := h.greatest hne
      have hle : m.toNat ≤ acc.maxSeq.toNat := hleast.2 hgreatest.1
      have hmax := acc.maxSeq.isLt
      have hone : (1 : U64).toNat = 1 := rfl
      -- the one added wraps only when the difference is the last word
      have hwrap : ((acc.maxSeq - m + 1).toNat : ℤ) = (acc.maxSeq.toNat : ℤ) - m.toNat + 1 ↔
          ¬ (m.toNat = 0 ∧ acc.maxSeq.toNat = 2 ^ 64 - 1) := by
        simp only [BitVec.toNat_add, BitVec.toNat_sub, hone]
        omega
      have hends : (m.toNat = 0 ∧ acc.maxSeq.toNat = 2 ^ 64 - 1) ↔
          (0 ∈ seen ∧ 2 ^ 64 - 1 ∈ seen) := by
        constructor
        · rintro ⟨hm, hM⟩
          exact ⟨hm ▸ hleast.1, hM ▸ hgreatest.1⟩
        · rintro ⟨hm, hM⟩
          have hlow := hleast.2 hm
          have hhigh := hgreatest.2 hM
          omega
      rw [← hends, ← hwrap]
      refine ⟨fun hall => hall m rfl, fun hexact m' hm' => ?_⟩
      cases hm'
      exact hexact

/-- The window only grows, so the last span decides for every one before it. -/
theorem spanExact_take_iff (W : U64) (ds : List Datagram) :
    (∀ n, SpanExact (observeAll W (ds.take n))) ↔
      ¬ (0 ∈ window W ds ∧ 2 ^ 64 - 1 ∈ window W ds) := by
  constructor
  · intro h
    have hlast := h ds.length
    rw [List.take_length] at hlast
    exact (observeAll_describes W ds).spanExact_iff.mp hlast
  · intro h n
    rw [(observeAll_describes W (ds.take n)).spanExact_iff]
    have hsub : ∀ s, s ∈ window W (ds.take n) → s ∈ window W ds := by
      intro s hs
      obtain ⟨d, hd, hrest⟩ := mem_window.mp hs
      exact mem_window.mpr ⟨d, List.mem_of_mem_take hd, hrest⟩
    rintro ⟨hzero, hlast⟩
    exact h ⟨hsub _ hzero, hsub _ hlast⟩

/-! ## Datagrams of any contents -/

theorem recvNs_of_mem_arrivals {bufs : List (List Byte × U64)} {d : Datagram}
    (h : d ∈ arrivals bufs) : ∃ b ∈ bufs, d.recvNs = b.2 := by
  obtain ⟨b, hb, hd⟩ := List.mem_filterMap.mp h
  obtain ⟨header, -, rfl⟩ := Option.map_eq_some_iff.mp hd
  exact ⟨b, hb, rfl⟩

/-- Received at times below `2 ^ 63`, datagrams of any contents are counted without
    overflow exactly when their headers fit the words they are computed in. -/
theorem noOverflow_iff (W : U64) (bufs : List (List Byte × U64))
    (hrecv : ∀ b ∈ bufs, b.2.toNat < 2 ^ 63) :
    NoOverflow W (arrivals bufs) ↔ FitsWords W (arrivals bufs) := by
  have hds : ∀ d ∈ arrivals bufs, d.recvNs.toNat < 2 ^ 63 := by
    intro d hd
    obtain ⟨b, hb, hrecvNs⟩ := recvNs_of_mem_arrivals hd
    rw [hrecvNs]
    exact hrecv b hb
  rw [NoOverflow, observesExact_new_iff hds, spanExact_take_iff]
  exact ⟨fun ⟨⟨hclock, hpairs⟩, hspan⟩ => ⟨hclock, hpairs, hspan⟩,
    fun h => ⟨⟨h.clock, h.pairs⟩, h.span⟩⟩

/-- Two bare headers of an ordinary stream. -/
def ordinaryBufs : List (List Byte × U64) :=
  [([0, 0, 0, 0, 0, 0, 0, 0, 5, 0, 0, 0, 0, 0, 0, 0], 9),
    ([1, 0, 0, 0, 0, 0, 0, 0, 7, 0, 0, 0, 0, 0, 0, 0], 12)]

theorem noOverflow_ordinary : NoOverflow 0 (arrivals ordinaryBufs) := by
  have hds : arrivals ordinaryBufs = [⟨0, 5, 9, 16⟩, ⟨1, 7, 12, 16⟩] := by decide +kernel
  refine (noOverflow_iff 0 ordinaryBufs (by decide +kernel)).mpr ?_
  rw [hds]
  exact ⟨by decide +kernel, by decide +kernel, by decide +kernel⟩

/-- Two bare headers: sequence number 0 sent at `2 ^ 63`, then the last sequence number
    sent at 0. -/
def extremeBufs : List (List Byte × U64) :=
  [([0, 0, 0, 0, 0, 0, 0, 0, 0, 0, 0, 0, 0, 0, 0, 128], 0),
    ([255, 255, 255, 255, 255, 255, 255, 255, 0, 0, 0, 0, 0, 0, 0, 0], 1)]

theorem arrivals_extremeBufs :
    arrivals extremeBufs = [⟨0, 2 ^ 63, 0, 16⟩, ⟨2 ^ 64 - 1, 0, 1, 16⟩] := by
  decide +kernel

/-- The first transit leaves `i64`, and the span of the two leaves `u64`: it comes out
    as 0. -/
theorem headers_overflow :
    (∀ b ∈ extremeBufs, 16 ≤ b.1.length ∧ b.2.toNat < 2 ^ 63) ∧
    ((0 : U64) - 2 ^ 63).toInt ≠ (0 : U64).toInt - ((2 : U64) ^ 63).toInt ∧
    (observeAll 0 (arrivals extremeBufs)).expected = 0 ∧
    ¬ ∀ (W : U64) (bufs : List (List Byte × U64)),
      (∀ b ∈ bufs, 16 ≤ b.1.length ∧ b.2.toNat < 2 ^ 63) → NoOverflow W (arrivals bufs) := by
  have hbufs : ∀ b ∈ extremeBufs, 16 ≤ b.1.length ∧ b.2.toNat < 2 ^ 63 := by
    decide +kernel
  refine ⟨hbufs, by decide +kernel, ?_, fun hall => ?_⟩
  · rw [arrivals_extremeBufs]
    decide +kernel
  · obtain ⟨-, hspan⟩ := hall 0 extremeBufs hbufs
    rw [spanExact_take_iff, arrivals_extremeBufs] at hspan
    exact hspan (by decide +kernel)

end Andri.Udp

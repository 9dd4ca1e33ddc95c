/-
  Andri.Udp.Jitter

  The jitter of `LossJitter::observe` as the estimator of `docs/udp.md` §4.2.  The
  code keeps the previous transit time and smooths the absolute difference of
  two transits; the estimator is stated over consecutive in-window datagrams,
  as a difference of differences.  With clock readings that cannot wrap the two
  agree, and the smoothed state is the sum of the absolute differences under
  weights that decay by 15/16 for every later datagram.

  Only differences of transits enter, so a constant offset of either clock
  cancels, whatever it wraps.
-/
import Andri.Lib.Smoothing
import Andri.Udp.LossJitter
import Mathlib.Data.List.MinMax
import Mathlib.Tactic.NormNum

namespace Andri.Udp

open Lib LossJitter

/-! ## Difference of differences -/

/-- `D(i-1, i)` for two consecutive datagrams. -/
def interarrival (a b : Datagram) : ℤ :=
  ((b.recvNs.toNat : ℤ) - a.recvNs.toNat) - ((b.sendNs.toNat : ℤ) - a.sendNs.toNat)

/-- The differences of an arrival sequence, in order. -/
def interarrivals (ds : List Datagram) : List ℤ := List.zipWith interarrival ds ds.tail

theorem length_interarrivals (ds : List Datagram) :
    (interarrivals ds).length = ds.length - 1 := by
  simp [interarrivals]

/-- The transit time `observe` stores, as a word. -/
def Datagram.transit (d : Datagram) : U64 := d.recvNs - d.sendNs

/-- Clock readings far from the ends of `i64`. -/
def Datagram.InRange (d : Datagram) : Prop := d.sendNs.toNat < 2 ^ 62 ∧ d.recvNs.toNat < 2 ^ 62

theorem Datagram.InRange.toInt_transit {d : Datagram} (h : d.InRange) :
    d.transit.toInt = (d.recvNs.toNat : ℤ) - d.sendNs.toNat := by
  obtain ⟨hs, hr⟩ := h
  have hsend : d.sendNs.toInt = d.sendNs.toNat := toInt_of_lt (by omega)
  have hrecv : d.recvNs.toInt = d.recvNs.toNat := toInt_of_lt (by omega)
  have hexact := (toInt_sub_eq_iff d.recvNs d.sendNs).mpr (by omega)
  rw [Datagram.transit, hexact, hsend, hrecv]

/-- In range, the word the code smooths with is the absolute difference. -/
theorem toInt_abs_transit_sub {a b : Datagram} (ha : a.InRange) (hb : b.InRange) :
    (b.transit - a.transit).abs.toInt = |interarrival a b| := by
  have hta := ha.toInt_transit
  have htb := hb.toInt_transit
  obtain ⟨has, har⟩ := ha
  obtain ⟨hbs, hbr⟩ := hb
  have hsub := (toInt_sub_eq_iff b.transit a.transit).mpr (by omega)
  rw [(toInt_abs_eq_iff _).mpr (by omega), hsub, hta, htb, interarrival]
  congr 1
  omega

/-! ## The estimator -/

/-- The absolute differences the jitter is smoothed from. -/
def jitterSamples (ds : List Datagram) : List ℚ :=
  (interarrivals ds).map fun d : ℤ => |(d : ℚ)|

theorem observe_jitterNs {acc : LossJitter} {d : Datagram} (h : acc.warmupPackets ≤ d.seq) :
    (acc.observe d).jitterNs = smooth acc.jitterNs acc.prevTransit d.transit ∧
    (acc.observe d).prevTransit = some d.transit := by
  have hlt : ¬ d.seq < acc.warmupPackets := BitVec.not_lt.mpr h
  simp [observe, if_neg hlt, Datagram.transit]

/-- A datagram after `a` smooths in its difference to `a`. -/
theorem smooth_eq_smoothStep {a b : Datagram} (ha : a.InRange) (hb : b.InRange) (j : ℚ) :
    smooth j (some a.transit) b.transit = smoothStep JITTER_GAIN j |(interarrival a b : ℚ)| := by
  simp only [smooth, smoothStep, toInt_abs_transit_sub ha hb, Int.cast_abs]

/-- From a datagram on, the jitter is the smoothing of the differences after it. -/
theorem foldl_observe_jitterNs {acc : LossJitter} {a : Datagram} {ds : List Datagram}
    (hprev : acc.prevTransit = some a.transit) (ha : a.InRange)
    (hds : ∀ d ∈ ds, acc.warmupPackets ≤ d.seq ∧ d.InRange) :
    (ds.foldl observe acc).jitterNs =
      smoothed JITTER_GAIN acc.jitterNs (jitterSamples (a :: ds)) := by
  induction ds generalizing acc a with
  | nil => rfl
  | cons b ds ih =>
      obtain ⟨hle, hb⟩ := hds b List.mem_cons_self
      obtain ⟨hjitter, htransit⟩ := observe_jitterNs hle
      rw [List.foldl_cons, ih htransit hb fun d hd => by
        rw [observe_warmupPackets]
        exact hds d (List.mem_cons_of_mem b hd)]
      -- the head of the differences is the step just made
      rw [hjitter, hprev, smooth_eq_smoothStep ha hb]
      rfl

/-- The accumulator's jitter is the smoothing of all differences from zero: the
    first datagram only seeds the transit time. -/
theorem observeAll_jitterNs {W : U64} {ds : List Datagram} (hds : ∀ d ∈ ds, d.InRange) :
    (observeAll W ds).jitterNs = smoothed JITTER_GAIN 0 (jitterSamples (inWindow W ds)) := by
  have hall : ∀ d ∈ inWindow W ds, W ≤ d.seq ∧ d.InRange := by
    intro d hd
    obtain ⟨hmem, hle⟩ := mem_inWindow.mp hd
    exact ⟨hle, hds d hmem⟩
  rw [observeAll_inWindow]
  generalize inWindow W ds = ws at hall
  cases ws with
  | nil => rfl
  | cons a ws =>
      obtain ⟨hle, ha⟩ := hall a List.mem_cons_self
      have hin : (new W).warmupPackets ≤ a.seq := hle
      obtain ⟨hjitter, htransit⟩ := observe_jitterNs hin
      rw [List.foldl_cons, foldl_observe_jitterNs htransit ha fun d hd => by
        rw [observe_warmupPackets]
        exact hall d (List.mem_cons_of_mem a hd)]
      rw [hjitter]
      rfl

/-- The jitter is the sum of the absolute differences of consecutive in-window
    datagrams, the last with weight 1/16 and every earlier one with 15/16 of
    the next: between 0 and the largest difference, and 0 only without any. -/
theorem jitter_eq_estimator (W : U64) (ds : List Datagram)
    (hds : ∀ d ∈ ds, d.sendNs.toNat < 2 ^ 62 ∧ d.recvNs.toNat < 2 ^ 62) :
    let D := interarrivals (inWindow W ds)
    let jitter := (observeAll W ds).jitterNs
    D.length = (inWindow W ds).length - 1 ∧
    jitter = ∑ k : Fin D.length,
      (1 / 16 : ℚ) * (15 / 16) ^ (D.length - 1 - k) * |(D.get k : ℚ)| ∧
    0 ≤ jitter ∧ jitter ≤ (D.map fun d : ℤ => |(d : ℚ)|).foldr max 0 ∧
    (jitter = 0 ↔ ∀ d ∈ D, d = 0) := by
  intro D jitter
  have hjitter : jitter = smoothed JITTER_GAIN 0 (D.map fun d : ℤ => |(d : ℚ)|) :=
    observeAll_jitterNs hds
  have hgain0 : (0 : ℚ) < JITTER_GAIN := by norm_num [JITTER_GAIN]
  have hgain1 : JITTER_GAIN < 1 := by norm_num [JITTER_GAIN]
  have hnonneg : ∀ x ∈ D.map fun d : ℤ => |(d : ℚ)|, 0 ≤ x := by
    intro x hx
    obtain ⟨d, -, rfl⟩ := List.mem_map.mp hx
    exact abs_nonneg _
  refine ⟨length_interarrivals _, ?_, ?_, ?_, ?_⟩
  · have hdecay : 1 - JITTER_GAIN = 15 / 16 := by norm_num [JITTER_GAIN]
    rw [hjitter, smoothed_eq_sum, mul_zero, zero_add, hdecay]
    -- the samples are the absolute values of the differences, one for one
    have hlen : (D.map fun d : ℤ => |(d : ℚ)|).length = D.length := List.length_map _
    refine Fintype.sum_equiv (finCongr hlen) _ _ fun k => ?_
    simp [JITTER_GAIN]
  · rw [hjitter]
    exact le_smoothed hgain0.le hgain1.le le_rfl hnonneg
  · rw [hjitter]
    refine smoothed_le hgain0.le hgain1.le ?_ fun x hx => List.le_max_of_le' 0 hx le_rfl
    cases D with
    | nil => exact le_rfl
    | cons d D => exact List.le_max_of_le' 0 List.mem_cons_self (abs_nonneg _)
  · rw [hjitter, smoothed_eq_zero_iff hgain0 hgain1 le_rfl hnonneg]
    simp

/-- Transit times of 5, 37 and 21 in the window, behind a warm-up datagram with an
    outlier. -/
def warmedArrivals : List Datagram :=
  [⟨0, 1000, 900000, 100⟩, ⟨1, 2000, 2005, 100⟩, ⟨3, 4000, 4037, 100⟩, ⟨2, 3000, 3021, 100⟩]

/-- The outlier of the warm-up does not show. -/
theorem jitter_eq_estimator_warmed :
    0 ≤ (observeAll 1 warmedArrivals).jitterNs ∧ (observeAll 1 warmedArrivals).jitterNs ≤ 32 := by
  obtain ⟨-, -, hlow, hhigh, -⟩ := jitter_eq_estimator 1 warmedArrivals (by decide)
  refine ⟨hlow, hhigh.trans ?_⟩
  have hD : interarrivals (inWindow 1 warmedArrivals) = [32, -16] := by decide
  rw [hD]
  norm_num

/-! ## Clock offsets -/

/-- A datagram with `c` added to the sender's clock and `a` to the receiver's. -/
def Datagram.shift (c a : U64) (d : Datagram) : Datagram :=
  { d with sendNs := d.sendNs + c, recvNs := d.recvNs + a }

/-- The accumulator of a run with shifted clocks: only the stored transit moves. -/
def shiftTransit (t : U64) (acc : LossJitter) : LossJitter :=
  { acc with prevTransit := acc.prevTransit.map (· + t) }

theorem Datagram.transit_shift (c a : U64) (d : Datagram) :
    (d.shift c a).transit = d.transit + (a - c) := by
  simp only [Datagram.transit, Datagram.shift]
  grind

/-- A common offset drops out of the difference of two transits. -/
theorem smooth_shift (t : U64) (j : ℚ) (prev : Option U64) (transit : U64) :
    smooth j (Option.map (· + t) prev) (transit + t) = smooth j prev transit := by
  cases prev with
  | none => rfl
  | some p =>
      have hdiff : transit + t - (p + t) = transit - p := by grind
      simp only [Option.map_some, smooth, hdiff]

/-- Observing a shifted datagram shifts what observing the datagram leaves. -/
theorem observe_shift (c a : U64) (acc : LossJitter) (d : Datagram) :
    (shiftTransit (a - c) acc).observe (d.shift c a) = shiftTransit (a - c) (acc.observe d) := by
  by_cases hd : d.seq < acc.warmupPackets
  · rw [observe_of_lt acc d hd]
    exact observe_of_lt _ _ hd
  · have htransit : d.recvNs + a - (d.sendNs + c) = d.recvNs - d.sendNs + (a - c) :=
      d.transit_shift c a
    simp only [observe, shiftTransit, Datagram.shift, if_neg hd, htransit, smooth_shift,
      Option.map_some]

theorem foldl_observe_shift (c a : U64) (acc : LossJitter) (ds : List Datagram) :
    (ds.map (Datagram.shift c a)).foldl observe (shiftTransit (a - c) acc) =
      shiftTransit (a - c) (ds.foldl observe acc) := by
  induction ds generalizing acc with
  | nil => rfl
  | cons d ds ih => rw [List.map_cons, List.foldl_cons, List.foldl_cons, observe_shift, ih]

/-- A constant offset on either clock, wrapping or not, changes no jitter and no
    other metric after any of the datagrams. -/
theorem clock_offset_cancels (W : U64) (ds : List Datagram) (c a : U64) (n : ℕ) :
    let shifted := observeAll W ((ds.map (Datagram.shift c a)).take n)
    let plain := observeAll W (ds.take n)
    shifted.jitterNs = plain.jitterNs ∧ shifted.snapshot = plain.snapshot ∧
      ∀ secs, shifted.intoResult secs = plain.intoResult secs := by
  intro shifted plain
  have hshift : shifted = shiftTransit (a - c) plain := by
    show observeAll W ((ds.map (Datagram.shift c a)).take n) = _
    rw [← List.map_take]
    exact foldl_observe_shift c a (new W) (ds.take n)
  rw [hshift]
  -- no metric reads the stored transit
  exact ⟨rfl, rfl, fun _ => rfl⟩

end Andri.Udp

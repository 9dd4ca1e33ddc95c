/-
  Andri.Client.Printed

  What the client prints at the end of a test, against the test.  The rate is that of the
  Result's bytes over its duration up to half of its last digit; of a UDP test the
  percentage is that of the two counts beside it; of a file the byte count is the
  length negotiated; and of a TCP test the streams are those the server accepted.  The
  rate in its unit and the percentage are doubles, each off by one rounding more.
-/
import Andri.Client.Contract
import Andri.Client.Flow
import Andri.Report
import Andri.Session.Reports

namespace Andri

open Lib

/-! ## The rate shown -/

section Rate

variable (fmt : Format) {bps secs amount : ℚ}

theorem IsRate.rate_nonneg (h : IsRate amount secs bps) (hamount : 0 ≤ amount) : 0 ≤ bps := by
  rcases h.nonneg.eq_or_lt with hzero | hpos
  · rw [h.none hzero.symm]
  · by_contra hneg
    have hmul := mul_neg_of_neg_of_pos (not_le.mp hneg) hpos
    rw [h.mul hpos] at hmul
    exact absurd hamount (not_le.mpr hmul)

/-- Over its duration the rate shown makes up the amount, as far. -/
theorem IsRate.abs_figure_mul_sub_le (h : IsRate amount secs bps) (hamount : 0 ≤ amount)
    (hsecs : 0 < secs) :
    |fmt.figure bps * fmt.unit * secs - amount| ≤
      fmt.unit / (2 * 10 ^ fmt.decimals) * secs + amount / 2 ^ 53 +
        fmt.unit * 2 ^ (-1075 : ℤ) * secs := by
  have hround := fmt.abs_figure_sub_le (h.rate_nonneg hamount)
  have hmul := h.mul hsecs
  calc |fmt.figure bps * fmt.unit * secs - amount|
      = |fmt.figure bps * fmt.unit - bps| * secs := by
        rw [← hmul, ← sub_mul, abs_mul, abs_of_pos hsecs]
    _ ≤ (fmt.unit / (2 * 10 ^ fmt.decimals) + bps / 2 ^ 53 + fmt.unit * 2 ^ (-1075 : ℤ)) * secs :=
        mul_le_mul_of_nonneg_right hround hsecs.le
    _ = fmt.unit / (2 * 10 ^ fmt.decimals) * secs + amount / 2 ^ 53 +
        fmt.unit * 2 ^ (-1075 : ℤ) * secs := by
        rw [add_mul, add_mul, div_mul_eq_mul_div bps, hmul]

end Rate

/-! ## What the client has -/

section Joint

variable {su : Setup} {j : Joint} {r : TestResult}

/-- The request a session has read is the client's. -/
theorem JointReachable.requested_eq (h : JointReachable su j) {n : Negotiate}
    (hn : j.world.Requested n) : n = su.neg :=
  negotiate_of_mem_script
    (mem_script_of_read h.agree.session.read_prefix (List.mem_of_getElem? hn))

theorem JointReachable.sound (h : JointReachable su j) (hr : j.client = .done r) :
    r.Sound su.neg.mode := by
  have hwritten := List.mem_of_getElem? (h.agree.done r hr)
  obtain ⟨n, hn, hreliable⟩ := (carries_reported 0).result h.session hwritten
  obtain rfl := h.requested_eq hn
  exact hreliable.sound

theorem JointReachable.file_bytes (h : JointReachable su j) (hr : j.client = .done r)
    (hmode : su.neg.mode = .file) : r.bytes = su.neg.fileLen.getD 0 := by
  have hwritten := List.mem_of_getElem? (h.agree.done r hr)
  obtain ⟨n, hn, hbacked⟩ := carries_backed.result h.session hwritten
  obtain rfl := h.requested_eq hn
  unfold ResultBacked at hbacked
  rw [hmode] at hbacked
  exact hbacked.1

/-- The loss figures of a UDP Result: no more lost than expected, and the percentage that
    of the two up to half of its last digit and one rounding to a double. -/
theorem TestResult.Lossy.percent (h : r.Lossy) :
    orZero r.packetsLost ≤ orZero r.packetsExpected ∧
    |rounded 2 r.lossPercent * orZero r.packetsExpected - 100 * orZero r.packetsLost| ≤
      orZero r.packetsExpected / 200 + 100 * orZero r.packetsLost / 2 ^ 53 +
        2 ^ (-1075 : ℤ) * orZero r.packetsExpected := by
  obtain ⟨expected, received, lost, ratio, jitter, hexpected, -, hlost, hratio, -, hle, hnonneg, -,
    hmul⟩ := h
  simp only [TestResult.lossPercent, orZero, hexpected, hlost, hratio, Option.getD_some]
  refine ⟨by exact_mod_cast hle, ?_⟩
  have hround := abs_rounded_sub_le 2 (binary64_nonneg (ratio * 100))
  have hdouble := abs_binary64_sub_le (mul_nonneg hnonneg (show (0 : ℚ) ≤ 100 by norm_num))
  have hcount : (0 : ℚ) ≤ expected.toNat := Nat.cast_nonneg _
  have hdiff : rounded 2 (binary64 (ratio * 100)) * expected.toNat - 100 * lost.toNat =
      (rounded 2 (binary64 (ratio * 100)) - binary64 (ratio * 100) +
        (binary64 (ratio * 100) - ratio * 100)) * expected.toNat := by
    rw [← hmul]
    ring
  rw [hdiff, abs_mul, abs_of_nonneg hcount]
  calc |rounded 2 (binary64 (ratio * 100)) - binary64 (ratio * 100) +
        (binary64 (ratio * 100) - ratio * 100)| * expected.toNat
      ≤ (1 / (2 * 10 ^ 2) + (ratio * 100 / 2 ^ 53 + 2 ^ (-1075 : ℤ))) * expected.toNat :=
        mul_le_mul_of_nonneg_right ((abs_add_le _ _).trans (add_le_add hround hdouble)) hcount
    _ = expected.toNat / 200 + 100 * lost.toNat / 2 ^ 53 + 2 ^ (-1075 : ℤ) * expected.toNat := by
        rw [← hmul]
        ring

/-- What a request takes over from the options. -/
theorem ClientOpts.negotiate_eq_ok {opts : ClientOpts} {fileLen : U64} {neg : Negotiate}
    (h : opts.negotiate fileLen = .ok neg) :
    neg.parallel = opts.parallel ∧ (neg.mode = .file → neg.fileLen = some fileLen) := by
  unfold negotiate at h
  cases hmode : opts.mode with
  | none =>
      rw [hmode] at h
      cases h
  | some mode =>
      rw [hmode] at h
      cases hbitrate : udpBitrate opts mode with
      | error e =>
          simp only [bind, Except.bind, hbitrate] at h
          cases h
      | ok bitrate =>
          simp only [bind, Except.bind, hbitrate] at h
          cases h
          exact ⟨rfl, fun hfile => if_pos hfile⟩

/-- What is printed at the end of a test by a client that had it from its options, in any
    interleaving with its session: the rate, the duration and what the mode adds to
    them, each as true as its digits and one rounding to a double allow. -/
theorem printed_true {opts : ClientOpts} {fileLen : U64}
    (hreq : opts.negotiate fileLen = .ok su.neg) (h : JointReachable su j)
    (hr : j.client = .done r) (hjson : opts.json = false) (pretty : TestResult → String)
    (fmt : Format) :
    ∃ rate secs rest, ReadsBack (r.print pretty fmt su.neg.mode opts) (rate :: secs :: rest) ∧
      |secs - r.durationSecs| ≤ 1 / 20 ∧
      (r.durationSecs = 0 → rate = 0) ∧
      (0 < r.durationSecs → |rate * fmt.unit * r.durationSecs - r.bytes.toNat * 8| ≤
        fmt.unit / (2 * 10 ^ fmt.decimals) * r.durationSecs + r.bytes.toNat * 8 / 2 ^ 53 +
          fmt.unit * 2 ^ (-1075 : ℤ) * r.durationSecs) ∧
      (su.neg.mode = .udp → ∃ lost expected percent jitter,
        rest = [lost, expected, percent, jitter] ∧ lost ≤ expected ∧
        |percent * expected - 100 * lost| ≤
          expected / 200 + 100 * lost / 2 ^ 53 + 2 ^ (-1075 : ℤ) * expected) ∧
      (su.neg.mode = .file → rest = [(fileLen.toNat : ℚ)]) ∧
      (su.neg.mode = .tcp → rest = [(j.world.net.accepted : ℚ)]) := by
  obtain ⟨hparallel, hlen⟩ := ClientOpts.negotiate_eq_ok hreq
  have hsound := h.sound hr
  have hreads := r.reads_print pretty hjson fmt su.neg.mode
  have hrate := hsound.bits
  have hamount : (0 : ℚ) ≤ r.bytes.toNat * 8 := by positivity
  have hzero : r.durationSecs = 0 → fmt.figure r.bitsPerSec = 0 := fun h0 => by
    have hunit : fmt.inUnit 0 = 0 := by cases fmt <;> simp [Format.inUnit]
    rw [hrate.none h0, Format.figure, hunit]
    exact_mod_cast rounded_natCast fmt.decimals 0
  have hshown := hrate.abs_figure_mul_sub_le fmt hamount
  -- one decimal of the duration, or three
  have hsecs : ∀ d, 1 ≤ d → |rounded d r.durationSecs - r.durationSecs| ≤ 1 / 20 := by
    intro d hd
    refine (abs_rounded_sub_le d hrate.nonneg).trans ?_
    have hpow : (10 : ℚ) ^ 1 ≤ 10 ^ d := pow_le_pow_right₀ (by norm_num) hd
    rw [div_le_div_iff₀ (by positivity) (by norm_num)]
    linarith
  cases hmode : su.neg.mode with
  | udp =>
      rw [hmode] at hreads
      have hpercent := (hsound.lossy hmode).percent
      exact ⟨_, _, _, hreads, hsecs 1 le_rfl, hzero, hshown, fun _ => ⟨_, _, _, _, rfl, hpercent⟩,
        fun hm => (by cases hm), fun hm => (by cases hm)⟩
  | file =>
      rw [hmode] at hreads
      have hfile := h.file_bytes hr hmode
      rw [hlen hmode, Option.getD_some] at hfile
      refine ⟨_, _, _, hreads, hsecs 3 (by decide), hzero, hshown, fun hm => (by cases hm),
        fun _ => ?_, fun hm => (by cases hm)⟩
      rw [hfile]
  | tcp =>
      rw [hmode] at hreads
      obtain ⟨-, -, hopened, haccepted⟩ := h.done hr
      have hstreams : j.world.net.accepted = opts.parallel.toNat := by
        rw [haccepted, hopened, streams, hmode, hparallel]
      refine ⟨_, _, _, hreads, hsecs 1 le_rfl, hzero, hshown, fun hm => (by cases hm),
        fun hm => (by cases hm), fun _ => ?_⟩
      rw [hstreams]

end Joint

theorem printed_true_fiveBytes : ∃ j r, JointReachable ⟨fiveBytes, true, 1⟩ j ∧
    j.client = .done r ∧
    ∃ rate secs, ReadsBack (r.print (fun _ => "") .mbps .file fiveByteOpts) [rate, secs, 5] := by
  have hinit : JointReachable ⟨fiveBytes, true, 1⟩ Joint.init := Reachable.start rfl
  obtain ⟨j, hrun, ⟨r, hr⟩, -⟩ := hinit.agree.canReach_final Nat.one_pos
  have hreach := hinit.run hrun
  have hreq : fiveByteOpts.negotiate 5 = .ok fiveBytes := rfl
  obtain ⟨rate, secs, rest, hreads, -, -, -, -, hfile, -⟩ :=
    printed_true hreq hreach hr rfl (fun _ => "") .mbps
  rw [hfile rfl] at hreads
  exact ⟨j, r, hreach, hr, rate, secs, hreads⟩

end Andri

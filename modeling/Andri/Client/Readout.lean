/-
  Andri.Client.Readout

  The send-side progress lines of the two modes that time them on their own, file and
  udp: when they show true interval rates.  Neither divides by the time since the
  line before, as the receive side's samplers do.
-/
import Andri.File.Readout
import Andri.Udp.Readout
import Mathlib.Tactic.NormNum

namespace Andri.Client

open Lib

/-- A file run shows true interval rates exactly when it is quiet or no second line falls
    due; a udp run when it is quiet or between any two due readings, the start
    included, nothing was sent or exactly one second went by. -/
theorem readouts_true_iff (quiet : Bool) :
    (∀ (total : U64) (src : File.Source) (es : List ℕ) (p : File.Reporting),
      LabelledRun (File.Reporting.Step quiet total src) (.start src) es p →
      (TrueRates p.marks ↔ quiet = true ∨ es.Pairwise File.NoNewLine)) ∧
    ∀ (neg : Negotiate) (p : Udp.Showing),
      Reachable Udp.Showing.Init (Udp.Showing.Step neg quiet) p →
      (TrueRates p.marks ↔
        quiet = true ∨ ((0, 0) :: Udp.due p.passes).IsChain Udp.OnSchedule) :=
  ⟨fun _ _ _ _ h => File.Reporting.trueRates_iff h, fun _ _ h => Udp.Showing.trueRates_iff h⟩

/-! ## A late second line, and a late first one -/

/-- A file of three bytes. -/
def threeBytes : File.Source := .disk [1, 2, 3] (by decide)

/-- One byte read by the first second. -/
theorem run_oneByte : ∃ p, LabelledRun (File.Reporting.Step false 3 threeBytes)
    (.start threeBytes) [SECOND] p ∧ p.copy = ⟨1, [2, 3], [1]⟩ ∧ p.clock = SECOND := by
  have hpass : File.Pass 3 threeBytes (.start threeBytes.file) ⟨1, [2, 3], [1]⟩ :=
    .disk (.pass (n := 1) (by decide) (by decide) (by decide) (by decide))
  refine ⟨_, .tail .refl (.pass hpass (Nat.zero_le SECOND)), ?_⟩
  have hdue : (File.Reporting.start threeBytes).report.nextReport ≤ SECOND := le_rfl
  rw [File.Reporting.after_of_due hdue SECOND_pos]
  exact ⟨rfl, rfl⟩

theorem readouts_true_iff_oneByte : ∃ p, LabelledRun (File.Reporting.Step false 3 threeBytes)
    (.start threeBytes) [SECOND] p ∧ TrueRates p.marks := by
  obtain ⟨p, hrun, -⟩ := run_oneByte
  exact ⟨p, hrun, ((readouts_true_iff false).1 3 threeBytes _ p hrun).mpr
    (.inr (List.pairwise_singleton _ _))⟩

/-- One datagram a tick. -/
def oneATick : Negotiate where
  mode := .udp
  durationSecs := 5
  warmupSecs := 0
  parallel := 1
  bufferBytes := 65536
  bidir := false
  bitrateBps := some 11776000
  packetBytes := none
  fileLen := none
  nullSource := none

theorem driveRate_oneATick : Udp.driveRate oneATick = 1 := by
  have hbitrate : (Udp.driveBitrate oneATick).toNat = 11776000 := rfl
  have hbytes : (Udp.packetBytes oneATick).toNat = 1472 := by decide
  have hticks : Udp.TICKS_PER_SEC.toNat = 1000 := rfl
  rw [Udp.driveRate, Udp.packetsPerTick, hbitrate, hbytes, hticks]
  norm_num

/-- A drive that has printed nothing. -/
def unprinted (clock : ℕ) (d : Udp.Drive) : Udp.Showing := ⟨⟨clock, [], 0, []⟩, d, .init, [], []⟩

/-- A first tick that fires two seconds late. -/
theorem reachable_lateBurst : ∃ p, Reachable Udp.Showing.Init (Udp.Showing.Step oneATick false) p ∧
    p.passes = [(2 * SECOND, 1)] := by
  have hinit : Udp.Showing.Init (unprinted 0 .starting) := ⟨rfl, rfl, rfl, rfl⟩
  have hstart : Udp.Showing.Step oneATick false (unprinted 0 .starting)
      (unprinted 0 (.checking 0 0 .init)) :=
    .drive (.start le_rfl le_rfl) fun _ _ _ h => Udp.Drive.noConfusion h
  have hgo : Udp.Showing.Step oneATick false (unprinted 0 (.checking 0 0 .init))
      (unprinted 0 (.ticking 0 0 .init)) :=
    .drive (.go le_rfl (by decide)) fun _ _ _ h => Udp.Drive.noConfusion h
  have htick : Udp.Showing.Step oneATick false (unprinted 0 (.ticking 0 0 .init))
      (unprinted (2 * SECOND) (.bursting 0 (0 + Udp.TICK) ⟨0, 0, 1, []⟩)) := by
    have htick : Udp.SendLoop.init.tick (Udp.driveRate oneATick) = ⟨0, 0, 1, []⟩ := by
      rw [driveRate_oneATick]
      norm_num [Udp.SendLoop.tick, Udp.SendLoop.init, Udp.floorU64]
    rw [← htick]
    exact .drive (.tick (Nat.zero_le _) (Nat.zero_le _)) fun _ _ _ h => Udp.Drive.noConfusion h
  have hlose : Udp.Showing.Step oneATick false
      (unprinted (2 * SECOND) (.bursting 0 (0 + Udp.TICK) ⟨0, 0, 1, []⟩))
      (unprinted (2 * SECOND) (.bursting 0 (0 + Udp.TICK) ⟨1, 0, 0, [0]⟩)) :=
    .drive (.lose Nat.one_pos le_rfl) fun _ _ _ _ h => Udp.Drive.noConfusion h
  have hpass : Udp.Showing.Step oneATick false
      (unprinted (2 * SECOND) (.bursting 0 (0 + Udp.TICK) ⟨1, 0, 0, [0]⟩)) _ :=
    .pass rfl (.sent rfl) (le_refl (2 * SECOND))
  exact ⟨_, (((((Reachable.start hinit).next hstart).next hgo).next htick).next hlose).next hpass,
    rfl⟩

/-- Two lines a second apart of one byte each, the second at half its rate; and a line for
    two seconds of one datagram, at twice its rate. -/
theorem readouts_wrong :
    (∃ p, LabelledRun (File.Reporting.Step false 3 threeBytes) (.start threeBytes)
      [SECOND, 2 * SECOND] p ∧ ¬ TrueRates p.marks) ∧
    ∃ p, Reachable Udp.Showing.Init (Udp.Showing.Step oneATick false) p ∧
      ¬ TrueRates p.marks := by
  constructor
  · obtain ⟨p, hrun, hcopy, hclock⟩ := run_oneByte
    have hpass : File.Pass 3 threeBytes p.copy ⟨2, [3], [1, 2]⟩ := by
      rw [hcopy]
      exact .disk (.pass (n := 1) (by decide) (by decide) (by decide) (by decide))
    have hlater : p.clock ≤ 2 * SECOND := by omega
    have hrun' := hrun.tail (.pass hpass hlater)
    refine ⟨_, hrun', ?_⟩
    rw [File.Reporting.trueRates_iff hrun']
    rintro (h | h)
    · exact Bool.false_ne_true h
    · have hnear := List.rel_of_pairwise_cons h (List.mem_singleton_self _) le_rfl
      omega
  · obtain ⟨p, hp, hpasses⟩ := reachable_lateBurst
    refine ⟨p, hp, ?_⟩
    have hdue : Udp.due p.passes = [(2 * SECOND, 1)] := by
      have hready : ((List.length ([] : List (ℕ × ℕ))) + 1) * SECOND ≤ 2 * SECOND := by
        rw [List.length_nil]
        omega
      rw [hpasses, Udp.due, List.foldl_cons, List.foldl_nil, Udp.dueNext, if_pos hready,
        List.nil_append]
    rw [Udp.Showing.trueRates_iff hp, hdue, List.isChain_pair]
    rintro (h | h | h)
    · exact Bool.false_ne_true h
    · exact Nat.one_ne_zero h
    · have hpos := SECOND_pos
      omega

end Andri.Client

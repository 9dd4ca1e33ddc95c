/-
  Andri.Udp.LossJitter

  The receiver's accumulator of `src/modes/udp.rs`: `LossJitter` with `observe`,
  `snapshot` and `into_result`.

  Sequence numbers and clock readings are 64-bit words; signed transit times
  are the same words read in two's complement, so `-` and `abs` wrap as in the
  release build.  The byte and packet counts are naturals: a `u64` of either
  is out of reach of any run, and the reported fields reduce modulo `2 ^ 64`.
  The `f64` jitter state is an exact rational.
-/
import Andri.Proto.Msg
import Mathlib.Algebra.Order.Field.Rat

namespace Andri.Udp

open Lib

/-- RFC 3550 smoothing gain. -/
def JITTER_GAIN : ℚ := 1 / 16

/-- Point-in-time totals for the once-per-second readout. -/
structure Snapshot where
  bytes : Nat
  lost : Nat
  jitterMs : ℚ

/-- Loss and jitter state across received datagrams. -/
structure LossJitter where
  warmupPackets : U64
  bytes : Nat
  received : Nat
  minSeq : Option U64
  maxSeq : U64
  prevTransit : Option U64
  jitterNs : ℚ

/-- The arguments of one call to `observe`. -/
structure Datagram where
  seq : U64
  sendNs : U64
  recvNs : U64
  n : Nat
deriving DecidableEq

namespace LossJitter

/-- `LossJitter::new`. -/
def new (warmupPackets : U64) : LossJitter where
  warmupPackets
  bytes := 0
  received := 0
  minSeq := none
  maxSeq := 0
  prevTransit := none
  jitterNs := 0

/-- The smoothed jitter after one more transit time. -/
def smooth (jitterNs : ℚ) (prevTransit : Option U64) (transit : U64) : ℚ :=
  match prevTransit with
  | some prev =>
      let d : ℚ := (transit - prev).abs.toInt
      jitterNs + (d - jitterNs) * JITTER_GAIN
  | none => jitterNs

/-- `LossJitter::observe`. -/
def observe (self : LossJitter) (d : Datagram) : LossJitter :=
  if d.seq < self.warmupPackets then
    self
  else
    let transit := d.recvNs - d.sendNs
    { self with
      bytes := self.bytes + d.n
      received := self.received + 1
      minSeq := some (match self.minSeq with | none => d.seq | some m => umin m d.seq)
      maxSeq := umax self.maxSeq d.seq
      jitterNs := smooth self.jitterNs self.prevTransit transit
      prevTransit := some transit }

/-- The span of sequence numbers seen, in `u64` arithmetic. -/
def expected (self : LossJitter) : U64 :=
  match self.minSeq with
  | some min => self.maxSeq - min + 1
  | none => 0

/-- The running loss total, `expected.saturating_sub(received)`. -/
def lost (self : LossJitter) : Nat := self.expected.toNat - self.received

/-- `LossJitter::snapshot`. -/
def snapshot (self : LossJitter) : Snapshot where
  bytes := self.bytes
  lost := self.lost
  jitterMs := self.jitterNs / 10 ^ 6

/-- `LossJitter::into_result`. -/
def intoResult (self : LossJitter) (secs : ℚ) : TestResult where
  role := .receive
  bytes := BitVec.ofNat 64 self.bytes
  durationSecs := secs
  bitsPerSec := if secs > 0 then (BitVec.ofNat 64 self.bytes).toNat * 8 / secs else 0
  bytesPerSec := if secs > 0 then (BitVec.ofNat 64 self.bytes).toNat / secs else 0
  packetsExpected := some self.expected
  packetsReceived := some (BitVec.ofNat 64 self.received)
  packetsLost := some (BitVec.ofNat 64 self.lost)
  lossRatio := some (if self.expected > 0 then (self.lost : ℚ) / self.expected.toNat else 0)
  jitterMs := some (self.jitterNs / 10 ^ 6)
  samples := []

/-- The accumulator after a whole arrival sequence. -/
def observeAll (warmupPackets : U64) (ds : List Datagram) : LossJitter :=
  ds.foldl observe (new warmupPackets)

/-! ## Field equations of `observe` -/

variable (self : LossJitter) (d : Datagram)

@[simp] theorem observe_warmupPackets :
    (self.observe d).warmupPackets = self.warmupPackets := by
  unfold observe
  split <;> rfl

theorem observe_of_lt (h : d.seq < self.warmupPackets) : self.observe d = self := by
  rw [observe, if_pos h]

/-- What an in-window datagram does to the counters and the extremes. -/
theorem observe_of_le (h : self.warmupPackets ≤ d.seq) :
    (self.observe d).bytes = self.bytes + d.n ∧
    (self.observe d).received = self.received + 1 ∧
    (self.observe d).minSeq =
      some (match self.minSeq with | none => d.seq | some m => umin m d.seq) ∧
    (self.observe d).maxSeq = umax self.maxSeq d.seq := by
  -- an in-window datagram passes the guard
  have hlt : ¬ d.seq < self.warmupPackets := BitVec.not_lt.mpr h
  simp [observe, if_neg hlt]

/-- The loss total fits the word it is reported in. -/
theorem lost_lt : self.lost < 2 ^ 64 := by
  have h := self.expected.isLt
  unfold lost
  omega

/-! ## In-window arrivals -/

/-- The datagrams that count, in arrival order. -/
def inWindow (W : U64) (ds : List Datagram) : List Datagram := ds.filter fun d => W ≤ d.seq

theorem inWindow_cons (W : U64) (d : Datagram) (ds : List Datagram) :
    inWindow W (d :: ds) = if W ≤ d.seq then d :: inWindow W ds else inWindow W ds := by
  rw [inWindow, List.filter_cons]
  by_cases h : W ≤ d.seq <;> simp [h, inWindow]

theorem mem_inWindow {W : U64} {d : Datagram} {ds : List Datagram} :
    d ∈ inWindow W ds ↔ d ∈ ds ∧ W ≤ d.seq := by
  simp [inWindow]

/-- Datagrams of the warm-up leave no trace in the accumulator. -/
theorem foldl_observe_inWindow (acc : LossJitter) (ds : List Datagram) :
    ds.foldl observe acc = (inWindow acc.warmupPackets ds).foldl observe acc := by
  induction ds generalizing acc with
  | nil => rfl
  | cons d ds ih =>
      rw [List.foldl_cons, inWindow_cons]
      by_cases hd : acc.warmupPackets ≤ d.seq
      · rw [if_pos hd, List.foldl_cons, ih, observe_warmupPackets]
      · rw [if_neg hd, observe_of_lt acc d (BitVec.not_le.mp hd), ih]

theorem observeAll_inWindow (W : U64) (ds : List Datagram) :
    observeAll W ds = (inWindow W ds).foldl observe (new W) :=
  foldl_observe_inWindow (new W) ds

end LossJitter

end Andri.Udp

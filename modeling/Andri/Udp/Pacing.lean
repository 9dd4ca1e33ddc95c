/-
  Andri.Udp.Pacing

  The send loop of `udp::drive` in `src/modes/udp.rs`: every tick adds the
  per-tick rate to the carry, sends the integer part as a burst of stamped
  datagrams and keeps the fraction.  The `f64` rate and carry are exact
  rationals; the sequence counter is a natural.

  The loop is the floor-and-carry accumulator of the library, so after `k`
  ticks it has stamped the sequence numbers below the floor of `k` times the rate.
  The server's warm-up threshold is compared with that count.
-/
import Andri.Lib.FloorCarry
import Andri.Udp.Params
import Mathlib.Algebra.Order.Floor.Semifield
import Mathlib.Data.Rat.Floor
import Mathlib.Tactic.FieldSimp
import Mathlib.Tactic.Positivity
import Mathlib.Tactic.NormNum

namespace Andri.Udp

open Lib

/-- `x.floor() as u64`: the cast saturates, and sends negatives to 0. -/
def floorU64 (x : ℚ) : ℕ := min ⌊x⌋₊ (2 ^ 64 - 1)

/-- The mutable state of `drive`'s send loop, with the sequence numbers it has
    stamped so far. -/
structure SendLoop where
  seq : ℕ
  carry : ℚ
  toSend : ℕ
  stamped : List ℕ

namespace SendLoop

/-- The state before the first tick. -/
def init : SendLoop where
  seq := 0
  carry := 0
  toSend := 0
  stamped := []

/-- The head of an iteration: accumulate, take the integer part. -/
def tick (rate : ℚ) (s : SendLoop) : SendLoop :=
  let carry := s.carry + rate
  let toSend := floorU64 carry
  { s with carry := carry - toSend, toSend }

/-- One pass of the inner loop: stamp and send a datagram. -/
def send (s : SendLoop) : SendLoop :=
  { s with seq := s.seq + 1, toSend := s.toSend - 1, stamped := s.stamped ++ [s.seq] }

/-- The inner loop, `while to_send > 0`. -/
def burst (s : SendLoop) : SendLoop := send^[s.toSend] s

/-- One iteration of the pacing loop. -/
def iteration (rate : ℚ) (s : SendLoop) : SendLoop := (s.tick rate).burst

/-- The loop after `k` iterations. -/
def after (rate : ℚ) (k : ℕ) : SendLoop := (iteration rate)^[k] init

theorem after_succ (rate : ℚ) (k : ℕ) : after rate (k + 1) = (after rate k).iteration rate :=
  Function.iterate_succ_apply' _ _ _

/-! ## The inner loop -/

/-- `n` passes of the inner loop stamp the next `n` sequence numbers. -/
theorem iterate_send (s : SendLoop) (n : ℕ) :
    send^[n] s = { s with
      seq := s.seq + n, toSend := s.toSend - n, stamped := s.stamped ++ List.range' s.seq n } := by
  induction n with
  | zero => simp
  | succ n ih =>
      rw [Function.iterate_succ_apply', ih, send]
      simp only [SendLoop.mk.injEq, true_and]
      refine ⟨by omega, by omega, ?_⟩
      rw [List.append_assoc, ← List.range'_append_1 (s := s.seq) (m := n) (n := 1)]
      rfl

theorem burst_eq (s : SendLoop) :
    s.burst = { s with
      seq := s.seq + s.toSend, toSend := 0,
      stamped := s.stamped ++ List.range' s.seq s.toSend } := by
  rw [burst, iterate_send, Nat.sub_self]

/-! ## The whole loop -/

/-- The loop stands where the accumulator does: the count is the sequence
    number, every number below it has been stamped in order, no burst is open. -/
structure Tracks (s : SendLoop) (acc : FloorCarry ℚ) : Prop where
  seq : s.seq = acc.emitted
  carry : s.carry = acc.carry
  toSend : s.toSend = 0
  stamped : s.stamped = List.range acc.emitted

theorem tracks_init : Tracks init (⟨0, 0⟩ : FloorCarry ℚ) where
  seq := rfl
  carry := rfl
  toSend := rfl
  stamped := rfl

/-- An iteration is a tick of the accumulator, as long as a tick's share fits
    the word it is cast to. -/
theorem Tracks.iteration {s : SendLoop} {acc : FloorCarry ℚ} {rate : ℚ} (h : Tracks s acc)
    (hfit : acc.carry + rate < 2 ^ 64) : Tracks (s.iteration rate) (acc.tick rate) := by
  -- the cast does not saturate
  have hfloor : floorU64 (acc.carry + rate) = ⌊acc.carry + rate⌋₊ := by
    apply min_eq_left
    have hlt : ⌊acc.carry + rate⌋₊ < 2 ^ 64 := by
      rw [Nat.floor_lt' (by norm_num)]
      exact_mod_cast hfit
    omega
  rw [SendLoop.iteration, burst_eq]
  refine ⟨?_, ?_, rfl, ?_⟩
  · simp [tick, FloorCarry.tick, h.seq, h.carry, hfloor]
  · simp [tick, FloorCarry.tick, h.carry, hfloor]
  · simp only [tick, h.seq, h.carry, hfloor, h.stamped, FloorCarry.tick, List.range_eq_range']
    rw [← List.range'_append_1 (s := 0), Nat.zero_add]

/-- The loop tracks the accumulator through every number of ticks. -/
theorem tracks_after {rate : ℚ} (h0 : 0 ≤ rate) (hfit : rate + 1 < 2 ^ 64) (k : ℕ) :
    Tracks (after rate k) (FloorCarry.offered (k * rate)) := by
  rw [← FloorCarry.iterate_tick h0]
  induction k with
  | zero => exact tracks_init
  | succ k ih =>
      rw [after_succ, Function.iterate_succ_apply']
      apply ih.iteration
      -- a tick's share is the rate and a fraction
      have hcarry : ((FloorCarry.tick rate)^[k] ⟨0, 0⟩).carry < 1 := by
        rw [FloorCarry.iterate_tick h0]
        exact (FloorCarry.carry_offered (mul_nonneg (Nat.cast_nonneg k) h0)).2
      linarith

end SendLoop

/-! ## The rate -/

theorem packetsPerTick_nonneg (bitrate : U64) (packetBytes : Usize) (ticksPerSec : U64) :
    0 ≤ packetsPerTick bitrate packetBytes ticksPerSec := by
  unfold packetsPerTick
  positivity

/-- With the header inside the packet, a tick's share is far below `2 ^ 64`. -/
theorem packetsPerTick_lt (bitrate : U64) {packetBytes : Usize} (hp : 16 ≤ packetBytes.toNat) :
    packetsPerTick bitrate packetBytes TICKS_PER_SEC + 1 < 2 ^ 64 := by
  have hb : (bitrate.toNat : ℚ) ≤ 2 ^ 64 := by exact_mod_cast bitrate.isLt.le
  have hp' : (16 : ℚ) ≤ packetBytes.toNat := by exact_mod_cast hp
  have hticks : ((TICKS_PER_SEC.toNat : ℕ) : ℚ) = 1000 := rfl
  have hle : packetsPerTick bitrate packetBytes TICKS_PER_SEC ≤ 2 ^ 64 / (16 * 8) / 1000 := by
    simp only [packetsPerTick, hticks]
    gcongr
  refine lt_of_le_of_lt (add_le_add_left hle 1) ?_
  norm_num

/-- The send loop of `drive` after `k` ticks. -/
def driveAfter (neg : Negotiate) (k : ℕ) : SendLoop :=
  SendLoop.after (packetsPerTick (driveBitrate neg) (packetBytes neg) TICKS_PER_SEC) k

/-- After `secs` seconds' worth of ticks the loop has sent the whole packets
    that `secs` seconds of the bitrate hold. -/
theorem driveAfter_seq (neg : Negotiate) (secs : ℕ) :
    (driveAfter neg (secs * TICKS_PER_SEC.toNat)).seq =
      secs * (driveBitrate neg).toNat / ((packetBytes neg).toNat * 8) := by
  have hp := packetBytes_ge neg
  have htracks := SendLoop.tracks_after (packetsPerTick_nonneg (driveBitrate neg) (packetBytes neg)
    TICKS_PER_SEC) (packetsPerTick_lt (driveBitrate neg) hp) (secs * TICKS_PER_SEC.toNat)
  have hticks : ((TICKS_PER_SEC.toNat : ℕ) : ℚ) ≠ 0 := by decide
  have hpos : ((packetBytes neg).toNat : ℚ) ≠ 0 := by
    have : (packetBytes neg).toNat ≠ 0 := by omega
    exact_mod_cast this
  -- as many ticks as there are in the seconds cancel the rate per tick
  have hoffered : ((secs * TICKS_PER_SEC.toNat : ℕ) : ℚ) *
      packetsPerTick (driveBitrate neg) (packetBytes neg) TICKS_PER_SEC =
      ((secs * (driveBitrate neg).toNat : ℕ) : ℚ) / (((packetBytes neg).toNat * 8 : ℕ) : ℚ) := by
    unfold packetsPerTick
    push_cast
    field_simp
  rw [driveAfter, htracks.seq, FloorCarry.offered, hoffered, Nat.floor_div_eq_div]

/-! ## Warm-up: the server's threshold against the client's count -/

/-- Truncating the per-second rate first loses packets exactly when the lost
    fractions add up to one. -/
theorem mul_div_eq_div_mul_iff {b d w : ℕ} (hd : 0 < d) :
    b / d * w = w * b / d ↔ w * (b % d) < d := by
  have hsplit : w * b = d * (w * (b / d)) + w * (b % d) := by
    conv_lhs => rw [← Nat.div_add_mod b d]
    ring
  rw [hsplit, Nat.mul_add_div hd, Nat.mul_comm (b / d) w]
  constructor
  · intro h
    exact (Nat.div_eq_zero_iff_lt hd).mp (by omega)
  · intro h
    rw [Nat.div_eq_of_lt h, Nat.add_zero]

/-- The server's threshold is the number of datagrams sent during warm-up
    exactly when the fractions of a packet the server drops each second do not
    add up to a packet over the warm-up; without a bitrate in the request the
    server counts none, which is right only when the client's default load
    sends none. -/
theorem warmupPackets_eq_sent_iff (neg : Negotiate)
    (hbits : (packetBytes neg).toNat * 8 < 2 ^ 64)
    (hwarm : (neg.bitrateBps.getD 0).toNat / ((packetBytes neg).toNat * 8) * neg.warmupSecs.toNat
      < 2 ^ 64) :
    (warmupPackets neg).toNat =
        (driveAfter neg (neg.warmupSecs.toNat * TICKS_PER_SEC.toNat)).seq ↔
      match neg.bitrateBps with
      | some b => neg.warmupSecs.toNat * (b.toNat % ((packetBytes neg).toNat * 8)) <
          (packetBytes neg).toNat * 8
      | none => neg.warmupSecs.toNat * 1000000000 < (packetBytes neg).toNat * 8 := by
  have hp := packetBytes_ge neg
  have hd : 0 < (packetBytes neg).toNat * 8 := by omega
  rw [← toNat_pps hbits] at hwarm
  rw [(toNat_warmupPackets_eq_iff neg).mpr hwarm, toNat_pps hbits, driveAfter_seq]
  -- the two sides have different defaults for the bitrate
  cases hb : neg.bitrateBps with
  | some b => simpa [driveBitrate, hb] using mul_div_eq_div_mul_iff hd
  | none =>
      have hdefault : (driveBitrate neg).toNat = 1000000000 := by
        simp [driveBitrate, hb]
      have hzero : ((none : Option U64).getD 0).toNat = 0 := rfl
      rw [hdefault, hzero, Nat.zero_div, Nat.zero_mul, eq_comm, Nat.div_eq_zero_iff_lt hd]

/-- A UDP request at 20 kbit/s in packets of the default size, with two seconds
    of warm-up. -/
def slowRequest : Negotiate where
  mode := .udp
  durationSecs := 10
  warmupSecs := 2
  parallel := 1
  bufferBytes := 65536
  bidir := false
  bitrateBps := some 20000
  packetBytes := none
  fileLen := none
  nullSource := none

/-- One and a fraction packets a second: the server excludes two, the client has
    sent three. -/
theorem warmupPackets_short :
    (warmupPackets slowRequest).toNat = 2 ∧
    (driveAfter slowRequest (slowRequest.warmupSecs.toNat * TICKS_PER_SEC.toNat)).seq = 3 ∧
    ¬ ∀ neg : Negotiate, neg.mode = .udp → (packetBytes neg).toNat * 8 < 2 ^ 64 →
      (neg.bitrateBps.getD 0).toNat / ((packetBytes neg).toNat * 8) * neg.warmupSecs.toNat
        < 2 ^ 64 →
      (warmupPackets neg).toNat =
        (driveAfter neg (neg.warmupSecs.toNat * TICKS_PER_SEC.toNat)).seq := by
  have hserver : (warmupPackets slowRequest).toNat = 2 := by decide
  have hclient :
      (driveAfter slowRequest (slowRequest.warmupSecs.toNat * TICKS_PER_SEC.toNat)).seq = 3 := by
    rw [driveAfter_seq]
    decide
  refine ⟨hserver, hclient, fun hall => ?_⟩
  have h := hall slowRequest rfl (by decide) (by decide)
  rw [hserver, hclient] at h
  exact absurd h (by decide)

/-- At the same rate, one second of warm-up agrees. -/
theorem warmupPackets_eq_sent_one_second :
    (warmupPackets { slowRequest with warmupSecs := 1 }).toNat =
        (driveAfter { slowRequest with warmupSecs := 1 } (1 * TICKS_PER_SEC.toNat)).seq ↔
      1 * (20000 % (1472 * 8)) < 1472 * 8 :=
  warmupPackets_eq_sent_iff { slowRequest with warmupSecs := 1 } (by decide) (by decide)

end Andri.Udp

/-
  Andri.Udp.Drive

  `udp::drive` of `src/modes/udp.rs` around its send loop: check the elapsed time,
  wait for the pacing tick, send the burst.  A datagram sent reaches the
  server's socket or is lost.
-/
import Andri.Meter
import Andri.Net
import Andri.Udp.Header
import Andri.Udp.Pacing

namespace Andri.Udp

open Lib

/-- Program points of `drive`; the locals are the start, the ticker's next instant
    and the send loop's state. -/
inductive Drive
  | starting
  | checking (t0 next : ℕ) (s : SendLoop)
  | ticking (t0 next : ℕ) (s : SendLoop)
  | bursting (t0 next : ℕ) (s : SendLoop)
  | returned

/-- `Duration::from_secs(neg.duration_secs + neg.warmup_secs)`. -/
def total (neg : Negotiate) : ℕ := fromSecs (neg.durationSecs + neg.warmupSecs)

/-- `Duration::from_micros(1_000_000 / TICKS_PER_SEC)`. -/
def TICK : ℕ := 1000000 / TICKS_PER_SEC.toNat * 1000

/-- The rate `drive` paces at. -/
def driveRate (neg : Negotiate) : ℚ :=
  packetsPerTick (driveBitrate neg) (packetBytes neg) TICKS_PER_SEC

/-- The datagram stamped next, over a payload of random bytes. -/
def datagram (payload : List Byte) (t0 now : ℕ) (s : SendLoop) : List Byte :=
  stamp payload (BitVec.ofNat 64 s.seq) (BitVec.ofNat 64 (now - t0))

/-- Steps of `drive`, with the net before and after. -/
inductive Drive.Step (neg : Negotiate) : Net → Drive → Net → Drive → Prop
  | start {net : Net} {t0 tick0 : ℕ} (hnow : net.clock ≤ t0) (hle : t0 ≤ tick0) :
      Step neg net .starting { net with clock := tick0 } (.checking t0 tick0 .init)
  | go {net : Net} {t0 next now : ℕ} {s : SendLoop} (hnow : net.clock ≤ now)
      (hbefore : now - t0 < total neg) :
      Step neg net (.checking t0 next s) { net with clock := now } (.ticking t0 next s)
  | finish {net : Net} {t0 next now : ℕ} {s : SendLoop} (hnow : net.clock ≤ now)
      (hpast : total neg ≤ now - t0) :
      Step neg net (.checking t0 next s) { net with clock := now } .returned
  | tick {net : Net} {t0 next now : ℕ} {s : SendLoop} (hnow : net.clock ≤ now)
      (hdue : next ≤ now) :
      Step neg net (.ticking t0 next s) { net with clock := now }
        (.bursting t0 (next + TICK) (s.tick (driveRate neg)))
  | send {net : Net} {t0 next now : ℕ} {s : SendLoop} {payload : List Byte}
      (hmore : 0 < s.toSend) (hnow : net.clock ≤ now)
      (hlen : payload.length = (packetBytes neg).toNat) :
      Step neg net (.bursting t0 next s)
        { net with clock := now, dgrams := net.dgrams ++ [datagram payload t0 now s] }
        (.bursting t0 next s.send)
  | lose {net : Net} {t0 next now : ℕ} {s : SendLoop} (hmore : 0 < s.toSend)
      (hnow : net.clock ≤ now) :
      Step neg net (.bursting t0 next s) { net with clock := now } (.bursting t0 next s.send)
  | sent {net : Net} {t0 next : ℕ} {s : SendLoop} (hnone : s.toSend = 0) :
      Step neg net (.bursting t0 next s) net (.checking t0 next s)

/-! ## The drive ends -/

/-- Steps until the time is up. -/
def Drive.rank (neg : Negotiate) : Drive → ℕ
  | .starting => 2
  | .checking _ _ _ => 1
  | .ticking _ _ s => (s.tick (driveRate neg)).toSend + 3
  | .bursting _ _ s => s.toSend + 2
  | .returned => 0

theorem Drive.Step.conns_eq {neg : Negotiate} {net net' : Net} {d d' : Drive}
    (h : Step neg net d net' d') : net'.conns = net.conns := by
  cases h <;> rfl

/-- A drive that is not over has a step towards its end. -/
theorem Drive.exists_step {d : Drive} (neg : Negotiate) (net : Net) (hr : d ≠ .returned) :
    ∃ net' d', Step neg net d net' d' ∧ d'.rank neg < d.rank neg := by
  cases d with
  | returned => exact absurd rfl hr
  | starting => exact ⟨_, _, .start (le_refl net.clock) (le_refl net.clock), by simp [rank]⟩
  | checking t0 next s =>
      -- the check is made when the time is up
      have hpast : total neg ≤ max net.clock (t0 + total neg) - t0 := by omega
      exact ⟨_, _, .finish (le_max_left net.clock _) hpast, by simp [rank]⟩
  | ticking t0 next s =>
      exact ⟨_, _, .tick (le_max_left net.clock next) (le_max_right _ _), by simp [rank]⟩
  | bursting t0 next s =>
      rcases Nat.eq_zero_or_pos s.toSend with hzero | hpos
      · exact ⟨net, _, .sent hzero, by simp [rank]⟩
      -- a datagram lost leaves the server's socket as it is
      · refine ⟨_, _, .lose hpos (le_refl net.clock), ?_⟩
        simp only [rank, SendLoop.send]
        omega

end Andri.Udp

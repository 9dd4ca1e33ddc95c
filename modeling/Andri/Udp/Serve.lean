/-
  Andri.Udp.Serve

  `udp::serve` of `src/modes/udp.rs`: one task that selects between the `stop`
  future, the one-second ticker and the socket.
-/
import Andri.Meter
import Andri.Net
import Andri.Udp.Header
import Andri.Udp.LossJitter

namespace Andri.Udp

open Lib

/-- Locals of the select loop. -/
structure Loop where
  t0 : ℕ
  acc : LossJitter
  measureStart : Option ℕ
  next : ℕ
  last : Snapshot
  lastT : ℕ
  samples : List Sample

/-- Program points of `serve`: before the loop, in it, past its `break`,
    returned. -/
inductive Serve
  | starting
  | selecting (l : Loop)
  | stopped (l : Loop)
  | returned (r : TestResult)

/-- The loop entered with `t0`, its ticker started at `tick0`. -/
def Loop.start (neg : Negotiate) (t0 tick0 : ℕ) : Loop where
  t0
  acc := .new (warmupPackets neg)
  measureStart := none
  next := tick0 + SECOND
  last := (LossJitter.new (warmupPackets neg)).snapshot
  lastT := t0
  samples := []

/-- The sample a tick at `now` appends. -/
def Loop.reading (now : ℕ) (l : Loop) : Sample :=
  let cur := l.acc.snapshot
  let intervalBytes : U64 := BitVec.ofNat 64 (cur.bytes - l.last.bytes)
  let secs := asSecsF64 (now - l.lastT)
  { tSecs := asSecsF64 (now - l.t0)
    bytes := intervalBytes
    bitsPerSec := if secs > 0 then intervalBytes.toNat * 8 / secs else 0
    packetsLost := some (BitVec.ofNat 64 (cur.lost - l.last.lost))
    jitterMs := some cur.jitterMs }

/-- The ticker's branch. -/
def Loop.tick (now : ℕ) (l : Loop) : Loop :=
  { l with
    next := l.next + SECOND
    last := l.acc.snapshot
    lastT := now
    samples := l.samples ++ [l.reading now] }

/-- The socket's branch: the transit is taken at `now`, the start of the
    measurement at `started`. -/
def Loop.receive (now started : ℕ) (buf : List Byte) (l : Loop) : Loop :=
  match unstamp buf with
  | none => l
  | some (seq, sendNs) =>
      { l with
        measureStart :=
          if l.acc.warmupPackets ≤ seq ∧ l.measureStart = none then some started
          else l.measureStart
        acc := l.acc.observe ⟨seq, sendNs, BitVec.ofNat 64 (now - l.t0), buf.length⟩ }

/-- What `serve` returns when it reads the clock at `now`. -/
def Loop.result (now : ℕ) (l : Loop) : TestResult :=
  let secs := match l.measureStart with
    | some s => asSecsF64 (now - s)
    | none => 0
  { l.acc.intoResult secs with samples := l.samples }

/-- The `stop` future resolves. -/
def Serve.onStop : Serve → Option Serve
  | .selecting l => some (.stopped l)
  | _ => none

/-- Steps of `serve`, with the net before and after. -/
inductive Step (neg : Negotiate) : Net → Serve → Net → Serve → Prop
  | start {net : Net} {t0 tick0 : ℕ} (hnow : net.clock ≤ t0) (hle : t0 ≤ tick0) :
      Step neg net .starting { net with clock := tick0 } (.selecting (.start neg t0 tick0))
  | tick {net : Net} {l : Loop} {now : ℕ} (hnow : net.clock ≤ now) (hdue : l.next ≤ now) :
      Step neg net (.selecting l) { net with clock := now } (.selecting (l.tick now))
  | recv {net : Net} {l : Loop} {now started : ℕ} {buf : List Byte} {rest : List (List Byte)}
      (hbuf : net.dgrams = buf :: rest) (hnow : net.clock ≤ now) (hle : now ≤ started) :
      Step neg net (.selecting l) { net with clock := started, dgrams := rest }
        (.selecting (l.receive now started buf))
  | finish {net : Net} {l : Loop} {now : ℕ} (hnow : net.clock ≤ now) :
      Step neg net (.stopped l) { net with clock := now } (.returned (l.result now))

theorem Step.clock_le {neg : Negotiate} {net net' : Net} {s s' : Serve}
    (h : Step neg net s net' s') : net.clock ≤ net'.clock := by
  cases h with
  | start hnow hle | recv hbuf hnow hle => exact hnow.trans hle
  | tick hnow | finish hnow => exact hnow

end Andri.Udp

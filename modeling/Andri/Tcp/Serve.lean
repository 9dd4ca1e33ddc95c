/-
  Andri.Tcp.Serve

  `tcp::serve` of `src/modes/tcp.rs` as interleaved tasks: the accept loop, one
  receive loop per stream, the sampler, the warm-up snapshot, and the main
  task, which waits for Stop, takes the final snapshot and joins the others.
  Every counter load is a step of its own; a read of a receive loop and the add of
  its bytes are one, and `Andri.Client.Recv` has them apart.
-/
import Andri.Meter
import Andri.Net
import Andri.Tcp.Params

namespace Andri.Tcp

open Lib

/-- The whole sending window. -/
def window (neg : Negotiate) : ℕ := fromSecs (windowSecs neg)

/-- The warm-up snapshot task: not polled yet, sleeping until the end of warm-up,
    summing the counters, returned with the bytes and the instant. -/
inductive WarmupSnap
  | spawned
  | sleeping (wake : ℕ)
  | reading (k sum : ℕ)
  | returned (bytes at_ : ℕ)

/-- Steps of the warm-up snapshot task. -/
inductive WarmupSnap.Step (warmup : ℕ) (counters : List ℕ) :
    ℕ → WarmupSnap → ℕ → WarmupSnap → Prop
  | poll {clock now : ℕ} (hnow : clock ≤ now) :
      Step warmup counters clock .spawned now (.sleeping (now + warmup))
  | wake {clock now wake : ℕ} (hnow : clock ≤ now) (hdue : wake ≤ now) :
      Step warmup counters clock (.sleeping wake) now (.reading 0 0)
  | load {clock k sum b : ℕ} (hk : counters[k]? = some b) :
      Step warmup counters clock (.reading k sum) clock (.reading (k + 1) (sum + b))
  | done {clock now k sum : ℕ} (hnow : clock ≤ now) (hk : k = counters.length) :
      Step warmup counters clock (.reading k sum) now (.returned sum now)

/-- The main task once the tasks are spawned: `stop.await`, the final snapshot,
    `sampler.await`, `warmup_snap.await`. -/
inductive Main
  | awaitingStop
  | reading (k sum : ℕ)
  | joiningSampler (finalBytes finalAt : ℕ)
  | joiningWarmup (finalBytes finalAt : ℕ) (samples : List Sample)

/-- The tasks of a measurement. -/
structure Tasks where
  t0 : ℕ
  counters : List ℕ
  sampler : Sampler
  warmup : WarmupSnap
  main : Main

/-- Program points of `serve`. -/
inductive Serve
  | accepting (k : ℕ)
  | measuring (t : Tasks)
  | returned (r : TestResult)

/-- The tasks just spawned over `n` streams. -/
def Tasks.spawn (t0 n : ℕ) : Tasks where
  t0
  counters := List.replicate n 0
  sampler := .spawned
  warmup := .spawned
  main := .awaitingStop

/-- The authoritative result: everything after the warm-up snapshot. -/
def result (finalBytes finalAt warmupBytes warmupAt : ℕ) (samples : List Sample) : TestResult :=
  let bytes : U64 := BitVec.ofNat 64 (finalBytes - warmupBytes)
  let secs := asSecsF64 (finalAt - warmupAt)
  { role := .receive
    bytes
    durationSecs := secs
    bitsPerSec := Andri.bitsPerSec bytes secs
    bytesPerSec := Andri.bytesPerSec bytes secs
    packetsExpected := none
    packetsReceived := none
    packetsLost := none
    lossRatio := none
    jitterMs := none
    samples }

/-- The `stop` future resolves. -/
def Serve.onStop : Serve → Option Serve
  | .measuring t =>
      match t.main with
      | .awaitingStop => some (.measuring { t with main := .reading 0 0 })
      | _ => none
  | _ => none

/-- A read of `n` bytes from a connection. -/
def takeBytes (net : Net) (i n : ℕ) (c : Conn) : Net :=
  { net with conns := net.conns.set i { c with taken := c.taken + n } }

/-- Steps of `serve`, with the net before and after. -/
inductive Step (neg : Negotiate) : Net → Serve → Net → Serve → Prop
  | accept {net : Net} {k : ℕ} (hk : k < neg.parallel.toNat)
      (hpending : net.accepted < net.conns.length) :
      Step neg net (.accepting k) { net with accepted := net.accepted + 1 } (.accepting (k + 1))
  | spawn {net : Net} {k now : ℕ} (hk : k = neg.parallel.toNat) (hnow : net.clock ≤ now) :
      Step neg net (.accepting k) { net with clock := now } (.measuring (.spawn now k))
  /-- `recv_loop`: a read and the add of its bytes, taken together. -/
  | recv {net : Net} {t : Tasks} {i n b : ℕ} {c : Conn} (hc : net.conns[i]? = some c)
      (hb : t.counters[i]? = some b) (hn : 0 < n) (hle : n ≤ min c.unread READ_BUF) :
      Step neg net (.measuring t) (takeBytes net i n c)
        (.measuring { t with counters := t.counters.set i (b + n) })
  | sampler {net : Net} {t : Tasks} {clock' : ℕ} {s' : Sampler}
      (h : Sampler.Step t.t0 (window neg) t.counters net.clock t.sampler clock' s') :
      Step neg net (.measuring t) { net with clock := clock' } (.measuring { t with sampler := s' })
  | warmup {net : Net} {t : Tasks} {clock' : ℕ} {w' : WarmupSnap}
      (h : WarmupSnap.Step (fromSecs neg.warmupSecs) t.counters net.clock t.warmup clock' w') :
      Step neg net (.measuring t) { net with clock := clock' } (.measuring { t with warmup := w' })
  | finalLoad {net : Net} {t : Tasks} {k sum b : ℕ} (hmain : t.main = .reading k sum)
      (hk : t.counters[k]? = some b) :
      Step neg net (.measuring t) net (.measuring { t with main := .reading (k + 1) (sum + b) })
  | finalDone {net : Net} {t : Tasks} {k sum now : ℕ} (hmain : t.main = .reading k sum)
      (hk : k = t.counters.length) (hnow : net.clock ≤ now) :
      Step neg net (.measuring t) { net with clock := now }
        (.measuring { t with main := .joiningSampler sum now })
  | joinSampler {net : Net} {t : Tasks} {bytes at_ : ℕ} {samples : List Sample}
      (hmain : t.main = .joiningSampler bytes at_) (hs : t.sampler = .returned samples) :
      Step neg net (.measuring t) net
        (.measuring { t with main := .joiningWarmup bytes at_ samples })
  | joinWarmup {net : Net} {t : Tasks} {bytes at_ wbytes wat : ℕ} {samples : List Sample}
      (hmain : t.main = .joiningWarmup bytes at_ samples) (hw : t.warmup = .returned wbytes wat) :
      Step neg net (.measuring t) net (.returned (result bytes at_ wbytes wat samples))

/-! ## Time -/

theorem WarmupSnap.Step.clock_le {warmup clock clock' : ℕ} {counters : List ℕ}
    {s s' : WarmupSnap} (h : Step warmup counters clock s clock' s') : clock ≤ clock' := by
  cases h with
  | poll hnow | wake hnow | done hnow => exact hnow
  | load => exact le_rfl

theorem Step.clock_le {neg : Negotiate} {net net' : Net} {s s' : Serve}
    (h : Step neg net s net' s') : net.clock ≤ net'.clock := by
  cases h with
  | accept | recv | finalLoad | joinSampler | joinWarmup => exact le_rfl
  | spawn hk hnow => exact hnow
  | sampler h => exact h.clock_le
  | warmup h => exact h.clock_le
  | finalDone hmain hk hnow => exact hnow

end Andri.Tcp

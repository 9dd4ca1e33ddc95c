/-
  Andri.File.Serve

  `file::serve` of `src/modes/file.rs`: accept one connection, receive up to the
  negotiated length while `sample_until_done` samples the counter, then join
  the sampler.
-/
import Andri.Meter
import Andri.Net

namespace Andri.File

open Lib

/-- Copy buffer of the receive loop. -/
def BUF : ℕ := 256 * 1024

/-- `neg.file_len.unwrap_or(0)`. -/
def expected (neg : Negotiate) : ℕ := (neg.fileLen.getD 0).toNat

/-- Program points of `sample_until_done`. -/
inductive Sampler
  | spawned
  | waiting (l : SampleLoop)
  | returned (samples : List Sample)

/-- Steps of `sample_until_done` over one counter. -/
inductive Sampler.Step (t0 expected counter : ℕ) : ℕ → Sampler → ℕ → Sampler → Prop
  | poll {clock now : ℕ} (hnow : clock ≤ now) :
      Step t0 expected counter clock .spawned now (.waiting ⟨now + SECOND, 0, t0, []⟩)
  /-- A tick appends a sample and ends the loop once all bytes are in. -/
  | tick {clock now : ℕ} {l : SampleLoop} (hnow : clock ≤ now) (hdue : l.next ≤ now) :
      Step t0 expected counter clock (.waiting l) now
        (let l' := { l with next := l.next + SECOND }.record t0 now counter
         if expected ≤ counter then .returned l'.samples else .waiting l')

/-- The transfer: start, bytes received, the sampler's counter and task. -/
structure Transfer where
  t0 : ℕ
  received : ℕ
  counter : ℕ
  sampler : Sampler

/-- Program points of `serve`: `accept`, the receive loop, `sampler.await`,
    returned. -/
inductive Serve
  | accepting
  | receiving (t : Transfer)
  | joining (t : Transfer) (secs : ℚ)
  | returned (r : TestResult)

/-- The transfer just accepted at `t0`. -/
def Transfer.start (t0 : ℕ) : Transfer := ⟨t0, 0, 0, .spawned⟩

/-- What a read may ask for: the bytes missing, clamped to the buffer. -/
def want (neg : Negotiate) (t : Transfer) : ℕ := min (expected neg - t.received) BUF

/-- A read of `n` bytes: `received` and the counter advance together. -/
def Transfer.read (n : ℕ) (t : Transfer) : Transfer :=
  { t with received := t.received + n, counter := t.counter + n }

/-- The authoritative result. -/
def result (received : ℕ) (secs : ℚ) (samples : List Sample) : TestResult where
  role := .receive
  bytes := BitVec.ofNat 64 received
  durationSecs := secs
  bitsPerSec := Andri.bitsPerSec (BitVec.ofNat 64 received) secs
  bytesPerSec := Andri.bytesPerSec (BitVec.ofNat 64 received) secs
  packetsExpected := none
  packetsReceived := none
  packetsLost := none
  lossRatio := none
  jitterMs := none
  samples

/-- Steps of `serve`, with the net before and after. -/
inductive Step (neg : Negotiate) : Net → Serve → Net → Serve → Prop
  | accept {net : Net} {now : ℕ} (hpending : net.accepted < net.conns.length)
      (hnow : net.clock ≤ now) :
      Step neg net .accepting { net with accepted := net.accepted + 1, clock := now }
        (.receiving (.start now))
  | read {net : Net} {t : Transfer} {n : ℕ} {c : Conn} {rest : List Conn}
      (hmore : t.received < expected neg) (hc : net.conns = c :: rest) (hn : 0 < n)
      (hle : n ≤ min (want neg t) c.unread) :
      Step neg net (.receiving t) { net with conns := { c with taken := c.taken + n } :: rest }
        (.receiving (t.read n))
  /-- The peer closed early: the read returns 0 and the loop breaks. -/
  | eof {net : Net} {t : Transfer} {now : ℕ} {c : Conn} {rest : List Conn}
      (hmore : t.received < expected neg) (hc : net.conns = c :: rest) (hunread : c.unread = 0)
      (hclosed : c.closed = true) (hnow : net.clock ≤ now) :
      Step neg net (.receiving t) { net with clock := now }
        (.joining t (asSecsF64 (now - t.t0)))
  | done {net : Net} {t : Transfer} {now : ℕ} (hall : expected neg ≤ t.received)
      (hnow : net.clock ≤ now) :
      Step neg net (.receiving t) { net with clock := now }
        (.joining t (asSecsF64 (now - t.t0)))
  | samplerReceiving {net : Net} {t : Transfer} {clock' : ℕ} {s' : Sampler}
      (h : Sampler.Step t.t0 (expected neg) t.counter net.clock t.sampler clock' s') :
      Step neg net (.receiving t) { net with clock := clock' } (.receiving { t with sampler := s' })
  | samplerJoining {net : Net} {t : Transfer} {secs : ℚ} {clock' : ℕ} {s' : Sampler}
      (h : Sampler.Step t.t0 (expected neg) t.counter net.clock t.sampler clock' s') :
      Step neg net (.joining t secs) { net with clock := clock' }
        (.joining { t with sampler := s' } secs)
  | join {net : Net} {t : Transfer} {secs : ℚ} {samples : List Sample}
      (hs : t.sampler = .returned samples) :
      Step neg net (.joining t secs) net (.returned (result t.received secs samples))

/-! ## Time -/

theorem Sampler.Step.clock_le {t0 expected counter clock clock' : ℕ} {s s' : Sampler}
    (h : Step t0 expected counter clock s clock' s') : clock ≤ clock' := by
  cases h with
  | poll hnow | tick hnow => exact hnow

theorem Step.clock_le {neg : Negotiate} {net net' : Net} {s s' : Serve}
    (h : Step neg net s net' s') : net.clock ≤ net'.clock := by
  cases h with
  | accept _ hnow | eof _ _ _ _ hnow | done _ hnow => exact hnow
  | read | join => exact le_rfl
  | samplerReceiving h | samplerJoining h => exact h.clock_le

end Andri.File

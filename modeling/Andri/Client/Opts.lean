/-
  Andri.Client.Opts

  The client's options and the request `connect` of `src/session.rs` builds from
  them before it opens a connection.
-/
import Andri.Proto.Frame

namespace Andri

open Lib

/-- The fields of `ClientOpts` a session depends on; `mode` is what the mode
    flags select. -/
structure ClientOpts where
  mode : Option Mode
  duration : U64
  parallel : U32
  bidir : Bool
  bitrate : Option U64
  packet : Usize
  nullSource : Bool
  json : Bool

/-- Default application buffer. -/
def WRITE_BUF : Usize := 64 * 1024

/-- Warm-up window excluded from the measurement. -/
def WARMUP_SECS : U64 := 1

/-- `io::Error::other`. -/
def otherError (message : String) : IoError := ⟨.other, message⟩

/-- The UDP target rate, required in that mode. -/
def udpBitrate (opts : ClientOpts) (mode : Mode) : Except IoError (Option U64) :=
  match mode with
  | .udp =>
      match opts.bitrate with
      | some b => .ok (some b)
      | none => .error (otherError "--udp requires --bitrate (e.g. --bitrate 1G, 500M, 10M)")
  | _ => .ok none

/-- The request of the options, with the length of the file they name. -/
def ClientOpts.negotiate (opts : ClientOpts) (fileLen : U64) : Except IoError Negotiate := do
  let mode ← match opts.mode with
    | some mode => .ok mode
    | none =>
        .error (otherError "a mode is required: pass one of --tcp, --udp, or --file <path>")
  let bitrate ← udpBitrate opts mode
  return {
    mode
    durationSecs := opts.duration
    warmupSecs := if mode = .file then 0 else WARMUP_SECS
    parallel := opts.parallel
    bufferBytes := WRITE_BUF
    bidir := opts.bidir
    bitrateBps := bitrate
    packetBytes := if mode = .udp then some opts.packet else none
    fileLen := if mode = .file then some fileLen else none
    nullSource := if mode = .file then some opts.nullSource else none }

/-- What every request a client builds has in common. -/
structure Negotiate.Buildable (neg : Negotiate) : Prop where
  bufferBytes : neg.bufferBytes = WRITE_BUF
  warmupSecs : neg.warmupSecs = if neg.mode = .file then 0 else WARMUP_SECS
  bitrateBps : neg.bitrateBps.isSome ↔ neg.mode = .udp
  packetBytes : neg.packetBytes.isSome ↔ neg.mode = .udp
  fileLen : neg.fileLen.isSome ↔ neg.mode = .file
  nullSource : neg.nullSource.isSome ↔ neg.mode = .file

theorem ClientOpts.buildable {opts : ClientOpts} {fileLen : U64} {neg : Negotiate}
    (h : opts.negotiate fileLen = .ok neg) : neg.Buildable := by
  -- without a mode, and in UDP without a bitrate, there is no request
  obtain ⟨mode, duration, parallel, bidir, bitrate, packet, nullSource, json⟩ := opts
  rcases mode with - | (- | - | -)
  · cases h
  · cases h
    exact ⟨rfl, rfl, by simp, by simp, by simp, by simp⟩
  · cases bitrate with
    | none => cases h
    | some b =>
        cases h
        exact ⟨rfl, rfl, by simp, by simp, by simp, by simp⟩
  · cases h
    exact ⟨rfl, rfl, by simp, by simp, by simp, by simp⟩

end Andri

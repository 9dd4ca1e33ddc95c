/-
  Andri.Proto.Msg

  The control-channel messages of `src/proto.rs`, with the constants of the
  wire format.  Field for field the Rust types: `u16`/`u32`/`u64`/`usize` are
  words, an `f64` is the exact rational it stands for.
-/
import Andri.Lib.Words
import Mathlib.Data.Rat.Defs

namespace Andri

open Lib

/-- Bumped only on incompatible wire changes. -/
def PROTOCOL_VERSION : U16 := 1

/-- Maximum control-message payload size. -/
def MAX_FRAME_BYTES : Nat := 64 * 1024

/-- Client → server greeting. -/
structure Hello where
  protocolVersion : U16
  clientVersion : String
  nonce : U64
deriving DecidableEq

/-- Server → client greeting reply. -/
structure Welcome where
  protocolVersion : U16
  serverVersion : String
  nonce : U64
  accepted : Bool
deriving DecidableEq

/-- Measurement mode. -/
inductive Mode
  | tcp
  | udp
  | file
deriving DecidableEq

/-- Client → server test parameters. -/
structure Negotiate where
  mode : Mode
  durationSecs : U64
  warmupSecs : U64
  parallel : U32
  bufferBytes : Usize
  bidir : Bool
  bitrateBps : Option U64
  packetBytes : Option Usize
  fileLen : Option U64
  nullSource : Option Bool
deriving DecidableEq

/-- Server → client; the data listener is ready. -/
structure Start where
  dataPort : U16
  serverSeed : U64
deriving DecidableEq

/-- Direction a result describes. -/
inductive RoleDir
  | send
  | receive
deriving DecidableEq

/-- One once-per-second reading. -/
structure Sample where
  tSecs : ℚ
  bytes : U64
  bitsPerSec : ℚ
  packetsLost : Option U64
  jitterMs : Option ℚ
deriving DecidableEq

/-- Server → client final results. -/
structure TestResult where
  role : RoleDir
  bytes : U64
  durationSecs : ℚ
  bitsPerSec : ℚ
  bytesPerSec : ℚ
  packetsExpected : Option U64
  packetsReceived : Option U64
  packetsLost : Option U64
  lossRatio : Option ℚ
  jitterMs : Option ℚ
  samples : List Sample
deriving DecidableEq

/-- Terminal error. -/
inductive ProtoError
  | versionMismatch
  | invalidParams
  | unexpectedMessage
  | dataConnectFailed
  | timeout
  | internal
deriving DecidableEq

/-- A control-channel message. -/
inductive Msg
  | hello (h : Hello)
  | welcome (w : Welcome)
  | negotiate (n : Negotiate)
  | start (s : Start)
  | run
  | stop
  | result (r : TestResult)
  | error (e : ProtoError)
deriving DecidableEq

end Andri

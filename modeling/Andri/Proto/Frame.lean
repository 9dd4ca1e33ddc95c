/-
  Andri.Proto.Frame

  `write_msg` and `read_msg` of `src/proto.rs`: a 4-byte big-endian length
  followed by that many bytes of JSON.  The JSON codec is serde_json's and is a
  parameter; everything around it (the prefix, the two independent length
  guards, what a failing call leaves behind) is the repository's.
-/
import Andri.Lib.Endian
import Andri.Lib.Stream
import Andri.Proto.Msg

namespace Andri

open Lib Lib.StreamM

/-- The `io::ErrorKind`s the framing produces. -/
inductive ErrorKind
  | invalidData
  | unexpectedEof
  | other
deriving DecidableEq

/-- An `io::Error`: its kind and its text. -/
structure IoError where
  kind : ErrorKind
  message : String
deriving DecidableEq

/-- What `read_exact` reports when the stream ends first. -/
def earlyEof : IoError := ⟨.unexpectedEof, "early eof"⟩

/-- `write_msg`'s refusal. -/
def messageTooLong : IoError := ⟨.invalidData, "control message exceeds MAX_FRAME_BYTES"⟩

/-- `read_msg`'s refusal. -/
def declaredTooLong : IoError := ⟨.invalidData, "declared frame length exceeds MAX_FRAME_BYTES"⟩

/-- The JSON codec: `serde_json::to_vec` and `serde_json::from_slice`. -/
structure Serde where
  toVec : Msg → Except IoError (List Byte)
  fromSlice : List Byte → Except IoError Msg

variable (serde : Serde)

/-- `write_msg`: encode, refuse an oversized payload, then write prefix and
    payload. -/
def writeMsg (msg : Msg) : StreamM IoError Byte Unit := do
  let payload ← liftM (serde.toVec msg)
  if payload.length > MAX_FRAME_BYTES then
    throw messageTooLong
  writeAll (beBytes 4 payload.length)
  writeAll payload

/-- `read_msg`: read the prefix, refuse an oversized declaration, then read and
    decode the payload. -/
def readMsg : StreamM IoError Byte Msg := do
  let lenBuf ← readExact earlyEof 4
  let len := beValue lenBuf
  if len > MAX_FRAME_BYTES then
    throw declaredTooLong
  let payload ← readExact earlyEof len
  liftM (serde.fromSlice payload)

/-- The frame of a payload. -/
def frame (payload : List Byte) : List Byte := beBytes 4 payload.length ++ payload

/-- The bytes `write_msg` puts on an empty stream. -/
def frameOf (msg : Msg) : List Byte := ((writeMsg serde msg).on []).2

/-- `write_msg` accepts the message. -/
def Writable (msg : Msg) : Prop := ((writeMsg serde msg).on []).1 = .ok ()

@[simp] theorem frame_length (payload : List Byte) :
    (frame payload).length = 4 + payload.length := by
  simp [frame]

/-! ## What `write_msg` does -/

section Write

variable {serde} {msg : Msg} {payload : List Byte}

theorem writeMsg_of_encode_error {e : IoError} (h : serde.toVec msg = .error e) (out : List Byte) :
    (writeMsg serde msg).on out = (.error e, out) := by
  rw [writeMsg, on_bind, h, on_ofExcept]

theorem writeMsg_of_le (h : serde.toVec msg = .ok payload)
    (hle : payload.length ≤ MAX_FRAME_BYTES) (out : List Byte) :
    (writeMsg serde msg).on out = (.ok (), out ++ frame payload) := by
  have hguard : ¬ payload.length > MAX_FRAME_BYTES := by omega
  rw [writeMsg, on_bind, h, on_ofExcept]
  simp [hguard, on_bind, frame]

theorem writeMsg_of_gt (h : serde.toVec msg = .ok payload)
    (hgt : payload.length > MAX_FRAME_BYTES) (out : List Byte) :
    (writeMsg serde msg).on out = (.error messageTooLong, out) := by
  rw [writeMsg, on_bind, h, on_ofExcept]
  simp [hgt]

/-- `write_msg` writes either the whole frame of an admissible payload, or
    nothing. -/
theorem writeMsg_cases (serde : Serde) (msg : Msg) (out : List Byte) :
    (∃ payload, serde.toVec msg = .ok payload ∧ payload.length ≤ MAX_FRAME_BYTES ∧
      (writeMsg serde msg).on out = (.ok (), out ++ frame payload)) ∨
    (∃ e, (writeMsg serde msg).on out = (.error e, out)) := by
  cases h : serde.toVec msg with
  | error e => exact .inr ⟨e, writeMsg_of_encode_error h out⟩
  | ok payload =>
      by_cases hle : payload.length ≤ MAX_FRAME_BYTES
      · exact .inl ⟨payload, rfl, hle, writeMsg_of_le h hle out⟩
      · exact .inr ⟨messageTooLong, writeMsg_of_gt h (by omega) out⟩

/-- An accepted message has an admissible payload, whose frame is what is
    written. -/
theorem writable_payload (h : Writable serde msg) :
    ∃ payload, serde.toVec msg = .ok payload ∧ payload.length ≤ MAX_FRAME_BYTES ∧
      frameOf serde msg = frame payload := by
  rcases writeMsg_cases serde msg [] with ⟨payload, hvec, hle, hrun⟩ | ⟨e, hrun⟩
  · exact ⟨payload, hvec, hle, by simp [frameOf, hrun]⟩
  · rw [Writable, hrun] at h
    cases h

end Write

/-! ## What `read_msg` does -/

section Read

variable {serde}

theorem readMsg_of_short {s : List Byte} (h : s.length < 4) :
    (readMsg serde).on s = (.error earlyEof, []) := by
  rw [readMsg, on_bind, readExact_of_lt h]

/-- Past the prefix, everything is decided by the declared length. -/
theorem readMsg_of_header {s : List Byte} (h : 4 ≤ s.length) :
    (readMsg serde).on s =
      if beValue (s.take 4) > MAX_FRAME_BYTES then (.error declaredTooLong, s.drop 4)
      else if s.length - 4 < beValue (s.take 4) then (.error earlyEof, [])
      else (serde.fromSlice ((s.drop 4).take (beValue (s.take 4))),
        (s.drop 4).drop (beValue (s.take 4))) := by
  rw [readMsg, on_bind, readExact_of_le h]
  -- the guard on the declaration comes before the payload is read
  by_cases hbig : beValue (s.take 4) > MAX_FRAME_BYTES
  · simp [hbig]
  · simp only [hbig, if_false, on_bind]
    by_cases hshort : (s.drop 4).length < beValue (s.take 4)
    · rw [readExact_of_lt hshort, if_pos (by simpa using hshort)]
    · rw [readExact_of_le (by omega), if_neg (by simpa using hshort)]
      exact on_ofExcept _ _

/-- A declared length over the cap is refused after exactly four bytes. -/
theorem readMsg_of_declared_gt {s : List Byte} (h : 4 ≤ s.length)
    (hgt : beValue (s.take 4) > MAX_FRAME_BYTES) :
    (readMsg serde).on s = (.error declaredTooLong, s.drop 4) := by
  rw [readMsg_of_header h, if_pos hgt]

theorem beValue_take_frame {payload t : List Byte} (h : payload.length < 256 ^ 4) :
    beValue ((frame payload ++ t).take 4) = payload.length := by
  have htake : (frame payload ++ t).take 4 = beBytes 4 payload.length := by
    rw [frame, List.append_assoc]
    exact List.take_left' (beBytes_length 4 _)
  rw [htake, beValue_beBytes_of_lt h]

theorem drop_frame (payload t : List Byte) : (frame payload ++ t).drop 4 = payload ++ t := by
  rw [frame, List.append_assoc]
  exact List.drop_left' (beBytes_length 4 _)

/-- A frame in front of any remainder is decoded and taken off exactly. -/
theorem readMsg_frame {payload : List Byte} (hle : payload.length ≤ MAX_FRAME_BYTES)
    (t : List Byte) :
    (readMsg serde).on (frame payload ++ t) = (serde.fromSlice payload, t) := by
  have hlt : payload.length < 256 ^ 4 := lt_of_le_of_lt hle (by decide)
  have hfour : 4 ≤ (frame payload ++ t).length := by
    rw [List.length_append, frame_length]
    omega
  -- both guards pass: the declaration is in the cap, the payload is there
  have hwhole : ¬ (frame payload ++ t).length - 4 < payload.length := by
    rw [List.length_append, frame_length]
    omega
  rw [readMsg_of_header hfour, beValue_take_frame hlt, drop_frame, if_neg (by omega),
    if_neg hwhole, List.take_left, List.drop_left]

/-- On a strict prefix of a frame the read runs out of bytes. -/
theorem readMsg_truncated {payload p : List Byte} (hle : payload.length ≤ MAX_FRAME_BYTES)
    (hp : p <+: frame payload) (hne : p ≠ frame payload) :
    (readMsg serde).on p = (.error earlyEof, []) := by
  have hlen : p.length < 4 + payload.length := by
    rw [← frame_length]
    exact lt_of_le_of_ne hp.length_le fun h => hne (hp.eq_of_length h)
  by_cases h4 : p.length < 4
  · exact readMsg_of_short h4
  · have hlt : payload.length < 256 ^ 4 := lt_of_le_of_lt hle (by decide)
    -- the prefix is whole, so it declares the length of the payload
    have htake : p.take 4 = (frame payload).take 4 := by
      rw [List.prefix_iff_eq_take.mp hp, List.take_take, Nat.min_eq_left (by omega)]
    have hval : beValue (p.take 4) = payload.length := by
      rw [htake]
      simpa using beValue_take_frame (t := []) hlt
    rw [readMsg_of_header (by omega), hval, if_neg (by omega), if_pos (by omega)]

/-- Whatever the input, the read takes at most the prefix and one maximal
    payload, and what it leaves is a suffix. -/
theorem readMsg_consumes (serde : Serde) (s : List Byte) :
    ∃ k, k ≤ 4 + MAX_FRAME_BYTES ∧ ((readMsg serde).on s).2 = s.drop k := by
  by_cases h4 : s.length < 4
  -- the stream ends in the prefix
  · refine ⟨s.length, by omega, ?_⟩
    rw [readMsg_of_short h4, List.drop_length]
  · rw [readMsg_of_header (by omega)]
    by_cases hbig : beValue (s.take 4) > MAX_FRAME_BYTES
    -- the declaration is refused
    · exact ⟨4, by omega, by rw [if_pos hbig]⟩
    · rw [if_neg hbig]
      by_cases hshort : s.length - 4 < beValue (s.take 4)
      · refine ⟨s.length, by omega, ?_⟩
        rw [if_pos hshort, List.drop_length]
      · refine ⟨4 + beValue (s.take 4), by omega, ?_⟩
        rw [if_neg hshort, List.drop_drop]

end Read

/-! ## The framing contract -/

/-- Framing is lossless and self-delimiting: a list of accepted messages is
    read back in order from in front of any remainder; a strict prefix of a
    frame is an error; a refused message writes nothing; writer and reader
    share the cap on the payload length; and a read is bounded, taking exactly
    the prefix when it refuses the declared length. -/
theorem framing_contract :
    (∀ (msgs : List Msg) (t : List Byte), (∀ m ∈ msgs, Writable serde m) →
      (∀ m ∈ msgs, ∀ payload, serde.toVec m = .ok payload → serde.fromSlice payload = .ok m) →
      (readMany (readMsg serde) msgs.length).on (msgs.flatMap (frameOf serde) ++ t)
        = (.ok msgs, t)) ∧
    (∀ (msg : Msg) (p : List Byte), Writable serde msg → p <+: frameOf serde msg →
      p ≠ frameOf serde msg → ∃ e, ((readMsg serde).on p).1 = .error e) ∧
    (∀ (msg : Msg) (out : List Byte),
      ((writeMsg serde msg).on out).1 ≠ .ok () → ((writeMsg serde msg).on out).2 = out) ∧
    (∀ (msg : Msg) (payload : List Byte), serde.toVec msg = .ok payload →
      (Writable serde msg ↔ payload.length ≤ 65536)) ∧
    (∀ (payload t : List Byte), payload.length < 2 ^ 32 →
      (readMsg serde).on (beBytes 4 payload.length ++ payload ++ t) =
        if payload.length ≤ 65536 then (serde.fromSlice payload, t)
        else (.error declaredTooLong, payload ++ t)) ∧
    (∀ s : List Byte, ∃ k, k ≤ 4 + 65536 ∧ ((readMsg serde).on s).2 = s.drop k) ∧
    (∀ s : List Byte, 4 ≤ s.length → 65536 < beValue (s.take 4) →
      (readMsg serde).on s = (.error declaredTooLong, s.drop 4)) := by
  refine ⟨?_, ?_, ?_, ?_, ?_, readMsg_consumes serde, fun s => readMsg_of_declared_gt⟩
  -- the round trip, one frame after the other
  · intro msgs t hmsgs hround
    apply readMany_flatMap
    intro m hm t
    obtain ⟨payload, hvec, hle, hframe⟩ := writable_payload (hmsgs m hm)
    rw [hframe, readMsg_frame hle, hround m hm payload hvec]
  -- a strict prefix of a frame
  · intro msg p hw hp hne
    obtain ⟨payload, -, hle, hframe⟩ := writable_payload hw
    rw [hframe] at hp hne
    exact ⟨earlyEof, by rw [readMsg_truncated hle hp hne]⟩
  -- a refused message
  · intro msg out herr
    rcases writeMsg_cases serde msg out with ⟨payload, -, -, hrun⟩ | ⟨e, hrun⟩
    · exact absurd (by rw [hrun]) herr
    · rw [hrun]
  -- the writer's cap
  · intro msg payload hvec
    constructor
    · intro hw
      obtain ⟨payload', hvec', hle, -⟩ := writable_payload hw
      rw [hvec] at hvec'
      cases hvec'
      exact hle
    · intro hle
      rw [Writable, writeMsg_of_le hvec hle]
  -- the reader's cap
  · intro payload t hlt
    split
    · next hle => exact readMsg_frame hle t
    · next hgt =>
        have hval : beValue ((frame payload ++ t).take 4) = payload.length :=
          beValue_take_frame (by simpa using hlt)
        have hfour : 4 ≤ (frame payload ++ t).length := by
          rw [List.length_append, frame_length]
          omega
        have hdeclared : beValue ((frame payload ++ t).take 4) > MAX_FRAME_BYTES := by
          rw [hval]
          exact Nat.lt_of_not_le hgt
        have h : (readMsg serde).on (frame payload ++ t) = _ :=
          readMsg_of_declared_gt hfour hdeclared
        rwa [drop_frame] at h

/-- A codec for the two messages without fields, in serde_json's compact
    spelling. -/
def runStopSerde : Serde where
  toVec
    | .run => .ok (ascii "\x7b\"type\":\"Run\"\x7d")
    | .stop => .ok (ascii "\x7b\"type\":\"Stop\"\x7d")
    | _ => .error ⟨.other, "unsupported"⟩
  fromSlice payload :=
    if payload = ascii "\x7b\"type\":\"Run\"\x7d" then .ok .run
    else if payload = ascii "\x7b\"type\":\"Stop\"\x7d" then .ok .stop
    else .error ⟨.invalidData, "unsupported"⟩

/-- Two messages in one stream, with a remainder behind them. -/
theorem framing_contract_run_stop :
    (readMany (readMsg runStopSerde) 2).on
      (frameOf runStopSerde .run ++ frameOf runStopSerde .stop ++ [7]) =
        (.ok [.run, .stop], [7]) := by
  have h := (framing_contract runStopSerde).1 [.run, .stop] [7]
    (by intro m hm; rcases List.mem_pair.mp hm with rfl | rfl <;> rfl)
    (by
      intro m hm payload hvec
      rcases List.mem_pair.mp hm with rfl | rfl <;> (cases hvec; rfl))
  simpa using h

end Andri

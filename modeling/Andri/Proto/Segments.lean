/-
  Andri.Proto.Segments

  `read_msg` on a connection whose bytes arrive in segments of any size.  The
  two exact reads of `read_msg` are a `Reader`; on a stream that has ended it
  is `readMsg`, and while bytes are missing it waits.  A frame is read once it
  is whole, never from a part of it.
-/
import Andri.Lib.Reader
import Andri.Proto.Frame

namespace Andri

open Lib Lib.StreamM

variable (serde : Serde)

/-- The reads of `read_msg`, piece by piece. -/
def msgReader : Reader IoError Byte Msg :=
  .need 4 fun lenBuf =>
    if beValue lenBuf > MAX_FRAME_BYTES then .done (.error declaredTooLong)
    else .need (beValue lenBuf) fun payload => .done (serde.fromSlice payload)

/-- `read_msg` returns nothing before it has read something. -/
def msgFraming : Framing IoError Byte Msg := ⟨msgReader serde, rfl⟩

/-- At the end of the stream the reader is `read_msg`. -/
theorem msgReader_toStream (s : List Byte) :
    ((msgReader serde).toStream earlyEof).on s = (readMsg serde).on s := by
  by_cases h4 : s.length < 4
  · rw [readMsg_of_short h4, msgReader, Reader.toStream, on_bind, readExact_of_lt h4]
  · have hle : 4 ≤ s.length := Nat.le_of_not_lt h4
    rw [readMsg_of_header hle, msgReader, Reader.toStream, on_bind_ok (readExact_of_le hle)]
    by_cases hbig : beValue (s.take 4) > MAX_FRAME_BYTES
    · rw [if_pos hbig, if_pos hbig]
      exact on_ofExcept _ _
    · rw [if_neg hbig, if_neg hbig, Reader.toStream]
      by_cases hshort : s.length - 4 < beValue (s.take 4)
      · rw [if_pos hshort, on_bind, readExact_of_lt (by simpa using hshort)]
      · rw [if_neg hshort, on_bind_ok (readExact_of_le (by simpa using hshort))]
        exact on_ofExcept _ _

variable {serde} {payload : List Byte}

/-- A whole frame in front is read, and taken off exactly. -/
theorem poll_frame (hle : payload.length ≤ MAX_FRAME_BYTES) (t : List Byte) :
    (msgFraming serde).reader.poll (frame payload ++ t) = some (serde.fromSlice payload, t) := by
  have hlt : payload.length < 256 ^ 4 := lt_of_le_of_lt hle (by decide)
  have hfour : ¬ (frame payload ++ t).length < 4 := by
    rw [List.length_append, frame_length]
    omega
  have hwhole : ¬ (payload ++ t).length < payload.length := by
    rw [List.length_append]
    omega
  show (msgReader serde).poll (frame payload ++ t) = _
  rw [msgReader, Reader.poll, if_neg hfour, beValue_take_frame hlt, drop_frame, if_neg (by omega),
    Reader.poll, if_neg hwhole, List.take_left, List.drop_left]
  rfl

/-- A part of a frame makes the reader wait. -/
theorem poll_of_prefix {part : List Byte} (hle : payload.length ≤ MAX_FRAME_BYTES)
    (hpart : part <+: frame payload) (hne : part ≠ frame payload) :
    (msgFraming serde).reader.poll part = none := by
  obtain ⟨missing, hmissing⟩ := hpart
  cases h : (msgFraming serde).reader.poll part with
  | none => rfl
  | some p =>
      -- what the part gives the whole frame would give, with the missing bytes left over
      obtain ⟨x, rest⟩ := p
      have hmore := Reader.poll_append h missing
      have hwhole := @poll_frame serde payload hle []
      rw [List.append_nil, ← hmissing, hmore] at hwhole
      simp only [Option.some.injEq, Prod.mk.injEq, List.append_eq_nil_iff] at hwhole
      rw [hwhole.2.2, List.append_nil] at hmissing
      exact absurd hmissing hne

/-- What a codec may read for a message: the message, or some Result for a Result, whose
    decimal fractions need not come back as the floats they were printed from. -/
inductive Msg.ReadAs : Msg → Msg → Prop
  | same (m : Msg) : ReadAs m m
  | result (r r' : TestResult) : ReadAs (.result r) (.result r')

/-- A message without floats is read as it is. -/
theorem Msg.ReadAs.eq {m m' : Msg} (h : m.ReadAs m') (hm : ∀ r, m ≠ .result r) : m' = m := by
  cases h with
  | same => rfl
  | result r r' => exact absurd rfl (hm r)

/-- The codec reads a message for what it has made of another. -/
def Serde.Reads (serde : Serde) (m m' : Msg) : Prop :=
  ∃ payload, serde.toVec m = .ok payload ∧ serde.fromSlice payload = .ok m'

/-- What the codec has encoded it reads back. -/
def Serde.ReadsBack (serde : Serde) : Prop :=
  ∀ m payload, serde.toVec m = .ok payload →
    ∃ m', serde.fromSlice payload = .ok m' ∧ m.ReadAs m'

theorem Serde.ReadsBack.readAs (hback : serde.ReadsBack) {m m' : Msg} (h : serde.Reads m m') :
    m.ReadAs m' := by
  obtain ⟨payload, hvec, hslice⟩ := h
  obtain ⟨m'', hslice', hread⟩ := hback m payload hvec
  rw [hslice] at hslice'
  cases hslice'
  exact hread

/-- The frame of an accepted message is read, wherever it stands. -/
theorem poll_frameOf (hback : serde.ReadsBack) {m : Msg} (hm : Writable serde m) :
    ∃ m', serde.Reads m m' ∧ ∀ t,
      (msgFraming serde).reader.poll (frameOf serde m ++ t) = some (.ok m', t) := by
  obtain ⟨payload, hvec, hle, hframe⟩ := writable_payload hm
  obtain ⟨m', hslice, -⟩ := hback m payload hvec
  refine ⟨m', ⟨payload, hvec, hslice⟩, fun t => ?_⟩
  rw [hframe, poll_frame hle, hslice]

/-- The frames of accepted messages and a part of one more: the messages are read, the
    part stays. -/
theorem decode_frames (hback : serde.ReadsBack) {msgs : List Msg} {part : List Byte}
    (hmsgs : ∀ m ∈ msgs, Writable serde m) (hpart : (msgFraming serde).reader.poll part = none) :
    ∃ msgs', (msgFraming serde).decode (msgs.flatMap (frameOf serde) ++ part)
        = (msgs'.map .ok, part) ∧ List.Forall₂ Msg.ReadAs msgs msgs' := by
  obtain ⟨msgs', hdecode, hall⟩ := Framing.decode_flatMap (R := Msg.ReadAs) part fun m hm =>
    (poll_frameOf hback (hmsgs m hm)).imp fun m' h => ⟨hback.readAs h.1, h.2⟩
  rw [Framing.decode_of_none hpart, List.append_nil] at hdecode
  exact ⟨msgs', hdecode, hall⟩

end Andri

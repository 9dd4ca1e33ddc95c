/-
  Andri.Session.Wire

  The session over a byte stream.  The control connection delivers bytes in
  segments of any size and takes the bytes of `write_msg`; a read waits until a
  frame is whole, the connection is closed, or it is reset.

  Every run of it is a run of the session over messages: a segment is the
  messages it completes, and what was written is the frames of the messages
  written, with a part of one more where a write has failed midway.
-/
import Andri.Proto.Segments
import Andri.Session.Output
import Andri.Session.Refusal

namespace Andri

open Lib Lib.StreamM

/-- The control connection at the server, in bytes.  `arrived` is all that ever
    came, `read` the outcomes of `read_msg`, `outbox` the bytes written. -/
structure Wire where
  inbox : List Byte
  failure : Option IoError
  closed : Bool
  arrived : List Byte
  read : List Input
  outbox : List Byte

/-- A connection just accepted. -/
def Wire.init : Wire := ⟨[], none, false, [], [], []⟩

/-- A session over bytes and its surroundings. -/
structure WireWorld where
  session : Session
  wire : Wire
  net : Net

/-- A control connection just accepted. -/
def WireWorld.init : WireWorld := ⟨⟨.greeting, none, none⟩, .init, .init⟩

/-- Move the session to a phase. -/
def WireWorld.goto (v : WireWorld) (p : Phase) : WireWorld :=
  { v with session := { v.session with phase := p } }

variable (serde : Serde)

/-- One `read_msg`: `none` is a read that waits.  A connection that has failed
    or ended leaves nothing of an incomplete frame. -/
def Wire.take (c : Wire) : Option (Input × Wire) :=
  match (msgFraming serde).reader.poll c.inbox with
  | some (x, rest) => some (x, { c with inbox := rest, read := c.read ++ [x] })
  | none =>
      match c.failure with
      | some e =>
          some (.error e, { c with inbox := [], failure := none, read := c.read ++ [.error e] })
      | none =>
          if c.closed then
            let (x, rest) := (readMsg serde).on c.inbox
            some (x, { c with inbox := rest, read := c.read ++ [x] })
          else none

/-- One step of the session over bytes, of its peer, or of the network. -/
inductive WireStep : WireWorld → WireWorld → Prop
  | read {v : WireWorld} {x : Input} {c' : Wire} {p : Phase}
      (htake : v.wire.take serde = some (x, c')) (hp : v.session.onRead x = some p) :
      WireStep v { v.goto p with wire := c' }
  | write {v : WireWorld} {m : Msg} {p : Phase} {out : List Byte}
      (hp : v.session.phase.onWrite = some (m, p))
      (hw : (writeMsg serde m).on v.wire.outbox = (.ok (), out)) :
      WireStep v { v.goto p with wire := { v.wire with outbox := out } }
  -- `write_msg` refuses the message
  | refused {v : WireWorld} {m : Msg} {p : Phase} {e : IoError} {out : List Byte}
      (hp : v.session.phase.onWrite = some (m, p))
      (hw : (writeMsg serde m).on v.wire.outbox = (.error e, out)) :
      WireStep v { v.goto .closed with wire := { v.wire with outbox := out } }
  -- the transport fails in the middle of a frame
  | broken {v : WireWorld} {m : Msg} {p : Phase} {part : List Byte}
      (hp : v.session.phase.onWrite = some (m, p)) (hm : Writable serde m)
      (hpart : part <+: frameOf serde m) (hne : part ≠ frameOf serde m) :
      WireStep v { v.goto .closed with wire := { v.wire with outbox := v.wire.outbox ++ part } }
  -- whatever leaves the control connection alone: the bind, the data path, its return, a
  -- call that fails before a byte is written, the peer's data connections, the clock
  | aside {v : WireWorld} {s' : Session} {net' : Net}
      (h : Step ⟨v.session, .init, v.net⟩ ⟨s', .init, net'⟩) :
      WireStep v { v with session := s', net := net' }
  | deliver {v : WireWorld} (segment : List Byte) (hopen : v.wire.closed = false) :
      WireStep v { v with wire := { v.wire with
        inbox := v.wire.inbox ++ segment, arrived := v.wire.arrived ++ segment } }
  | close {v : WireWorld} : WireStep v { v with wire := { v.wire with closed := true } }
  -- a reset that drops what was unread, and one behind it
  | reset {v : WireWorld} (e : IoError) :
      WireStep v { v with wire := { v.wire with inbox := [], failure := some e, closed := true } }
  | abort {v : WireWorld} (e : IoError) (hopen : v.wire.closed = false) :
      WireStep v { v with wire := { v.wire with failure := some e, closed := true } }

/-- The worlds a session over bytes can be in, against any peer. -/
def WireReachable : WireWorld → Prop := Reachable (· = WireWorld.init) (WireStep serde)

variable {serde}

/-! ## Reading, case by case -/

/-- A `read_msg` returns a whole frame, the connection's failure, or the end of file. -/
theorem Wire.take_eq_some {c c' : Wire} {x : Input} (h : c.take serde = some (x, c')) :
    (∃ rest, (msgFraming serde).reader.poll c.inbox = some (x, rest) ∧
      c' = { c with inbox := rest, read := c.read ++ [x] }) ∨
    ((msgFraming serde).reader.poll c.inbox = none ∧ ∃ e, c.failure = some e ∧ x = .error e ∧
      c' = { c with inbox := [], failure := none, read := c.read ++ [x] }) ∨
    ((msgFraming serde).reader.poll c.inbox = none ∧ c.failure = none ∧ c.closed = true ∧
      x = .error earlyEof ∧ c' = { c with inbox := [], read := c.read ++ [x] }) := by
  unfold take at h
  split at h
  · next y rest hpoll =>
      cases h
      exact .inl ⟨rest, hpoll, rfl⟩
  · next hpoll =>
      split at h
      · next e hfailure =>
          cases h
          exact .inr (.inl ⟨hpoll, e, hfailure, rfl, rfl⟩)
      · next hfailure =>
          have heof : (readMsg serde).on c.inbox = (.error earlyEof, []) := by
            rw [← msgReader_toStream]
            exact Reader.toStream_of_poll_none earlyEof hpoll
          rw [heof] at h
          split at h
          · next hclosed =>
              cases h
              exact .inr (.inr ⟨hpoll, hfailure, hclosed, rfl, rfl⟩)
          · cases h

/-- A read that waits has no whole frame before it, on a connection still open. -/
theorem Wire.of_take_eq_none {c : Wire} (h : c.take serde = none) :
    (msgFraming serde).reader.poll c.inbox = none ∧ c.failure = none ∧ c.closed = false := by
  unfold take at h
  split at h
  · cases h
  · next hpoll =>
      split at h
      · cases h
      · next hfailure =>
          split at h
          · cases h
          · next hclosed => exact ⟨hpoll, hfailure, by simpa using hclosed⟩

/-! ## The session over messages behind it -/

/-- The inputs a connection holds: its whole frames, then its failure. -/
def Wire.pending (serde : Serde) (c : Wire) : List Input :=
  ((msgFraming serde).decode c.inbox).1 ++ c.failure.toList.map .error

/-- The bytes of a session's output: whole frames, and a part of one more only
    if the session is over. -/
def Emitted (serde : Serde) (p : Phase) (outbox : List Byte) (written : List Msg) : Prop :=
  (∀ m ∈ written, Writable serde m) ∧
  ∃ part, outbox = written.flatMap (frameOf serde) ++ part ∧
    (part = [] ∨ p = .closed ∧ ∃ m, Writable serde m ∧ part <+: frameOf serde m ∧
      part ≠ frameOf serde m)

/-- A world over messages that a world over bytes stands for. -/
structure Refines (serde : Serde) (v : WireWorld) (w : World) : Prop where
  session : w.session = v.session
  net : w.net = v.net
  closed : w.ctrl.closed = v.wire.closed
  inbox : w.ctrl.inbox = v.wire.pending serde
  read : w.ctrl.read = v.wire.read
  emitted : Emitted serde v.session.phase v.wire.outbox w.ctrl.written

theorem refines_init : Refines serde WireWorld.init World.init where
  session := rfl
  net := rfl
  closed := rfl
  inbox := by
    show [] = ((msgFraming serde).decode []).1 ++ []
    rw [Framing.decode_nil]
    rfl
  read := rfl
  emitted := ⟨by simp [World.init, Ctrl.init], [], rfl, .inl rfl⟩

/-- Whatever has been read or failed, a session that goes on has written whole frames. -/
theorem Emitted.goto {p q : Phase} {outbox : List Byte} {written : List Msg}
    (h : Emitted serde p outbox written) (hp : p ≠ .closed) : Emitted serde q outbox written := by
  obtain ⟨hall, part, hout, rfl | ⟨hclosed, -⟩⟩ := h
  · exact ⟨hall, [], hout, .inl rfl⟩
  · exact absurd hclosed hp

theorem Emitted.eq_flatMap {p : Phase} {outbox : List Byte} {written : List Msg}
    (h : Emitted serde p outbox written) (hp : p ≠ .closed) :
    outbox = written.flatMap (frameOf serde) := by
  obtain ⟨-, part, hout, rfl | ⟨hclosed, -⟩⟩ := h
  · rw [hout, List.append_nil]
  · exact absurd hclosed hp

/-- A session that reads or writes is not over. -/
theorem Session.ne_closed_of_onRead {s : Session} {x : Input} {p : Phase}
    (h : s.onRead x = some p) : s.phase ≠ .closed := by
  intro hs
  simp [onRead, hs] at h

theorem Phase.ne_closed_of_onWrite {p q : Phase} {m : Msg} (h : p.onWrite = some (m, q)) :
    p ≠ .closed := by
  rintro rfl
  cases h

/-- A write can fail before it has written anything. -/
theorem Phase.fallibleIo_of_onWrite {p q : Phase} {m : Msg} (h : p.onWrite = some (m, q)) :
    p.FallibleIo := by
  cases Phase.onWrite_cases h with
  | welcome hp | turnedAway hp | error hp | start hp | result hp =>
      rw [hp]
      trivial

section Simulation

variable {v v' : WireWorld} {w : World}

/-- Inputs arriving one after the other. -/
theorem sends_run (w : World) (xs : List Input) (h : w.ctrl.closed = false) :
    Run Step w { w with ctrl := { w.ctrl with inbox := w.ctrl.inbox ++ xs } } := by
  induction xs generalizing w with
  | nil =>
      rw [List.append_nil]
  | cons x xs ih =>
      have hsent : Step w { w with ctrl := { w.ctrl with inbox := w.ctrl.inbox ++ [x] } } :=
        .inr (.inr (.send x h))
      have hrest := ih { w with ctrl := { w.ctrl with inbox := w.ctrl.inbox ++ [x] } } h
      rw [List.append_assoc, List.singleton_append] at hrest
      exact .head hsent hrest

/-- A step that leaves an idle control connection alone leaves any other alone. -/
theorem Step.with_ctrl {s s' : Session} {net net' : Net}
    (h : Step ⟨s, .init, net⟩ ⟨s', .init, net'⟩) (c : Ctrl) :
    Step ⟨s, c, net⟩ ⟨s', c, net'⟩ := by
  generalize hw : (⟨s, .init, net⟩ : World) = w at h
  generalize hw' : (⟨s', .init, net'⟩ : World) = w' at h
  rcases h with hserver | hfail | hpeer
  · cases hserver with
    | read htake hp =>
        -- an idle connection has nothing to read
        subst hw
        cases htake
    | write hp =>
        subst hw
        simp [World.goto, Ctrl.put, Ctrl.init] at hw'
    | bind hp port =>
        subst hw
        cases hw'
        exact .inl (.bind (w := ⟨s, c, net⟩) hp port)
    | data hp h =>
        subst hw
        cases hw'
        exact .inl (.data (w := ⟨s, c, net⟩) hp h)
    | finish hp hr =>
        subst hw
        cases hw'
        exact .inl (.finish (w := ⟨s, c, net⟩) hp hr)
  · cases hfail with
    | fail hf =>
        subst hw
        cases hw'
        exact .inr (.inl (.fail (w := ⟨s, c, net⟩) hf))
  · subst hw
    cases hpeer with
    | send x h => simp [Ctrl.init] at hw'
    | close => simp [Ctrl.init] at hw'
    | reset e => simp [Ctrl.init] at hw'
    | connect h =>
        cases hw'
        exact .inr (.inr (.connect (w := ⟨s, c, net⟩) h))
    | sendData n hc hopen =>
        cases hw'
        exact .inr (.inr (.sendData (w := ⟨s, c, net⟩) n hc hopen))
    | closeData hc =>
        cases hw'
        exact .inr (.inr (.closeData (w := ⟨s, c, net⟩) hc))
    | datagram buf =>
        cases hw'
        exact .inr (.inr (.datagram (w := ⟨s, c, net⟩) buf))
    | wait h =>
        cases hw'
        exact .inr (.inr (.wait (w := ⟨s, c, net⟩) h))

/-- A read of the bytes is the same read of the messages. -/
theorem Refines.take {x : Input} {c' : Wire} (h : Refines serde v w)
    (htake : v.wire.take serde = some (x, c')) :
    ∃ d, w.ctrl.take = some (x, d) ∧ d.closed = c'.closed ∧ d.inbox = c'.pending serde ∧
      d.read = c'.read ∧ d.written = w.ctrl.written ∧ c'.outbox = v.wire.outbox := by
  have hinbox := h.inbox
  unfold Wire.pending at hinbox
  rcases Wire.take_eq_some htake with ⟨rest, hpoll, rfl⟩ | ⟨hpoll, e, hfailure, rfl, rfl⟩ |
    ⟨hpoll, hfailure, hclosed, rfl, rfl⟩
  -- a whole frame
  · rw [Framing.decode_of_some hpoll, List.cons_append] at hinbox
    refine ⟨_, Ctrl.take_cons hinbox, h.closed, rfl, ?_, rfl, rfl⟩
    show w.ctrl.read ++ [x] = v.wire.read ++ [x]
    rw [h.read]
  -- the connection has failed
  · rw [Framing.decode_of_none hpoll, hfailure] at hinbox
    refine ⟨_, Ctrl.take_cons hinbox, h.closed, ?_, ?_, rfl, rfl⟩
    · show [] = ((msgFraming serde).decode []).1 ++ []
      rw [Framing.decode_nil]
      rfl
    · show w.ctrl.read ++ _ = v.wire.read ++ _
      rw [h.read]
  -- the peer has closed
  · rw [Framing.decode_of_none hpoll, hfailure] at hinbox
    have hw : w.ctrl.take = some (.error earlyEof,
        { w.ctrl with read := w.ctrl.read ++ [.error earlyEof] }) := by
      simp [Ctrl.take, hinbox, h.closed, hclosed]
    refine ⟨_, hw, h.closed, ?_, ?_, rfl, rfl⟩
    · show w.ctrl.inbox = ((msgFraming serde).decode []).1 ++ _
      rw [hinbox, hfailure, Framing.decode_nil]
    · show w.ctrl.read ++ _ = v.wire.read ++ _
      rw [h.read]

/-- A message written is its frame. -/
theorem Refines.write (h : Refines serde v w) {m : Msg} {p : Phase} {out : List Byte}
    (hp : v.session.phase.onWrite = some (m, p))
    (hw : (writeMsg serde m).on v.wire.outbox = (.ok (), out)) :
    Refines serde { v.goto p with wire := { v.wire with outbox := out } }
      { w.goto p with ctrl := w.ctrl.put m } where
  session := by
    show ({ w.session with phase := p } : Session) = { v.session with phase := p }
    rw [h.session]
  net := h.net
  closed := h.closed
  inbox := h.inbox
  read := h.read
  emitted := by
    have hout := h.emitted.eq_flatMap (Phase.ne_closed_of_onWrite hp)
    rcases writeMsg_cases serde m v.wire.outbox with ⟨payload, hvec, hle, hrun⟩ | ⟨e, hrun⟩
    · rw [hrun] at hw
      cases hw
      have hm : Writable serde m := by rw [Writable, writeMsg_of_le hvec hle]
      have hframe : frameOf serde m = frame payload := by
        rw [frameOf, writeMsg_of_le hvec hle]
        rfl
      refine ⟨fun m' hm' => ?_, [], ?_, .inl rfl⟩
      · rcases List.mem_append.mp hm' with hmem | hmem
        · exact h.emitted.1 m' hmem
        · rw [List.mem_singleton.mp hmem]
          exact hm
      · show v.wire.outbox ++ frame payload = (w.ctrl.written ++ [m]).flatMap _ ++ []
        rw [hout, List.append_nil, List.flatMap_append, List.flatMap_singleton, hframe]
    · rw [hrun] at hw
      cases hw

/-- A call that fails leaves what was written, and at most a part of one frame more. -/
theorem Refines.fail (h : Refines serde v w) {out : List Byte}
    (hout : Emitted serde .closed out w.ctrl.written) :
    Refines serde { v.goto .closed with wire := { v.wire with outbox := out } }
      (w.goto .closed) where
  session := by
    show ({ w.session with phase := .closed } : Session) = { v.session with phase := .closed }
    rw [h.session]
  net := h.net
  closed := h.closed
  inbox := h.inbox
  read := h.read
  emitted := hout

/-- A segment is the messages it completes. -/
theorem Refines.deliver (h : Refines serde v w) (segment : List Byte)
    (hopen : v.wire.closed = false) (hfailure : v.wire.failure = none) :
    ∃ w', Run Step w w' ∧ Refines serde { v with wire := { v.wire with
      inbox := v.wire.inbox ++ segment, arrived := v.wire.arrived ++ segment } } w' := by
  -- what the bytes held so far leave over, and the segment
  let rest := ((msgFraming serde).decode v.wire.inbox).2 ++ segment
  have hrun := sends_run w ((msgFraming serde).decode rest).1 (h.closed.trans hopen)
  refine ⟨_, hrun, h.session, h.net, h.closed, ?_, h.read, h.emitted⟩
  show w.ctrl.inbox ++ _ = ((msgFraming serde).decode (v.wire.inbox ++ segment)).1 ++ _
  rw [h.inbox, Wire.pending, hfailure, Framing.decode_append v.wire.inbox segment]
  simp [rest]

/-- The peer's end: a close, a reset that drops what was unread, one behind it. -/
theorem Refines.peer (h : Refines serde v w) :
    (∃ w', Run Step w w' ∧
      Refines serde { v with wire := { v.wire with closed := true } } w') ∧
    (∀ e, ∃ w', Run Step w w' ∧ Refines serde
      { v with wire := { v.wire with inbox := [], failure := some e, closed := true } } w') ∧
    (∀ e, v.wire.closed = false → v.wire.failure = none → ∃ w', Run Step w w' ∧
      Refines serde
        { v with wire := { v.wire with failure := some e, closed := true } } w') := by
  refine ⟨?_, fun e => ?_, fun e hopen hfailure => ?_⟩
  · exact ⟨_, .single (.inr (.inr .close)), h.session, h.net, rfl, h.inbox, h.read, h.emitted⟩
  · refine ⟨_, .single (.inr (.inr (.reset e))), h.session, h.net, rfl, ?_, h.read, h.emitted⟩
    show [Except.error e] = ((msgFraming serde).decode []).1 ++ [Except.error e]
    rw [Framing.decode_nil, List.nil_append]
  · have hsent := sends_run w [.error e] (h.closed.trans hopen)
    refine ⟨_, hsent.tail (.inr (.inr .close)), h.session, h.net, rfl, ?_, h.read, h.emitted⟩
    show w.ctrl.inbox ++ [Except.error e] = ((msgFraming serde).decode v.wire.inbox).1 ++ _
    rw [h.inbox, Wire.pending, hfailure]
    simp

/-- A connection fails only as it closes. -/
def WireWorld.FailsClosed (v : WireWorld) : Prop :=
  v.wire.failure.isSome → v.wire.closed = true

theorem WireWorld.FailsClosed.step (h : v.FailsClosed) (hstep : WireStep serde v v') :
    v'.FailsClosed := by
  cases hstep with
  | read htake hp =>
      rcases Wire.take_eq_some htake with ⟨rest, -, rfl⟩ | ⟨-, e, -, -, rfl⟩ |
        ⟨-, hfailure, -, -, rfl⟩
      · exact h
      · intro hsome
        cases hsome
      · exact h
  | write | refused | broken | aside => exact h
  | deliver segment hopen => exact h
  | close | reset | abort => exact fun _ => rfl

/-- One step over bytes is a run over messages. -/
theorem Refines.step (h : Refines serde v w) (hv : v.FailsClosed)
    (hstep : WireStep serde v v') : ∃ w', Run Step w w' ∧ Refines serde v' w' := by
  have hsound : v.wire.closed = false → v.wire.failure = none := by
    intro hopen
    cases hf : v.wire.failure with
    | none => rfl
    | some e =>
        have hclosed := hv (by rw [hf]; rfl)
        rw [hopen] at hclosed
        cases hclosed
  cases hstep with
  | @read x c' p htake hp =>
      obtain ⟨d, hd, hclosed, hinbox, hread, hwritten, houtbox⟩ := h.take htake
      have honRead : w.session.onRead x = some p := by rw [h.session]; exact hp
      refine ⟨_, .single (.inl (.read hd honRead)), ?_, h.net, hclosed, hinbox, hread, ?_⟩
      · show ({ w.session with phase := p } : Session) = { v.session with phase := p }
        rw [h.session]
      · show Emitted serde p c'.outbox d.written
        rw [houtbox, hwritten]
        exact h.emitted.goto (Session.ne_closed_of_onRead hp)
  | @write m p out hp hw =>
      have honWrite : w.session.phase.onWrite = some (m, p) := by rw [h.session]; exact hp
      exact ⟨_, .single (.inl (.write honWrite)), h.write hp hw⟩
  | @refused m p e out hp hw =>
      have hio : w.session.phase.FallibleIo := by
        rw [h.session]
        exact Phase.fallibleIo_of_onWrite hp
      refine ⟨_, .single (.inr (.inl (.fail hio))), h.fail ?_⟩
      -- a refused message writes nothing
      rcases writeMsg_cases serde m v.wire.outbox with ⟨payload, -, -, hrun⟩ | ⟨e', hrun⟩
      · rw [hrun] at hw
        cases hw
      · rw [hrun] at hw
        cases hw
        exact h.emitted.goto (Phase.ne_closed_of_onWrite hp)
  | @broken m p part hp hm hpart hne =>
      have hio : w.session.phase.FallibleIo := by
        rw [h.session]
        exact Phase.fallibleIo_of_onWrite hp
      refine ⟨_, .single (.inr (.inl (.fail hio))), h.fail ⟨h.emitted.1, part, ?_, ?_⟩⟩
      · rw [h.emitted.eq_flatMap (Phase.ne_closed_of_onWrite hp)]
      · exact .inr ⟨rfl, m, hm, hpart, hne⟩
  | @aside s' net' hs =>
      have hfull := Step.with_ctrl hs w.ctrl
      rw [← h.session, ← h.net] at hfull
      refine ⟨_, .single hfull, rfl, rfl, h.closed, h.inbox, h.read, ?_⟩
      obtain ⟨hall, part, hout, hpart⟩ := h.emitted
      refine ⟨hall, part, hout, hpart.imp_right fun ⟨hclosed, hm⟩ => ⟨?_, hm⟩⟩
      -- a session that is over stays over
      exact (hs.of_closed hclosed).1
  | deliver segment hopen => exact h.deliver segment hopen (hsound hopen)
  | close => exact h.peer.1
  | reset e => exact h.peer.2.1 e
  | abort e hopen => exact h.peer.2.2 e hopen (hsound hopen)

end Simulation

/-- Every world over bytes stands for a reachable world over messages. -/
theorem WireReachable.refines {v : WireWorld} (h : WireReachable serde v) :
    ∃ w, SessionReachable w ∧ Refines serde v w := by
  have hinv : v.FailsClosed ∧ ∃ w, SessionReachable w ∧ Refines serde v w := by
    apply Reachable.invariant h
      (I := fun v => v.FailsClosed ∧ ∃ w, SessionReachable w ∧ Refines serde v w)
    · rintro v rfl
      exact ⟨fun hsome => (by cases hsome), World.init, Reachable.start rfl, refines_init⟩
    · rintro v v' ⟨hv, w, hw, href⟩ hstep
      obtain ⟨w', hrun, href'⟩ := href.step hv hstep
      exact ⟨hv.step hstep, w', Reachable.run hw hrun, href'⟩
  exact hinv.2

/-! ## What the client receives -/

/-- A session over bytes is a session over messages: the same locals, data plane and reads;
    what it has not read yet is what its bytes hold, and its output is the frames of the
    messages written, with a part of one more only once it is over. -/
theorem wire_refines {v : WireWorld} (h : WireReachable serde v) :
    ∃ w, SessionReachable w ∧ w.session = v.session ∧ w.net = v.net ∧
      w.ctrl.closed = v.wire.closed ∧ w.ctrl.read = v.wire.read ∧
      w.ctrl.inbox = v.wire.pending serde ∧
      Emitted serde v.session.phase v.wire.outbox w.ctrl.written := by
  obtain ⟨w, hw, href⟩ := h.refines
  exact ⟨w, hw, href.session, href.net, href.closed, href.read, href.inbox, href.emitted⟩

/-- An order of messages is that of the messages read for them. -/
theorem OutputShape.readAs {shape msgs : List Msg} (h : OutputShape shape)
    (hread : List.Forall₂ Msg.ReadAs shape msgs) : OutputShape msgs := by
  -- only the last message of an order can be a Result
  cases h with
  | rejectedGreeting =>
      obtain _ | ⟨⟨⟩, ⟨⟩⟩ := hread
      exact .rejectedGreeting
  | rejectedVersion hw =>
      obtain _ | ⟨⟨⟩, _ | ⟨⟨⟩, ⟨⟩⟩⟩ := hread
      exact .rejectedVersion hw
  | rejectedRequest hw =>
      obtain _ | ⟨⟨⟩, _ | ⟨⟨⟩, ⟨⟩⟩⟩ := hread
      exact .rejectedRequest hw
  | rejectedRun hw s =>
      obtain _ | ⟨⟨⟩, _ | ⟨⟨⟩, _ | ⟨⟨⟩, ⟨⟩⟩⟩⟩ := hread
      exact .rejectedRun hw s
  | reported hw s r =>
      obtain _ | ⟨⟨⟩, _ | ⟨⟨⟩, _ | ⟨hlast, ⟨⟩⟩⟩⟩ := hread
      cases hlast <;> exact .reported hw s _

/-- What is read for the first messages of an order are the first of an order. -/
theorem OutputShape.readAs_prefix {shape written msgs : List Msg} (h : OutputShape shape)
    ( hprefix : written <+: shape) (hread : List.Forall₂ Msg.ReadAs written msgs) :
    ∃ shape', OutputShape shape' ∧ msgs <+: shape' := by
  obtain ⟨rest, rfl⟩ := hprefix
  have hrest : List.Forall₂ Msg.ReadAs rest rest := List.forall₂_same.mpr fun m _ => .same m
  exact ⟨msgs ++ rest, h.readAs (List.rel_append hread hrest), List.prefix_append _ _⟩

/-- The bytes a client receives are framed messages in one of the five orders, whatever it
    and the network do: read back with the same framing they give no error, and only the
    end of a session that broke off leaves a part of a frame. -/
theorem wire_output (hback : serde.ReadsBack) {v : WireWorld} (h : WireReachable serde v) :
    ∃ msgs part, (msgFraming serde).decode v.wire.outbox = (msgs.map .ok, part) ∧
      (∃ shape, OutputShape shape ∧ msgs <+: shape) ∧
      (part ≠ [] → v.session.phase = .closed) := by
  obtain ⟨w, hw, href⟩ := h.refines
  obtain ⟨hall, part, hout, hpart⟩ := href.emitted
  -- a part of a frame is not a frame
  have hpoll : (msgFraming serde).reader.poll part = none := by
    rcases hpart with rfl | ⟨-, m, hm, hprefix, hne⟩
    · exact (msgFraming serde).hungry
    · obtain ⟨payload, -, hle, hframe⟩ := writable_payload hm
      rw [hframe] at hprefix hne
      exact poll_of_prefix hle hprefix hne
  obtain ⟨msgs, hdecode, hread⟩ := decode_frames hback hall hpoll
  obtain ⟨shape, hshape, hprefix⟩ := hw.history.phase.exchanged.shape
  refine ⟨msgs, part, ?_, hshape.readAs_prefix hprefix hread, fun hne => ?_⟩
  · rw [hout, hdecode]
  · rcases hpart with rfl | ⟨hclosed, -⟩
    · exact absurd rfl hne
    · exact hclosed

/-- A codec for Stop and the refusal of it, in serde_json's compact spelling. -/
def refusalSerde : Serde where
  toVec
    | .stop => .ok (ascii "\x7b\"type\":\"Stop\"\x7d")
    | .error .unexpectedMessage =>
        .ok (ascii "\x7b\"type\":\"Error\",\"unexpected_message\":null\x7d")
    | _ => .error ⟨.other, "unsupported"⟩
  fromSlice payload :=
    if payload = ascii "\x7b\"type\":\"Stop\"\x7d" then .ok .stop
    else if payload = ascii "\x7b\"type\":\"Error\",\"unexpected_message\":null\x7d" then
      .ok (.error .unexpectedMessage)
    else .error ⟨.invalidData, "unsupported"⟩

theorem refusalSerde_readsBack : refusalSerde.ReadsBack := by
  intro m payload h
  refine ⟨m, ?_, .same m⟩
  cases m with
  | stop =>
      cases h
      rfl
  | error e =>
      cases e <;> cases h
      rfl
  | hello | welcome | negotiate | start | run | result => cases h

/-- A client that opens with Stop, cut into two segments in the middle of the prefix. -/
def WireWorld.refused : WireWorld where
  session := ⟨.closed, none, none⟩
  wire :=
    { inbox := []
      failure := none
      closed := false
      arrived := frameOf refusalSerde .stop
      read := [.ok .stop]
      outbox := frameOf refusalSerde (.error .unexpectedMessage) }
  net := .init

theorem refused_reachable : WireReachable refusalSerde .refused := by
  have hinit : WireReachable refusalSerde .init := Reachable.start rfl
  have hfirst := hinit.next (.deliver ((frameOf refusalSerde .stop).take 2) rfl)
  have hsecond := hfirst.next (.deliver ((frameOf refusalSerde .stop).drop 2) rfl)
  have hread := hsecond.next (.read (x := .ok .stop) rfl rfl)
  exact hread.next (.write rfl rfl)

/-- The session over messages behind it. -/
theorem wire_refines_refused :
    ∃ w, SessionReachable w ∧ w.session = WireWorld.refused.session ∧
      w.net = WireWorld.refused.net ∧ w.ctrl.closed = WireWorld.refused.wire.closed ∧
      w.ctrl.read = WireWorld.refused.wire.read ∧
      w.ctrl.inbox = WireWorld.refused.wire.pending refusalSerde ∧
      Emitted refusalSerde WireWorld.refused.session.phase WireWorld.refused.wire.outbox
        w.ctrl.written :=
  wire_refines refused_reachable

/-- The output of that session. -/
theorem wire_output_refused :
    ∃ msgs part, (msgFraming refusalSerde).decode (frameOf refusalSerde (.error .unexpectedMessage))
        = (msgs.map .ok, part) ∧
      (∃ shape, OutputShape shape ∧ msgs <+: shape) ∧ (part ≠ [] → Phase.closed = .closed) :=
  wire_output refusalSerde_readsBack refused_reachable

end Andri

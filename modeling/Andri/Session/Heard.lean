/-
  Andri.Session.Heard

  What a session has read of the bytes that arrived.  A `read_msg` that fails
  is the session's last: from there it runs to its end without the control
  connection.  So the reads are the frames that arrived, in order and from the
  first one on, with at most one failure of the connection behind them; how the
  bytes were cut into segments does not show.
-/
import Andri.Session.Wire

namespace Andri

open Lib

/-! ## A failed read is the last -/

/-- The phases from which no `read_msg` is reached any more. -/
def Phase.Deaf : Phase → Prop
  | .closed => True
  | .reporting _ => True
  | .running _ path => path.stopReads = 1
  | _ => False

/-- A session past its last read reads nothing. -/
theorem Phase.Deaf.not_onRead {s : Session} {x : Input} {p : Phase} (hs : s.phase.Deaf)
    (h : s.onRead x = some p) : False := by
  cases Session.onRead_cases h with
  | hello hs' | negotiate hs' | run hs' | drained hs' =>
      rw [hs'] at hs
      exact hs
  | tcpStop hs' hmain =>
      rw [hs'] at hs
      simp [Deaf, DataPath.stopReads, hmain] at hs
  | udpStop hs' =>
      rw [hs'] at hs
      cases hs
  | unexpected hwait hp hm | failed hwait hp =>
      rcases Phase.wait_cases hwait hp with ⟨-, hs'⟩ | ⟨-, hs'⟩ | ⟨-, n, hs'⟩ <;>
        (rw [hs'] at hs; exact hs)

/-- A read that fails leaves the session past its last read. -/
theorem OnRead.deaf {s : Session} {e : IoError} {p : Phase} (h : OnRead s (.error e) p) :
    p.Deaf := by
  cases h with
  | failed | drained => trivial
  | tcpStop | udpStop => rfl

/-- Past its last read a session stays past it. -/
theorem Phase.Deaf.step {w w' : World} (hw : w.session.phase.Deaf) (h : Step w w') :
    w'.session.phase.Deaf := by
  rcases h with hserver | hfail | hpeer
  · cases hserver with
    | read htake hp => exact (hw.not_onRead hp).elim
    | write hp =>
        cases Phase.onWrite_cases hp with
        | welcome hs | turnedAway hs | start hs =>
            rw [hs] at hw
            exact hw.elim
        | error | result => trivial
    | bind hp port =>
        rw [hp] at hw
        exact hw.elim
    | data hp hstep =>
        rw [hp] at hw
        exact hstep.stopReads_eq.trans hw
    | @finish n path r hp hr =>
        rw [hp] at hw
        cases path with
        | file f => cases hw
        | tcp | udp => trivial
  · cases hfail with
    | fail => trivial
  · rw [hpeer.frame.1]
    exact hw

/-- The reads of a session: messages, or messages and a failure it has gone on from
    without reading again. -/
inductive ReadsOk (p : Phase) (read : List Input) : Prop
  | messages (h : ∀ x ∈ read, ∃ m, x = .ok m)
  | failed {pre : List Input} {e : IoError} (hread : read = pre ++ [.error e])
      (h : ∀ x ∈ pre, ∃ m, x = .ok m) (hp : p.Deaf)

theorem SessionReachable.readsOk {w : World} (h : SessionReachable w) :
    ReadsOk w.session.phase w.ctrl.read := by
  apply Reachable.invariant h (I := fun w => ReadsOk w.session.phase w.ctrl.read)
  · rintro w rfl
    exact .messages fun x hx => (by cases hx)
  · intro w w' hw hstep
    by_cases hsame : w'.ctrl.read = w.ctrl.read
    -- nothing has been read
    · rw [hsame]
      cases hw with
      | messages hall => exact .messages hall
      | failed hread hall hp => exact .failed hread hall (hp.step hstep)
    · obtain ⟨x, c', p, htake, hp, rfl⟩ : ∃ x c' p, w.ctrl.take = some (x, c') ∧
          w.session.onRead x = some p ∧ w' = { w.goto p with ctrl := c' } := by
        rcases hstep with hserver | hfail | hpeer
        · cases hserver with
          | read htake hp => exact ⟨_, _, _, htake, hp, rfl⟩
          | write | bind | data | finish => exact absurd rfl hsame
        · cases hfail
          exact absurd rfl hsame
        · exact absurd hpeer.frame.2.1 hsame
      have hread : c'.read = w.ctrl.read ++ [x] := (Ctrl.take_frame htake).1
      cases hw with
      | failed _ _ hdeaf => exact (hdeaf.not_onRead hp).elim
      | messages hall =>
          cases x with
          | ok m =>
              refine .messages fun y hy => ?_
              rw [show ({ w.goto p with ctrl := c' } : World).ctrl.read = _ from hread] at hy
              rcases List.mem_append.mp hy with hmem | hmem
              · exact hall y hmem
              · exact ⟨m, List.mem_singleton.mp hmem⟩
          | error e => exact .failed hread hall (Session.onRead_cases hp).deaf

/-- Whatever was read before a failure, nothing was read after it. -/
theorem ReadsOk.error_last {p : Phase} {read pre post : List Input} {e : IoError}
    (h : ReadsOk p read) (hread : read = pre ++ .error e :: post) : post = [] := by
  cases h with
  | messages hall =>
      obtain ⟨m, hm⟩ := hall (.error e) (by rw [hread]; simp)
      cases hm
  | @failed pre' e' hread' hall hp =>
      -- a failure with something behind it would be among the messages
      rcases List.eq_nil_or_concat post with hpost | ⟨ys, y, hpost⟩
      · exact hpost
      · rw [hread', hpost, List.concat_eq_append, ← List.cons_append, ← List.append_assoc] at hread
        have hpre := (List.append_inj' hread rfl).1
        obtain ⟨m, hm⟩ := hall (.error e) (by rw [hpre]; simp)
        cases hm

/-! ## The reads and the bytes -/

section Bytes

variable {serde : Serde} {v v' : WireWorld}

/-- The reads of a connection and what has arrived on it: everything read so far, or as far
    as a reset let it be read, or that and the failure itself. -/
inductive Heard (serde : Serde) (c : Wire) : Prop
  | live (h : (msgFraming serde).decode c.arrived =
      (c.read ++ ((msgFraming serde).decode c.inbox).1, ((msgFraming serde).decode c.inbox).2))
  | cut (hclosed : c.closed = true) (hinbox : c.inbox = []) (hfailure : c.failure.isSome)
      (h : c.read <+: ((msgFraming serde).decode c.arrived).1)
  | ended {pre : List Input} {e : IoError} (hclosed : c.closed = true)
      (hread : c.read = pre ++ [.error e])
      (h : pre <+: ((msgFraming serde).decode c.arrived).1)

theorem Heard.prefix_of_live {c : Wire} (h : (msgFraming serde).decode c.arrived =
    (c.read ++ ((msgFraming serde).decode c.inbox).1, ((msgFraming serde).decode c.inbox).2)) :
    c.read <+: ((msgFraming serde).decode c.arrived).1 := by
  rw [h]
  exact List.prefix_append _ _

/-- A read takes the next frame that arrived, or meets the end of what did. -/
theorem Heard.take {c c' : Wire} {x : Input} (h : Heard serde c)
    (hfail : c.failure.isSome → c.closed = true) (hok : ∀ y ∈ c.read, ∃ m, y = .ok m)
    (htake : c.take serde = some (x, c')) : Heard serde c' := by
  cases h with
  | live hlive =>
      have hprefix := prefix_of_live hlive
      rcases Wire.take_eq_some htake with ⟨rest, hpoll, rfl⟩ | ⟨-, e, hfailure, rfl, rfl⟩ |
        ⟨-, -, hclosed, rfl, rfl⟩
      · refine .live ?_
        show (msgFraming serde).decode c.arrived = _
        rw [hlive, Framing.decode_of_some hpoll, List.append_assoc, List.singleton_append]
      · exact .ended (hfail (by rw [hfailure]; rfl)) rfl hprefix
      · exact .ended hclosed rfl hprefix
  | cut hclosed hinbox hfailure hprefix =>
      have hnone : (msgFraming serde).reader.poll c.inbox = none := by
        rw [hinbox]
        exact (msgFraming serde).hungry
      rcases Wire.take_eq_some htake with ⟨rest, hpoll, -⟩ | ⟨-, e, -, rfl, rfl⟩ |
        ⟨-, hnone, -, -, -⟩
      · rw [hnone] at hpoll
        cases hpoll
      · exact .ended hclosed rfl hprefix
      · rw [hnone] at hfailure
        cases hfailure
  | @ended pre e hclosed hread hprefix =>
      obtain ⟨m, hm⟩ := hok (.error e) (by rw [hread]; simp)
      cases hm

theorem Heard.step (h : Heard serde v.wire) (hfail : v.FailsClosed)
    (hok : ReadsOk v.session.phase v.wire.read) (hstep : WireStep serde v v') :
    Heard serde v'.wire := by
  cases hstep with
  | read htake hp =>
      cases hok with
      | messages hall => exact h.take hfail hall htake
      | failed _ _ hdeaf => exact (hdeaf.not_onRead hp).elim
  | write | refused | broken | aside =>
      cases h with
      | live hlive => exact .live hlive
      | cut hclosed hinbox hfailure hprefix => exact .cut hclosed hinbox hfailure hprefix
      | ended hclosed hread hprefix => exact .ended hclosed hread hprefix
  | deliver segment hopen =>
      cases h with
      | live hlive =>
          refine .live ?_
          show (msgFraming serde).decode (v.wire.arrived ++ segment) =
            (v.wire.read ++ ((msgFraming serde).decode (v.wire.inbox ++ segment)).1,
              ((msgFraming serde).decode (v.wire.inbox ++ segment)).2)
          rw [Framing.decode_append, hlive, Framing.decode_append v.wire.inbox, List.append_assoc]
      | cut hclosed | ended hclosed =>
          rw [hopen] at hclosed
          cases hclosed
  | close =>
      cases h with
      | live hlive => exact .live hlive
      | cut hclosed hinbox hfailure hprefix => exact .cut rfl hinbox hfailure hprefix
      | ended hclosed hread hprefix => exact .ended rfl hread hprefix
  | reset e =>
      cases h with
      | live hlive =>
          have hprefix := Heard.prefix_of_live hlive
          exact .cut rfl rfl rfl hprefix
      | cut hclosed hinbox hfailure hprefix => exact .cut rfl rfl rfl hprefix
      | ended hclosed hread hprefix => exact .ended rfl hread hprefix
  | abort e hopen =>
      cases h with
      | live hlive => exact .live hlive
      | cut hclosed | ended hclosed =>
          rw [hopen] at hclosed
          cases hclosed

theorem WireReachable.readsOk (h : WireReachable serde v) :
    ReadsOk v.session.phase v.wire.read := by
  obtain ⟨w, hw, href⟩ := h.refines
  rw [← href.session, ← href.read]
  exact hw.readsOk

theorem WireReachable.heard (h : WireReachable serde v) : Heard serde v.wire := by
  have hinv : WireReachable serde v ∧ v.FailsClosed ∧ Heard serde v.wire := by
    apply Reachable.invariant h
      (I := fun v => WireReachable serde v ∧ v.FailsClosed ∧ Heard serde v.wire)
    · rintro v rfl
      refine ⟨Reachable.start rfl, fun hsome => (by cases hsome), .live ?_⟩
      show (msgFraming serde).decode [] =
        ([] ++ ((msgFraming serde).decode []).1, ((msgFraming serde).decode []).2)
      rw [Framing.decode_nil]
      rfl
    · rintro v v' ⟨hv, hfail, hheard⟩ hstep
      exact ⟨hv.next hstep, hfail.step hstep, hheard.step hfail hv.readsOk hstep⟩
  exact hinv.2.2

/-- The reads of a session depend on the bytes that arrived, not on how they were cut into
    segments: they are the first frames of these bytes, followed on a connection that was
    closed or reset by at most one failure.  Nothing is read after a failed read, and where a
    read would wait every frame that arrived has been read. -/
theorem wire_reads (h : WireReachable serde v) :
    (v.wire.read <+: ((msgFraming serde).decode v.wire.arrived).1 ∨
      v.wire.closed = true ∧ ∃ pre e, v.wire.read = pre ++ [.error e] ∧
        pre <+: ((msgFraming serde).decode v.wire.arrived).1) ∧
    (∀ pre e post, v.wire.read = pre ++ .error e :: post → post = []) ∧
    (v.wire.take serde = none → v.wire.read = ((msgFraming serde).decode v.wire.arrived).1) := by
  have hheard := h.heard
  refine ⟨?_, fun pre e post hread => h.readsOk.error_last hread, fun htake => ?_⟩
  · cases hheard with
    | live hlive => exact .inl (Heard.prefix_of_live hlive)
    | cut _ _ _ hprefix => exact .inl hprefix
    | ended hclosed hread hprefix => exact .inr ⟨hclosed, _, _, hread, hprefix⟩
  · obtain ⟨hpoll, -, hopen⟩ := Wire.of_take_eq_none htake
    cases hheard with
    | live hlive => rw [hlive, Framing.decode_of_none hpoll, List.append_nil]
    | cut hclosed | ended hclosed =>
        rw [hopen] at hclosed
        cases hclosed

/-- Two segments, one message. -/
theorem wire_reads_refused :
    [Except.ok Msg.stop] <+: ((msgFraming refusalSerde).decode (frameOf refusalSerde .stop)).1 ∨
      false = true ∧ ∃ pre e, [Except.ok Msg.stop] = pre ++ [.error e] ∧
        pre <+: ((msgFraming refusalSerde).decode (frameOf refusalSerde .stop)).1 :=
  (wire_reads refused_reachable).1

end Bytes

end Andri

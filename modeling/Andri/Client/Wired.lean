/-
  Andri.Client.Wired

  A client and its session over the bytes of a control connection.  Each direction
  is a byte stream: what one end writes arrives in segments of any size, and a
  `read_msg` at the other waits until a whole frame is there.

  The two are the client and the session over messages, whatever the segments,
  as long as every Result fits a frame; the Result a client is left with is what
  the codec reads of the session's, whose floats may be others.  A Result that
  fits no frame is refused by `write_msg`: the session breaks off and the client
  fails at the end of file.
-/
import Andri.Client.Exit
import Andri.Client.NoDeadlock
import Andri.Lib.Simulation
import Andri.Session.Wire

namespace Andri

open Lib Lib.StreamM

/-- One direction of a connection: the bytes that have arrived and are not read, and
    behind them those still on their way. -/
structure Pipe where
  inbox : List Byte
  flight : List Byte

def Pipe.empty : Pipe := ⟨[], []⟩

/-- Bytes written. -/
def Pipe.put (p : Pipe) (out : List Byte) : Pipe := { p with flight := p.flight ++ out }

/-- The next `n` bytes arrive. -/
def Pipe.arrive (p : Pipe) (n : ℕ) : Pipe := ⟨p.inbox ++ p.flight.take n, p.flight.drop n⟩

/-- One `read_msg` on what has arrived: `none` is a read that waits. -/
def Pipe.take (serde : Serde) (p : Pipe) : Option (Input × Pipe) :=
  ((msgFraming serde).reader.poll p.inbox).map fun x => (x.1, { p with inbox := x.2 })

/-- A client and its session over bytes; `gone` says that the client has dropped its
    end. -/
structure Wired where
  client : ClientPhase
  session : Session
  up : Pipe
  down : Pipe
  gone : Bool
  net : Net

/-- A client that has just been accepted. -/
def Wired.init : Wired := ⟨.greeting, ⟨.greeting, none, none⟩, .empty, .empty, false, .init⟩

/-- One step of either end, or of the network between them. -/
inductive WiredStep (serde : Serde) (su : Setup) : Wired → Wired → Prop
  | arriveUp {v : Wired} (n : ℕ) : WiredStep serde su v { v with up := v.up.arrive n }
  | arriveDown {v : Wired} (n : ℕ) : WiredStep serde su v { v with down := v.down.arrive n }
  | network {v : Wired} (buf : List Byte) :
      WiredStep serde su v { v with net := { v.net with dgrams := v.net.dgrams ++ [buf] } }
  | clientRead {v : Wired} {m : Msg} {p : ClientPhase} {d : Pipe}
      (htake : v.down.take serde = some (.ok m, d)) (hp : v.client.onRead m = some p) :
      WiredStep serde su v { v with client := p, down := d }
  | clientError {v : Wired} {e : IoError} {d : Pipe}
      (htake : v.down.take serde = some (.error e, d)) (hp : v.client.Reads) :
      WiredStep serde su v { v with client := .failed e, down := d }
  -- the session is over and all it wrote has arrived
  | clientEof {v : Wired} (hover : v.session.phase = .closed) (hall : v.down.flight = [])
      (htake : v.down.take serde = none) (hp : v.client.Reads) :
      WiredStep serde su v { v with client := .failed earlyEof }
  | clientWrite {v : Wired} {m : Msg} {p : ClientPhase} {out : List Byte}
      (hp : v.client.onWrite su.neg = some (m, p))
      (hw : (writeMsg serde m).on [] = (.ok (), out)) :
      WiredStep serde su v { v with client := p, up := v.up.put out }
  | clientRefused {v : Wired} {m : Msg} {p : ClientPhase} {e : IoError} {out : List Byte}
      (hp : v.client.onWrite su.neg = some (m, p))
      (hw : (writeMsg serde m).on [] = (.error e, out)) :
      WiredStep serde su v { v with client := .failed e, up := v.up.put out }
  | drive {v : Wired} {start : Start} {d d' : DriveState} {net' : Net}
      (hp : v.client = .driving start d)
      (h : DriveStep su (v.session.tcpData = some start.dataPort) v.net d net' d') :
      WiredStep serde su v { v with client := .driving start d', net := net' }
  | driven {v : Wired} {start : Start} {d : DriveState} (hp : v.client = .driving start d)
      (hd : d.Returned) : WiredStep serde su v { v with client := .stopping }
  | drop {v : Wired} (hp : (∃ r, v.client = .done r) ∨ ∃ e, v.client = .failed e) :
      WiredStep serde su v { v with gone := true }
  | serverRead {v : Wired} {x : Input} {p : Phase} {u : Pipe}
      (htake : v.up.take serde = some (x, u)) (hp : v.session.onRead x = some p) :
      WiredStep serde su v { v with session := { v.session with phase := p }, up := u }
  | serverEof {v : Wired} {p : Phase} (hgone : v.gone = true) (hall : v.up.flight = [])
      (htake : v.up.take serde = none) (hp : v.session.onRead (.error earlyEof) = some p) :
      WiredStep serde su v { v with
        session := { v.session with phase := p }
        up := { v.up with inbox := [] } }
  | serverWrite {v : Wired} {m : Msg} {p : Phase} {out : List Byte}
      (hp : v.session.phase.onWrite = some (m, p))
      (hw : (writeMsg serde m).on [] = (.ok (), out)) :
      WiredStep serde su v { v with
        session := { v.session with phase := p }
        down := v.down.put out }
  | serverRefused {v : Wired} {m : Msg} {p : Phase} {e : IoError} {out : List Byte}
      (hp : v.session.phase.onWrite = some (m, p))
      (hw : (writeMsg serde m).on [] = (.error e, out)) :
      WiredStep serde su v { v with
        session := { v.session with phase := .closed }
        down := v.down.put out }
  | bind {v : Wired} {neg : Negotiate} (hp : v.session.phase = .binding neg) (port : U16) :
      WiredStep serde su v { v with session := bindData neg port }
  | data {v : Wired} {neg : Negotiate} {path path' : DataPath} {net' : Net}
      (hp : v.session.phase = .running neg path) (h : DataStep neg v.net path net' path') :
      WiredStep serde su v { v with
        session := { v.session with phase := .running neg path' }
        net := net' }
  | finish {v : Wired} {neg : Negotiate} {path : DataPath} {r : TestResult}
      (hp : v.session.phase = .running neg path) (hr : path.returned = some r) :
      WiredStep serde su v { v with session := { v.session with phase := afterData path r } }

/-- The states a client and its session can be in over bytes. -/
def WiredReachable (serde : Serde) (su : Setup) : Wired → Prop :=
  Reachable (· = Wired.init) (WiredStep serde su)

/-- A codec for the exchange of a request: it reads back what it encodes, and all but
    the Result fits a frame. -/
structure Serde.Exchanges (serde : Serde) (neg : Negotiate) : Prop where
  readsBack : serde.ReadsBack
  script : ∀ m ∈ script neg, Writable serde m
  welcome : Writable serde (.welcome (welcomeTo clientHello))
  start : ∀ port, Writable serde (.start ⟨port, SERVER_SEED⟩)

/-! ## Frames in a pipe -/

/-- The bytes in a pipe are the frames of the messages. -/
def Pipe.Holds (serde : Serde) (p : Pipe) (msgs : List Msg) : Prop :=
  (∀ m ∈ msgs, Writable serde m) ∧ p.inbox ++ p.flight = msgs.flatMap (frameOf serde)

section Pipe

variable {serde : Serde} {p p' : Pipe} {msgs : List Msg} {m : Msg} {x : Input}

theorem Pipe.take_eq_some (h : p.take serde = some (x, p')) :
    (msgFraming serde).reader.poll p.inbox = some (x, p'.inbox) ∧ p'.flight = p.flight := by
  obtain ⟨y, hpoll, hy⟩ := Option.map_eq_some_iff.mp h
  cases hy
  exact ⟨hpoll, rfl⟩

/-- A read takes the first message off, as the codec reads it. -/
theorem Pipe.Holds.take (hback : serde.ReadsBack) (h : p.Holds serde msgs)
    (htake : p.take serde = some (x, p')) :
    ∃ m m' rest, msgs = m :: rest ∧ serde.Reads m m' ∧ x = .ok m' ∧ p'.Holds serde rest := by
  obtain ⟨hpoll, hflight⟩ := Pipe.take_eq_some htake
  obtain ⟨hall, hbytes⟩ := h
  have hmore := Reader.poll_append hpoll p.flight
  rw [hbytes] at hmore
  cases msgs with
  | nil =>
      rw [List.flatMap_nil, (msgFraming serde).hungry] at hmore
      cases hmore
  | cons m rest =>
      obtain ⟨m', hread, hframe⟩ := poll_frameOf hback (hall m List.mem_cons_self)
      rw [List.flatMap_cons, hframe] at hmore
      simp only [Option.some.injEq, Prod.mk.injEq] at hmore
      refine ⟨m, m', rest, rfl, hread, hmore.1.symm,
        fun n hn => hall n (List.mem_cons_of_mem m hn), ?_⟩
      rw [hflight]
      exact hmore.2.symm

/-- Once all has arrived the first message can be read. -/
theorem Pipe.Holds.exists_take (hback : serde.ReadsBack) (h : p.Holds serde (m :: msgs)) :
    ∃ m' p', (p.arrive p.flight.length).take serde = some (.ok m', p') ∧ serde.Reads m m' ∧
      p'.Holds serde msgs := by
  obtain ⟨hall, hbytes⟩ := h
  obtain ⟨m', hread, hframe⟩ := poll_frameOf hback (hall m List.mem_cons_self)
  have hpoll := hframe (msgs.flatMap (frameOf serde))
  rw [← List.flatMap_cons, ← hbytes] at hpoll
  refine ⟨m', ⟨msgs.flatMap (frameOf serde), []⟩, ?_, hread,
    fun n hn => hall n (List.mem_cons_of_mem m hn), List.append_nil _⟩
  rw [Pipe.arrive, List.take_length, List.drop_length, Pipe.take]
  exact congrArg (Option.map _) hpoll

/-- What waits with nothing on its way holds no message. -/
theorem Pipe.Holds.eq_nil (hback : serde.ReadsBack) (h : p.Holds serde msgs)
    (hall : p.flight = []) (htake : p.take serde = none) : msgs = [] := by
  cases msgs with
  | nil => rfl
  | cons m rest =>
      obtain ⟨m', p', hp', -, -⟩ := h.exists_take hback
      have hsame : p.arrive p.flight.length = p := by
        cases p
        simp_all [arrive]
      rw [hsame, htake] at hp'
      cases hp'

theorem Pipe.Holds.arrive (h : p.Holds serde msgs) (n : ℕ) : (p.arrive n).Holds serde msgs := by
  refine ⟨h.1, ?_⟩
  show (p.inbox ++ p.flight.take n) ++ p.flight.drop n = _
  rw [List.append_assoc, List.take_append_drop]
  exact h.2

/-- A message written is behind those there were. -/
theorem Pipe.Holds.put {out : List Byte} (h : p.Holds serde msgs)
    (hw : (writeMsg serde m).on [] = (.ok (), out)) : (p.put out).Holds serde (msgs ++ [m]) := by
  obtain ⟨hall, hbytes⟩ := h
  have hm : Writable serde m := by rw [Writable, hw]
  have hout : frameOf serde m = out := by rw [frameOf, hw]
  refine ⟨fun m' hm' => ?_, ?_⟩
  · rcases List.mem_append.mp hm' with hold | hnew
    · exact hall m' hold
    · rw [List.mem_singleton.mp hnew]
      exact hm
  · show p.inbox ++ (p.flight ++ out) = _
    rw [← List.append_assoc, hbytes, List.flatMap_append, List.flatMap_singleton, hout]

end Pipe

/-! ## The two over messages -/

/-- The phases of a client over bytes and over messages: the same, but that the one holds
    the Result the codec read of the other's. -/
inductive Received (serde : Serde) : ClientPhase → ClientPhase → Prop
  | same {p : ClientPhase} (hp : ∀ r, p ≠ .done r) : Received serde p p
  | done {r r' : TestResult} (h : serde.Reads (.result r) (.result r')) :
      Received serde (.done r') (.done r)

/-- The joint state with the messages in the control connection. -/
def Wired.joint (v : Wired) (client : ClientPhase) (seen : ℕ) (ctrl : Ctrl) : Joint :=
  ⟨client, seen, ⟨v.session, ctrl, v.net⟩⟩

/-- The pipes hold the messages that one end has written and the other has not read. -/
structure Wired.Carries (serde : Serde) (v : Wired) (seen : ℕ) (ctrl : Ctrl) : Prop where
  gone : ctrl.closed = v.gone
  up : ∃ msgs : List Msg, ctrl.inbox = msgs.map .ok ∧ v.up.Holds serde msgs
  down : v.down.Holds serde (ctrl.written.drop seen)

/-- The state over messages that a state over bytes stands for. -/
def Stands (serde : Serde) (v : Wired) (j : Joint) : Prop :=
  ∃ client seen ctrl, j = v.joint client seen ctrl ∧ Received serde v.client client ∧
    v.Carries serde seen ctrl

/-- The session's Result fits no frame, and `write_msg` has refused it: the session is
    over, and nothing is on its way to the client. -/
structure Oversized (serde : Serde) (su : Setup) (v : Wired) : Prop where
  result : ∃ u j r, JointReachable su j ∧ Stands serde u j ∧
    j.world.session.phase = .reporting r ∧ ¬ Writable serde (.result r) ∧
    Run (WiredStep serde su) u v
  ended : v.session.phase = .closed
  down : v.down.Holds serde []
  client : v.client = .awaitingResult ∨ v.client = .failed earlyEof

theorem stands_init (serde : Serde) : Stands serde .init .init := by
  have hnone : Pipe.empty.Holds serde [] := ⟨fun m hm => (by cases hm), rfl⟩
  have hsame : Received serde .greeting .greeting := .same fun r hr => (by cases hr)
  exact ⟨.greeting, 0, .init, rfl, hsame, rfl, ⟨[], rfl, hnone⟩, hnone⟩

section Received

variable {serde : Serde} {p q : ClientPhase} {m m' : Msg}

/-- A client without its Result is the same over both. -/
theorem Received.eq (h : Received serde p q) (hp : ∀ r, p ≠ .done r) : q = p := by
  cases h with
  | same => rfl
  | done => exact absurd rfl (hp _)

theorem Received.eq_right (h : Received serde p q) (hq : ∀ r, q ≠ .done r) : q = p := by
  cases h with
  | same => rfl
  | done => exact absurd rfl (hq _)

/-- A client with a Result has read it of the session's. -/
theorem Received.done_left {r' : TestResult} (h : Received serde (.done r') q) :
    ∃ r, q = .done r ∧ serde.Reads (.result r) (.result r') := by
  cases h with
  | same hp => exact absurd rfl (hp r')
  | done h => exact ⟨_, rfl, h⟩

theorem Received.done_right {r : TestResult} (h : Received serde p (.done r)) :
    ∃ r', p = .done r' ∧ serde.Reads (.result r) (.result r') := by
  cases h with
  | same hp => exact absurd rfl (hp r)
  | done h => exact ⟨_, rfl, h⟩

/-- What a client makes of a message over bytes and over messages. -/
theorem ClientPhase.onRead_received (hback : serde.ReadsBack) (h : serde.Reads m m')
    (p : ClientPhase) : Option.Rel (Received serde) (p.onRead m') (p.onRead m) := by
  cases hback.readAs h with
  | same =>
      cases hq : p.onRead m with
      | none => exact .none
      | some q =>
          refine .some ?_
          cases ClientPhase.onRead_cases hq with
          | result r => exact .done h
          | welcome | start | refused => exact .same fun r hr => (by cases hr)
  | result r r' =>
      cases p with
      | awaitingResult => exact .some (.done h)
      | awaitingWelcome | awaitingStart =>
          exact .some (.same fun r hr => (by cases hr))
      | greeting | negotiating | starting | driving | stopping | done | failed => exact .none

end Received

/-- What is in the pipes does not depend on anything else. -/
theorem Wired.Carries.stands {serde : Serde} {v : Wired} {seen : ℕ} {ctrl : Ctrl}
    (h : v.Carries serde seen ctrl) {client client' : ClientPhase}
    (hclient : Received serde client client') (session : Session) (net : Net) :
    Stands serde { v with client, session, net } ⟨client', seen, ⟨session, ctrl, net⟩⟩ :=
  ⟨client', seen, ctrl, rfl, hclient, h.gone, h.up, h.down⟩

section Refinement

variable {serde : Serde} {su : Setup} {v v' : Wired} {j j' : Joint} {client : ClientPhase}
  {seen : ℕ} {ctrl : Ctrl}

/-- A message a session on its script writes fits a frame, a Result aside. -/
theorem Agree.writable (hserde : serde.Exchanges su.neg) (h : Agree su (v.joint client seen ctrl))
    {m : Msg} {p : Phase} (hp : v.session.phase.onWrite = some (m, p)) :
    Writable serde m ∨ ∃ r, v.session.phase = .reporting r ∧ m = .result r := by
  have hstep : ServerStep (v.joint client seen ctrl).world
      { (v.joint client seen ctrl).world.goto p with ctrl := ctrl.put m } := .write hp
  have hanswers : Answers (ctrl.written ++ [m]) := (h.server hstep).session.answers
  have hmem : m ∈ ctrl.written ++ [m] := by simp
  cases Phase.onWrite_cases hp with
  | welcome hs | turnedAway hs =>
      -- the greeting answered is the client's
      generalize ctrl.written ++ [_] = all at hanswers hmem
      left
      cases hanswers with
      | silent => cases hmem
      | welcomed | started | reported =>
          simp only [List.mem_cons, List.not_mem_nil, Msg.welcome.injEq, or_false, reduceCtorEq]
            at hmem
          rw [hmem]
          exact hserde.welcome
  | error hs => exact absurd hs (h.session.not_rejecting _)
  | start hs => exact .inl (hserde.start _)
  | result hs => exact .inr ⟨_, hs, rfl⟩

/-- A session about to report finds its client waiting for the Result. -/
theorem Agree.of_reporting (h : Agree su (v.joint client seen ctrl)) {r : TestResult}
    (hp : v.session.phase = .reporting r) :
    client = .awaitingResult ∧ ctrl.written.drop seen = [] := by
  have hphase : (v.joint client seen ctrl).world.session.phase = .reporting r := hp
  have hopen : ¬ (v.joint client seen ctrl).world.Closed := by
    rw [World.Closed, hphase]
    exact Phase.noConfusion
  obtain ⟨hread, hwritten⟩ := h.session.lengths hopen
  rw [hphase] at hread hwritten
  have hread : ctrl.read.length = 4 := hread
  have hwritten : ctrl.written.length = 2 := hwritten
  have hsent : (ctrl.read ++ ctrl.inbox).length = client.sent := h.sent
  have hseen : seen = client.seen := h.seen
  rw [List.length_append, hread] at hsent
  cases hc : client with
  | awaitingResult =>
      rw [hc] at hseen
      exact ⟨rfl, List.drop_eq_nil_of_le (by rw [hwritten, hseen]; exact le_rfl)⟩
  | done r' =>
      -- it would hold a Result not written yet
      have hresult : ctrl.written[2]? = some (.result r') := h.done r' hc
      rw [List.getElem?_eq_none hwritten.le] at hresult
      cases hresult
  | greeting | awaitingWelcome | negotiating | awaitingStart | starting | driving | stopping
  | failed =>
      rw [hc] at hsent
      simp only [ClientPhase.sent] at hsent
      omega

/-- A session that is over has all its answers on their way or read. -/
theorem Agree.drop_ne_nil (h : Agree su (v.joint client seen ctrl))
    (hover : v.session.phase = .closed) (hp : client.Reads) : ctrl.written.drop seen ≠ [] := by
  have hlen : ctrl.written.length = 3 := h.session.ended hover
  have hseen : seen = client.seen := h.seen
  have hlt : client.seen < 3 := by
    cases hc : client <;> rw [hc] at hp <;> first | exact hp.elim | decide
  intro hnone
  have hle := List.drop_eq_nil_iff.mp hnone
  omega

/-- What the session has still to read is of the script. -/
theorem Agree.queued (h : Agree su (v.joint client seen ctrl)) {m : Msg}
    (hm : .ok m ∈ ctrl.inbox) : m ∈ script su.neg := by
  have hsent : ctrl.read ++ ctrl.inbox <+: (script su.neg).map .ok := h.session.sent
  obtain ⟨m', hm', heq⟩ := List.mem_map.mp (hsent.subset (List.mem_append_right _ hm))
  cases heq
  exact hm'

/-- No message of the script is read as another. -/
theorem Serde.ReadsBack.eq_of_script (hback : serde.ReadsBack) {neg : Negotiate} {m m' : Msg}
    (hm : m ∈ script neg) (h : serde.Reads m m') : m' = m := by
  apply (hback.readAs h).eq
  rintro r rfl
  simp [script] at hm

/-- A phase that reads is the same over bytes and over messages. -/
theorem Received.eq_of_reads (h : Received serde v.client client) (hp : v.client.Reads) :
    client = v.client := by
  apply h.eq
  rintro r hr
  rw [hr] at hp
  exact hp

/-- A refusal by `write_msg` is the Result's. -/
theorem Stands.refused (hserde : serde.Exchanges su.neg) (hreach : JointReachable su j)
    (h : Stands serde v j) {m : Msg} {p : Phase} {e : IoError} {out : List Byte}
    (hp : v.session.phase.onWrite = some (m, p)) (hw : (writeMsg serde m).on [] = (.error e, out)) :
    Oversized serde su { v with
      session := { v.session with phase := .closed }
      down := v.down.put out } := by
  have hstep : WiredStep serde su v _ := .serverRefused hp hw
  obtain ⟨client, seen, ctrl, rfl, hclient, hcarries⟩ := id h
  have hagree := hreach.agree
  have hnot : ¬ Writable serde m := by
    rw [Writable, hw]
    intro hok
    cases hok
  rcases hagree.writable hserde hp with hm | ⟨r, hr, rfl⟩
  · exact absurd hm hnot
  · obtain ⟨hawaits, hread⟩ := hagree.of_reporting hr
    have hout : out = [] := by
      rcases writeMsg_cases serde (.result r) [] with ⟨payload, -, -, hrun⟩ | ⟨e', hrun⟩ <;>
        rw [hrun] at hw <;> cases hw
      rfl
    have hsame : client = v.client := hclient.eq_right (by simp [hawaits])
    refine ⟨⟨v, _, r, hreach, h, hr, hnot, .single hstep⟩, rfl, ?_, .inl (hsame ▸ hawaits)⟩
    have hdown := hcarries.down
    rw [hread] at hdown
    subst hout
    simpa [Pipe.put] using hdown

/-- One step over bytes is at most one over messages, up to a refused Result. -/
theorem Stands.step (hserde : serde.Exchanges su.neg) (hreach : JointReachable su j)
    (h : Stands serde v j) (hstep : WiredStep serde su v v') :
    (∃ j', Run (JointStep su) j j' ∧ Stands serde v' j') ∨ Oversized serde su v' := by
  have hback := hserde.readsBack
  obtain ⟨client, seen, ctrl, rfl, hclient, hcarries⟩ := id h
  have hagree := hreach.agree
  obtain ⟨hgone, ⟨msgs, hinbox, hup⟩, hdown⟩ := id hcarries
  cases hstep with
  | arriveUp n =>
      exact .inl ⟨_, .refl, client, seen, ctrl, rfl, hclient, hgone,
        ⟨msgs, hinbox, hup.arrive n⟩, hdown⟩
  | arriveDown n =>
      exact .inl ⟨_, .refl, client, seen, ctrl, rfl, hclient, hgone, ⟨msgs, hinbox, hup⟩,
        hdown.arrive n⟩
  | network buf => exact .inl ⟨_, .single (.network buf), hcarries.stands hclient _ _⟩
  | @clientRead m p d htake hp =>
      obtain ⟨m', m'', rest, hrest, hread, hm, hd⟩ := hdown.take hback htake
      cases hm
      have hnext : ctrl.written[seen]? = some m' := by
        rw [← List.head?_drop, hrest]
        rfl
      have htail : rest = ctrl.written.drop (seen + 1) := by
        rw [← List.tail_drop, hrest]
        rfl
      rw [htail] at hd
      -- the message the session wrote leads to the same phase, with the session's Result
      obtain rfl : client = v.client := hclient.eq (ClientPhase.ne_done_of_onRead hp)
      have hrel := v.client.onRead_received hback hread
      rw [hp] at hrel
      obtain ⟨q, hq, hpq⟩ : ∃ q, v.client.onRead m' = some q ∧ Received serde p q := by
        generalize v.client.onRead m' = o at hrel
        cases hrel with
        | some hpq => exact ⟨_, rfl, hpq⟩
      exact .inl ⟨_, .single (.client (.read hnext hq)), q, seen + 1, ctrl, rfl, hpq, hgone,
        ⟨msgs, hinbox, hup⟩, hd⟩
  | clientError htake hp =>
      obtain ⟨m', m'', rest, -, -, hm, -⟩ := hdown.take hback htake
      cases hm
  | clientEof hover hall htake hp =>
      obtain rfl := hclient.eq_of_reads hp
      exact absurd (hdown.eq_nil hback hall htake) (hagree.drop_ne_nil hover hp)
  | @clientWrite m p out hp hw =>
      obtain ⟨-, -, -, -, hbefore, -, hafter, -⟩ := ClientPhase.onWrite_cases hp
      obtain rfl : client = v.client := hclient.eq hbefore
      refine .inl ⟨_, .single (.client (.write hp)), p, seen, _, rfl, ?_, hgone,
        ⟨msgs ++ [m], ?_, hup.put hw⟩, hdown⟩
      · exact .same hafter
      · show ctrl.inbox ++ [.ok m] = _
        rw [hinbox, List.map_append]
        rfl
  | @clientRefused m p e out hp hw =>
      obtain ⟨hm, -⟩ := ClientPhase.onWrite_cases hp
      have hwritable := hserde.script m (List.mem_of_getElem? hm)
      rw [Writable, hw] at hwritable
      cases hwritable
  | @drive start d d' net' hp hd =>
      obtain rfl : client = v.client := hclient.eq (by simp [hp])
      exact .inl ⟨_, .single (.client (.drive hp hd)),
        hcarries.stands (.same fun r hr => by cases hr) _ _⟩
  | driven hp hd =>
      obtain rfl : client = v.client := hclient.eq (by simp [hp])
      exact .inl ⟨_, .single (.client (.driven hp hd)),
        hcarries.stands (.same fun r hr => by cases hr) _ _⟩
  | drop hp =>
      rcases hp with ⟨r, hp⟩ | ⟨e, hp⟩
      · have hr := hclient
        rw [hp] at hr
        obtain ⟨r', hr', -⟩ := hr.done_left
        exact .inl ⟨_, .single (.client (.close hr')), client, seen, _, rfl, hclient, rfl,
          ⟨msgs, hinbox, hup⟩, hdown⟩
      · obtain rfl : client = v.client := hclient.eq (by simp [hp])
        exact absurd hp (hagree.failed e)
  | @serverRead x p u htake hp =>
      obtain ⟨m, m', rest, rfl, hread, rfl, hu⟩ := hup.take hback htake
      have hm : m ∈ script su.neg := hagree.queued (by simp [hinbox])
      obtain rfl := hback.eq_of_script hm hread
      exact .inl ⟨_, .single (.server (.read (Ctrl.take_cons hinbox) hp)), client, seen, _, rfl,
        hclient, hgone, ⟨rest, rfl, hu⟩, hdown⟩
  | serverEof hdropped hall htake hp =>
      -- a client that has gone had the Result, and left the session over
      have hover : v.session.phase = .closed := hagree.session.gone (hgone.trans hdropped)
      exact absurd hover (Session.ne_closed_of_onRead hp)
  | @serverWrite m p out hp hw =>
      have hle : seen ≤ ctrl.written.length := hagree.seen_le
      refine .inl ⟨_, .single (.server (.write hp)), client, seen, _, rfl, hclient, hgone,
        ⟨msgs, hinbox, hup⟩, ?_⟩
      show Pipe.Holds serde _ ((ctrl.written ++ [m]).drop seen)
      rw [List.drop_append_of_le_length hle]
      exact hdown.put hw
  | serverRefused hp hw => exact .inr (h.refused hserde hreach hp hw)
  | bind hp port =>
      exact .inl ⟨_, .single (.server (.bind hp port)), hcarries.stands hclient _ _⟩
  | data hp hd => exact .inl ⟨_, .single (.server (.data hp hd)), hcarries.stands hclient _ _⟩
  | finish hp hr => exact .inl ⟨_, .single (.server (.finish hp hr)), hcarries.stands hclient _ _⟩

/-- Past a refused Result the client can only fail at the end of file. -/
theorem Oversized.step (hserde : serde.Exchanges su.neg) (h : Oversized serde su v)
    (hstep : WiredStep serde su v v') : Oversized serde su v' := by
  obtain ⟨⟨u, j, r, hj, hu, hr, hnot, hrun⟩, hover, hdown, hclient⟩ := h
  have hresult : ∃ u j r, JointReachable su j ∧ Stands serde u j ∧
      j.world.session.phase = .reporting r ∧ ¬ Writable serde (.result r) ∧
      Run (WiredStep serde su) u v' := ⟨u, j, r, hj, hu, hr, hnot, hrun.tail hstep⟩
  cases hstep with
  | arriveUp n => exact ⟨hresult, hover, hdown, hclient⟩
  | arriveDown n => exact ⟨hresult, hover, hdown.arrive n, hclient⟩
  | network buf => exact ⟨hresult, hover, hdown, hclient⟩
  | drop hp => exact ⟨hresult, hover, hdown, hclient⟩
  | clientRead htake hp | clientError htake hp =>
      obtain ⟨m, m', rest, hnil, -⟩ := hdown.take hserde.readsBack htake
      cases hnil
  | clientEof hover hall htake hp => exact ⟨hresult, hover, hdown, .inr rfl⟩
  | clientWrite hp hw | clientRefused hp hw =>
      rcases hclient with hc | hc <;> rw [hc] at hp <;> cases hp
  | drive hp hd | driven hp hd =>
      rcases hclient with hc | hc <;> rw [hc] at hp <;> cases hp
  | serverRead htake hp | serverEof hdropped hall htake hp =>
      exact absurd hover (Session.ne_closed_of_onRead hp)
  | serverWrite hp hw | serverRefused hp hw =>
      exact absurd hover (Phase.ne_closed_of_onWrite hp)
  | bind hp port | data hp hd | finish hp hr =>
      rw [hover] at hp
      cases hp

theorem wired_simulates (hserde : serde.Exchanges su.neg) :
    Simulates (WiredStep serde su) (JointStep su) (JointReachable su) (Stands serde)
      (Oversized serde su) where
  moves hreach h hstep := h.step hserde hreach hstep
  stays h hstep := h.step hserde hstep

/-! ## What the messages can reach the bytes can -/

/-- The Result a session is about to report fits a frame. -/
def Joint.Fits (serde : Serde) (j : Joint) : Prop :=
  ∀ r, j.world.session.phase = .reporting r → Writable serde (.result r)

/-- A step over messages is a run over bytes. -/
theorem Stands.follow (hserde : serde.Exchanges su.neg) (hreach : JointReachable su j)
    (h : Stands serde v j) (hfits : j.Fits serde) (hstep : JointStep su j j') :
    ∃ v', Run (WiredStep serde su) v v' ∧ Stands serde v' j' := by
  have hback := hserde.readsBack
  obtain ⟨client, seen, ctrl, rfl, hclient, hcarries⟩ := h
  have hagree := hreach.agree
  obtain ⟨hgone, ⟨msgs, hinbox, hup⟩, hdown⟩ := id hcarries
  cases hstep with
  | network buf => exact ⟨_, .single (.network buf), hcarries.stands hclient _ _⟩
  | server hstep =>
      cases hstep with
      | @read x c' p htake hp =>
          have hopen := Session.ne_closed_of_onRead hp
          rcases Ctrl.take_eq_some htake with ⟨rest, hcons, rfl⟩ | ⟨-, hclosed, -, -⟩
          · -- all the bytes arrive, and the first message is read
            change ctrl.inbox = _ at hcons
            have hinbox' := hinbox
            rw [hcons] at hinbox'
            obtain ⟨m, msgs, rfl, rfl, rfl⟩ := List.map_eq_cons_iff.mp hinbox'.symm
            obtain ⟨m', u, hu, hread, hrest⟩ := hup.exists_take hback
            have hm : m ∈ script su.neg := hagree.queued (by simp [hinbox])
            obtain rfl := hback.eq_of_script hm hread
            have harrive : WiredStep serde su v _ := .arriveUp v.up.flight.length
            refine ⟨_, .head harrive (.single (.serverRead hu hp)), ?_⟩
            exact ⟨client, seen, _, rfl, hclient, hgone, ⟨msgs, rfl, hrest⟩, hdown⟩
          · exact absurd (hagree.session.gone hclosed) hopen
      | @write m p hp =>
          have hle : seen ≤ ctrl.written.length := hagree.seen_le
          have hwritable : Writable serde m := by
            rcases hagree.writable hserde hp with hm | ⟨r, hr, rfl⟩
            · exact hm
            · exact hfits r hr
          have hw : (writeMsg serde m).on [] = (.ok (), frameOf serde m) :=
            Prod.ext hwritable rfl
          refine ⟨_, .single (.serverWrite hp hw), client, seen, _, rfl, hclient, hgone,
            ⟨msgs, hinbox, hup⟩, ?_⟩
          show Pipe.Holds serde _ ((ctrl.written ++ [m]).drop seen)
          rw [List.drop_append_of_le_length hle]
          exact hdown.put hw
      | bind hp port => exact ⟨_, .single (.bind hp port), hcarries.stands hclient _ _⟩
      | data hp hd => exact ⟨_, .single (.data hp hd), hcarries.stands hclient _ _⟩
      | finish hp hr => exact ⟨_, .single (.finish hp hr), hcarries.stands hclient _ _⟩
  | client hstep =>
      cases hstep with
      | @read m p hm hp =>
          change ctrl.written[seen]? = some m at hm
          have hcons : ctrl.written.drop seen = m :: ctrl.written.drop (seen + 1) :=
            List.drop_eq_getElem?_toList_append.trans (by rw [hm]; rfl)
          rw [hcons] at hdown
          obtain ⟨m', d, hd, hread, hrest⟩ := hdown.exists_take hback
          -- the client reads its own of the message
          obtain rfl : client = v.client := hclient.eq_right (ClientPhase.ne_done_of_onRead hp)
          have hrel := v.client.onRead_received hback hread
          change v.client.onRead m = some p at hp
          rw [hp] at hrel
          obtain ⟨q, hq, hqp⟩ : ∃ q, v.client.onRead m' = some q ∧ Received serde q p := by
            generalize v.client.onRead m' = o at hrel
            cases hrel with
            | some hqp => exact ⟨_, rfl, hqp⟩
          have harrive : WiredStep serde su v _ := .arriveDown v.down.flight.length
          refine ⟨_, .head harrive (.single (.clientRead hd hq)), ?_⟩
          exact ⟨p, seen + 1, _, rfl, hqp, hgone, ⟨msgs, hinbox, hup⟩, hrest⟩
      | @write m p hp =>
          obtain ⟨hm, -, -, -, hbefore, -, hafter, -⟩ := ClientPhase.onWrite_cases hp
          obtain rfl : client = v.client := hclient.eq_right hbefore
          have hwritable := hserde.script m (List.mem_of_getElem? hm)
          have hw : (writeMsg serde m).on [] = (.ok (), frameOf serde m) := Prod.ext hwritable rfl
          refine ⟨_, .single (.clientWrite hp hw), p, seen, _, rfl,
            .same hafter, hgone, ⟨msgs ++ [m], ?_, hup.put hw⟩, hdown⟩
          show ctrl.inbox ++ [.ok m] = _
          rw [hinbox, List.map_append]
          rfl
      | @drive start d d' net' hp hd =>
          obtain rfl : client = .driving start d := hp
          have hdriving := hclient.eq_right fun r hr => by cases hr
          exact ⟨_, .single (.drive hdriving.symm hd),
            hcarries.stands (.same fun r hr => by cases hr) _ _⟩
      | @driven start d hp hd =>
          obtain rfl : client = .driving start d := hp
          have hdriving := hclient.eq_right fun r hr => by cases hr
          exact ⟨_, .single (.driven hdriving.symm hd),
            hcarries.stands (.same fun r hr => by cases hr) _ _⟩
      | @close r hp =>
          have hr := hclient
          rw [show client = _ from hp] at hr
          obtain ⟨r', hr', -⟩ := hr.done_right
          exact ⟨_, .single (.drop (.inl ⟨r', hr'⟩)),
            client, seen, _, rfl, hclient, rfl, ⟨msgs, hinbox, hup⟩, hdown⟩

/-- A step over messages is a run over bytes, or one to the refusal of a Result. -/
theorem Stands.realizes (hserde : serde.Exchanges su.neg) (hreach : JointReachable su j)
    (h : Stands serde v j) (hstep : JointStep su j j') :
    ∃ v', Run (WiredStep serde su) v v' ∧ (Stands serde v' j' ∨ Oversized serde su v') := by
  by_cases hfits : j.Fits serde
  · obtain ⟨v', hrun, hv'⟩ := h.follow hserde hreach hfits hstep
    exact ⟨v', hrun, .inl hv'⟩
  · -- the Result about to be reported is refused
    simp only [Joint.Fits, not_forall] at hfits
    obtain ⟨r, hr, hnot⟩ := hfits
    have hphase : v.session.phase = .reporting r := by
      obtain ⟨client, seen, ctrl, rfl, -, -⟩ := h
      exact hr
    have hp : v.session.phase.onWrite = some (.result r, .closed) := by
      rw [hphase]
      rfl
    rcases writeMsg_cases serde (.result r) [] with ⟨payload, hvec, hle, -⟩ | ⟨e, hrun⟩
    · exact absurd (show Writable serde (.result r) by rw [Writable, writeMsg_of_le hvec hle]) hnot
    · exact ⟨_, .single (.serverRefused hp hrun), .inr (h.refused hserde hreach hp hrun)⟩

theorem wired_realizes (hserde : serde.Exchanges su.neg) :
    Realizes (WiredStep serde su) (JointStep su) (JointReachable su) (Stands serde)
      (Oversized serde su) where
  moves hreach h hstep := h.realizes hserde hreach hstep

/-- A client waiting for a refused Result gets to its end of file. -/
theorem Oversized.canFail (hserde : serde.Exchanges su.neg) (h : Oversized serde su v) :
    CanReach (WiredStep serde su)
      (fun v => Oversized serde su v ∧ v.client = .failed earlyEof) v := by
  obtain ⟨-, hbytes⟩ := h.down
  rcases h.client with hc | hc
  · obtain ⟨hinbox, hflight⟩ := List.append_eq_nil_iff.mp hbytes
    have htake : v.down.take serde = none := by
      rw [Pipe.take, hinbox, (msgFraming serde).hungry]
      rfl
    have hstep : WiredStep serde su v _ :=
      .clientEof h.ended hflight htake (by rw [hc]; trivial)
    exact .head hstep (.here ⟨h.step hserde hstep, rfl⟩)
  · exact .here ⟨h, hc⟩

end Refinement

end Andri

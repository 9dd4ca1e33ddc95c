/-
  Andri.Session.Server

  `serve_session` of `src/session.rs` as a state machine over the control
  connection and the data plane.

  A phase is a program point of the session.  What the server does with the
  outcome of a `read_msg`, and what it writes next, are functions of the phase
  (`onRead`, `onWrite`); the data paths are the machines of the modes.
  `ServerStep` is one step in which every I/O call succeeds, `FailStep` an I/O
  call that returns an error, and `PeerStep` anything the other end or the
  network may do.
-/
import Andri.File.Serve
import Andri.Lib.Transition
import Andri.Tcp.Serve
import Andri.Udp.Serve

namespace Andri

open Lib

/-- `CARGO_PKG_VERSION`. -/
def VERSION : String := "0.1.1"

/-- The fixed payload seed `Start` carries. -/
def SERVER_SEED : U64 := 0x5EED2026

/-- The data path a session has entered. -/
inductive DataPath
  | tcp (s : Tcp.Serve)
  | udp (s : Udp.Serve)
  | file (s : File.Serve)

/-- The mode a data path belongs to. -/
def DataPath.mode : DataPath → Mode
  | .tcp _ => .tcp
  | .udp _ => .udp
  | .file _ => .file

/-- What a data path that has run to its end returns. -/
def DataPath.returned : DataPath → Option TestResult
  | .tcp (.returned r) => some r
  | .udp (.returned r) => some r
  | .file (.returned r) => some r
  | _ => none

/-- Where the dispatch enters a mode's data path. -/
def DataPath.entry : Mode → DataPath
  | .tcp => .tcp (.accepting 0)
  | .udp => .udp .starting
  | .file => .file .accepting

/-- Program points of `serve_session`. -/
inductive Phase
  | greeting
  | welcoming (hello : Hello)
  | rejecting (err : ProtoError)
  | negotiating
  | binding (neg : Negotiate)
  | starting (neg : Negotiate) (dataPort : U16)
  | connecting (neg : Negotiate)
  | running (neg : Negotiate) (path : DataPath)
  | draining (result : TestResult)
  | reporting (result : TestResult)
  | closed
  | panicked

/-- The session's locals: where it is, and the data sockets it has bound. -/
structure Session where
  phase : Phase
  tcpData : Option U16
  udpData : Option U16

/-- The port of the data socket bound, if there is one. -/
def Session.dataPort (s : Session) : Option U16 := s.tcpData.or s.udpData

/-- A session and its surroundings. -/
structure World where
  session : Session
  ctrl : Ctrl
  net : Net

/-! ## Transcription of `serve_session` -/

/-- `hello.protocol_version == PROTOCOL_VERSION`. -/
def accepts (hello : Hello) : Bool := hello.protocolVersion == PROTOCOL_VERSION

/-- The greeting reply. -/
def welcomeTo (hello : Hello) : Welcome where
  protocolVersion := PROTOCOL_VERSION
  serverVersion := VERSION
  nonce := hello.nonce
  accepted := accepts hello

/-- The mode dispatch after Run, with its two `unwrap`s. -/
def dispatch (s : Session) (neg : Negotiate) : Phase :=
  match neg.mode with
  | .tcp => if s.tcpData.isSome then .running neg (.tcp (.accepting 0)) else .panicked
  | .udp => if s.udpData.isSome then .running neg (.udp .starting) else .panicked
  | .file => if s.tcpData.isSome then .running neg (.file .accepting) else .panicked

/-- What follows a `read_msg`, at the program points that read.  The `stop`
    future and the drain after a file transfer discard its outcome. -/
def Session.onRead (s : Session) (x : Input) : Option Phase :=
  match s.phase with
  | .greeting =>
      match x with
      | .ok (.hello hello) => some (.welcoming hello)
      | .ok _ => some (.rejecting .unexpectedMessage)
      | .error _ => some .closed
  | .negotiating =>
      match x with
      | .ok (.negotiate neg) => some (.binding neg)
      | .ok _ => some (.rejecting .unexpectedMessage)
      | .error _ => some .closed
  | .connecting neg =>
      match x with
      | .ok .run => some (dispatch s neg)
      | .ok _ => some (.rejecting .unexpectedMessage)
      | .error _ => some .closed
  | .running neg (.tcp t) => t.onStop.map fun t' => .running neg (.tcp t')
  | .running neg (.udp u) => u.onStop.map fun u' => .running neg (.udp u')
  | .draining result => some (.reporting result)
  | _ => none

/-- What is written next and what follows, at the program points that write. -/
def Phase.onWrite : Phase → Option (Msg × Phase)
  | .welcoming hello =>
      some (.welcome (welcomeTo hello),
        if accepts hello then .negotiating else .rejecting .versionMismatch)
  | .rejecting err => some (.error err, .closed)
  | .starting neg dataPort => some (.start ⟨dataPort, SERVER_SEED⟩, .connecting neg)
  | .reporting result => some (.result result, .closed)
  | _ => none

/-- The control messages a session waits for. -/
inductive Wait
  | hello
  | negotiate
  | run
  | stop
deriving DecidableEq

/-- What a phase waits for on the control connection. -/
def Phase.wait : Phase → Option Wait
  | .greeting => some .hello
  | .negotiating => some .negotiate
  | .connecting _ => some .run
  | .running _ (.tcp (.measuring t)) =>
      match t.main with
      | .awaitingStop => some .stop
      | _ => none
  | .running _ (.udp (.selecting _)) => some .stop
  | .draining _ => some .stop
  | _ => none

/-- The messages valid at a wait. -/
def Wait.Valid : Wait → Msg → Prop
  | .hello, .hello _ => True
  | .negotiate, .negotiate _ => True
  | .run, .run => True
  | .stop, .stop => True
  | _, _ => False

/-- Bind the negotiated mode's listener or socket. -/
def bindData (neg : Negotiate) (port : U16) : Session :=
  match neg.mode with
  | .tcp | .file => { phase := .starting neg port, tcpData := some port, udpData := none }
  | .udp => { phase := .starting neg port, tcpData := none, udpData := some port }

/-- What follows a data path's return: file mode drains Stop first. -/
def afterData (path : DataPath) (result : TestResult) : Phase :=
  match path with
  | .file _ => .draining result
  | _ => .reporting result

/-- One step of the data path entered. -/
inductive DataStep (neg : Negotiate) : Net → DataPath → Net → DataPath → Prop
  | tcp {net net' : Net} {s s' : Tcp.Serve} (h : Tcp.Step neg net s net' s') :
      DataStep neg net (.tcp s) net' (.tcp s')
  | udp {net net' : Net} {s s' : Udp.Serve} (h : Udp.Step neg net s net' s') :
      DataStep neg net (.udp s) net' (.udp s')
  | file {net net' : Net} {s s' : File.Serve} (h : File.Step neg net s net' s') :
      DataStep neg net (.file s) net' (.file s')

/-- Move the session to a phase. -/
def World.goto (w : World) (p : Phase) : World :=
  { w with session := { w.session with phase := p } }

/-! ## Steps -/

/-- One step of the server in which its I/O call succeeds.  A `write_msg` that
    refuses its message is a `FailStep`. -/
inductive ServerStep : World → World → Prop
  | read {w : World} {x : Input} {c' : Ctrl} {p : Phase} (htake : w.ctrl.take = some (x, c'))
      (hp : w.session.onRead x = some p) : ServerStep w { w.goto p with ctrl := c' }
  | write {w : World} {m : Msg} {p : Phase} (hp : w.session.phase.onWrite = some (m, p)) :
      ServerStep w { w.goto p with ctrl := w.ctrl.put m }
  | bind {w : World} {neg : Negotiate} (hp : w.session.phase = .binding neg) (port : U16) :
      ServerStep w { w with session := bindData neg port }
  | data {w : World} {neg : Negotiate} {path path' : DataPath} {net' : Net}
      (hp : w.session.phase = .running neg path) (h : DataStep neg w.net path net' path') :
      ServerStep w { w.goto (.running neg path') with net := net' }
  | finish {w : World} {neg : Negotiate} {path : DataPath} {result : TestResult}
      (hp : w.session.phase = .running neg path) (hr : path.returned = some result) :
      ServerStep w (w.goto (afterData path result))

/-- The program points whose I/O call can fail and end the session: the writes,
    the bind, and the accepts and data reads of the modes. -/
def Phase.FallibleIo : Phase → Prop
  | .welcoming _ | .rejecting _ | .starting _ _ | .reporting _ | .binding _ => True
  | .running _ (.tcp (.accepting _)) => True
  | .running _ (.udp (.selecting _)) => True
  | .running _ (.file .accepting) => True
  | .running _ (.file (.receiving _)) => True
  | _ => False

/-- An I/O call of the server returns an error: the session ends with it. -/
inductive FailStep : World → World → Prop
  | fail {w : World} (h : w.session.phase.FallibleIo) : FailStep w (w.goto .closed)

/-- Whether a data listener is bound. -/
def World.listening (w : World) : Prop := w.session.tcpData.isSome

/-- What the peer and the network may do: send a message or a bad frame, close or
    reset the control connection; open, feed and close data connections;
    deliver any datagram; let time pass. -/
inductive PeerStep : World → World → Prop
  | send {w : World} (x : Input) (h : w.ctrl.closed = false) :
      PeerStep w { w with ctrl := { w.ctrl with inbox := w.ctrl.inbox ++ [x] } }
  | close {w : World} : PeerStep w { w with ctrl := { w.ctrl with closed := true } }
  | reset {w : World} (e : IoError) :
      PeerStep w { w with ctrl := { w.ctrl with inbox := [.error e], closed := true } }
  | connect {w : World} (h : w.listening) :
      PeerStep w { w with net := { w.net with conns := w.net.conns ++ [.fresh] } }
  | sendData {w : World} {i : ℕ} {c : Conn} (n : ℕ) (hc : w.net.conns[i]? = some c)
      (hopen : c.closed = false) :
      PeerStep w { w with net :=
        { w.net with conns := w.net.conns.set i { c with sent := c.sent + n } } }
  | closeData {w : World} {i : ℕ} {c : Conn} (hc : w.net.conns[i]? = some c) :
      PeerStep w { w with
        net := { w.net with conns := w.net.conns.set i { c with closed := true } } }
  | datagram {w : World} (buf : List Byte) :
      PeerStep w { w with net := { w.net with dgrams := w.net.dgrams ++ [buf] } }
  | wait {w : World} {now : ℕ} (h : w.net.clock ≤ now) :
      PeerStep w { w with net := { w.net with clock := now } }

/-- A step of the session against any peer. -/
def Step (w w' : World) : Prop := ServerStep w w' ∨ FailStep w w' ∨ PeerStep w w'

/-- A control connection just accepted. -/
def World.init : World where
  session := ⟨.greeting, none, none⟩
  ctrl := .init
  net := .init

/-- The worlds a session can be in, against any peer. -/
def SessionReachable : World → Prop := Reachable (· = World.init) Step

/-! ## Reads, case by case -/

/-- The waits before the data path, and their phases. -/
theorem Phase.wait_cases {phase : Phase} {p : Wait} (h : phase.wait = some p) (hp : p ≠ .stop) :
    (p = .hello ∧ phase = .greeting) ∨ (p = .negotiate ∧ phase = .negotiating) ∨
    (p = .run ∧ ∃ neg, phase = .connecting neg) := by
  unfold Phase.wait at h
  split at h
  · cases h
    exact .inl ⟨rfl, rfl⟩
  · cases h
    exact .inr (.inl ⟨rfl, rfl⟩)
  · cases h
    exact .inr (.inr ⟨rfl, _, rfl⟩)
  · split at h <;> cases h
    exact absurd rfl hp
  · cases h
    exact absurd rfl hp
  · cases h
    exact absurd rfl hp
  · cases h

/-- The reads of a session: one constructor for each way a read goes on. -/
inductive OnRead (s : Session) : Input → Phase → Prop
  | hello {hello : Hello} (hs : s.phase = .greeting) :
      OnRead s (.ok (.hello hello)) (.welcoming hello)
  | negotiate {neg : Negotiate} (hs : s.phase = .negotiating) :
      OnRead s (.ok (.negotiate neg)) (.binding neg)
  | run {neg : Negotiate} (hs : s.phase = .connecting neg) : OnRead s (.ok .run) (dispatch s neg)
  | unexpected {p : Wait} {m : Msg} (hs : s.phase.wait = some p) (hp : p ≠ .stop)
      (hm : ¬ p.Valid m) : OnRead s (.ok m) (.rejecting .unexpectedMessage)
  | failed {p : Wait} {e : IoError} (hs : s.phase.wait = some p) (hp : p ≠ .stop) :
      OnRead s (.error e) .closed
  | tcpStop {neg : Negotiate} {t : Tcp.Tasks} {x : Input}
      (hs : s.phase = .running neg (.tcp (.measuring t))) (hmain : t.main = .awaitingStop) :
      OnRead s x (.running neg (.tcp (.measuring { t with main := .reading 0 0 })))
  | udpStop {neg : Negotiate} {l : Udp.Loop} {x : Input}
      (hs : s.phase = .running neg (.udp (.selecting l))) :
      OnRead s x (.running neg (.udp (.stopped l)))
  | drained {result : TestResult} {x : Input} (hs : s.phase = .draining result) :
      OnRead s x (.reporting result)

theorem Session.onRead_cases {s : Session} {x : Input} {p : Phase} (h : s.onRead x = some p) :
    OnRead s x p := by
  unfold onRead at h
  split at h
  · next hs =>
      have hwait : s.phase.wait = some .hello := by rw [hs]; rfl
      split at h <;> cases h
      · exact .hello hs
      · next hne =>
          refine .unexpected hwait (by decide) fun hm => ?_
          unfold Wait.Valid at hm
          split at hm <;> simp_all
      · exact .failed hwait (by decide)
  · next hs =>
      have hwait : s.phase.wait = some .negotiate := by rw [hs]; rfl
      split at h <;> cases h
      · exact .negotiate hs
      · next hne =>
          refine .unexpected hwait (by decide) fun hm => ?_
          unfold Wait.Valid at hm
          split at hm <;> simp_all
      · exact .failed hwait (by decide)
  · next neg hs =>
      have hwait : s.phase.wait = some .run := by rw [hs]; rfl
      split at h <;> cases h
      · exact .run hs
      · next hne =>
          refine .unexpected hwait (by decide) fun hm => ?_
          unfold Wait.Valid at hm
          split at hm <;> simp_all
      · exact .failed hwait (by decide)
  · next neg t hs =>
      obtain ⟨t', ht', rfl⟩ := Option.map_eq_some_iff.mp h
      cases t with
      | measuring t =>
          simp only [Tcp.Serve.onStop] at ht'
          split at ht' <;> cases ht'
          exact .tcpStop hs ‹_›
      | accepting | returned => cases ht'
  · next neg u hs =>
      obtain ⟨u', hu', rfl⟩ := Option.map_eq_some_iff.mp h
      cases u with
      | selecting l =>
          cases hu'
          exact .udpStop hs
      | starting | stopped | returned => cases hu'
  · next result hs =>
      cases h
      exact .drained hs
  · cases h

/-! ## Writes, case by case -/

/-- The writes of a session: one constructor for each message written. -/
inductive OnWrite (p : Phase) : Msg → Phase → Prop
  | welcome {hello : Hello} (hp : p = .welcoming hello) (hv : accepts hello = true) :
      OnWrite p (.welcome (welcomeTo hello)) .negotiating
  | turnedAway {hello : Hello} (hp : p = .welcoming hello) (hv : accepts hello = false) :
      OnWrite p (.welcome (welcomeTo hello)) (.rejecting .versionMismatch)
  | error {err : ProtoError} (hp : p = .rejecting err) : OnWrite p (.error err) .closed
  | start {neg : Negotiate} {port : U16} (hp : p = .starting neg port) :
      OnWrite p (.start ⟨port, SERVER_SEED⟩) (.connecting neg)
  | result {result : TestResult} (hp : p = .reporting result) :
      OnWrite p (.result result) .closed

theorem Phase.onWrite_cases {p q : Phase} {m : Msg} (h : p.onWrite = some (m, q)) :
    OnWrite p m q := by
  unfold onWrite at h
  split at h
  · next hello =>
      cases h
      split
      · next hv => exact .welcome rfl hv
      · next hv => exact .turnedAway rfl (by simpa using hv)
  · cases h
    exact .error rfl
  · cases h
    exact .start rfl
  · cases h
    exact .result rfl
  · cases h

/-! ## Moves -/

/-- The dispatch enters the negotiated mode's data path, or one of its `unwrap`s fails. -/
theorem dispatch_cases (s : Session) (neg : Negotiate) :
    dispatch s neg = .running neg (.entry neg.mode) ∨ dispatch s neg = .panicked := by
  unfold dispatch
  cases neg.mode with
  | tcp | file => cases s.tcpData with
    | none => exact .inr rfl
    | some => exact .inl rfl
  | udp => cases s.udpData with
    | none => exact .inr rfl
    | some => exact .inl rfl

theorem bindData_phase (neg : Negotiate) (port : U16) :
    (bindData neg port).phase = .starting neg port := by
  unfold bindData
  split <;> rfl

theorem afterData_cases (path : DataPath) (result : TestResult) :
    afterData path result = .draining result ∨ afterData path result = .reporting result := by
  cases path
  · exact .inr rfl
  · exact .inr rfl
  · exact .inl rfl

theorem afterData_ne_running (path : DataPath) (result : TestResult) (neg : Negotiate)
    (path' : DataPath) : afterData path result ≠ .running neg path' := by
  rcases afterData_cases path result with ha | ha <;> rw [ha] <;> exact Phase.noConfusion

/-- A session that waits makes something of every input. -/
theorem Session.exists_onRead {s : Session} {p : Wait} (h : s.phase.wait = some p) (x : Input) :
    ∃ q, s.onRead x = some q := by
  unfold Phase.wait at h
  unfold onRead
  split at h
  · next hs =>
      rw [hs]
      dsimp only
      split <;> exact ⟨_, rfl⟩
  · next hs =>
      rw [hs]
      dsimp only
      split <;> exact ⟨_, rfl⟩
  · next hs =>
      rw [hs]
      dsimp only
      split <;> exact ⟨_, rfl⟩
  · next neg t hs =>
      rw [hs]
      cases hmain : t.main with
      | awaitingStop => exact ⟨_, by simp [Tcp.Serve.onStop, hmain]; rfl⟩
      | reading | joiningSampler | joiningWarmup => simp [hmain] at h
  · next hs =>
      rw [hs]
      exact ⟨_, rfl⟩
  · next hs =>
      rw [hs]
      exact ⟨_, rfl⟩
  · cases h

@[simp] theorem World.goto_phase (w : World) (p : Phase) : (w.goto p).session.phase = p := rfl

end Andri

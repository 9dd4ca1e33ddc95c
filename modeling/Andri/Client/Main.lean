/-
  Andri.Client.Main

  `main` of `src/main.rs` as a client, and `connect` of `src/session.rs` from the
  command line to the exit code, against any server.

  A program point of `connect` is the work before the control connection
  (`resolving`, `dialing`), a phase of the exchange, or its return.  `CallStep` is
  one step in which the client's I/O call succeeds, `ErrorStep` one whose I/O
  call returns an error, and `ServerMove` anything the other end may do: send
  what it likes, close or reset, read or not read the data connections.  A write
  to a data connection fails only once that connection is lost, and waits while
  it is there and full.
-/
import Andri.Client.Connect

namespace Andri

open Lib

/-! ## The command line -/

/-- `Role`: what clap's group lets through has exactly one of the two. -/
structure Role where
  server : Bool
  client : Option String
  one : server = true ↔ client = none

/-- The arms of `main`'s match. -/
inductive Command
  | serve
  | connect (host : String)
  | unreachable

/-- The match of `main` on the role. -/
def Role.command (role : Role) : Command :=
  match role.server, role.client with
  | true, _ => .serve
  | false, some host => .connect host
  | false, none => .unreachable

/-- The arm that panics is not taken. -/
theorem Role.command_ne_unreachable (role : Role) : role.command ≠ .unreachable := by
  obtain ⟨server, client, one⟩ := role
  cases server with
  | true => simp [command]
  | false =>
      cases client with
      | some host => simp [command]
      | none => simp at one

/-- `ModeFlags`. -/
structure ModeFlags where
  tcp : Bool
  udp : Bool
  file : Option String

/-- `ModeFlags::selected`. -/
def ModeFlags.selected (flags : ModeFlags) : Option Mode :=
  if flags.tcp then some .tcp
  else if flags.udp then some .udp
  else if flags.file.isSome then some .file
  else none

/-- What `connect` reads of the command line. -/
structure Cli where
  flags : ModeFlags
  opts : ClientOpts
  selects : opts.mode = flags.selected

/-- File mode is selected by a path. -/
theorem ModeFlags.file_isSome {flags : ModeFlags} (h : flags.selected = some .file) :
    flags.file.isSome := by
  by_contra hnone
  simp only [selected, if_neg hnone] at h
  split_ifs at h <;> cases h

/-- `opts.mode.selected().ok_or_else(..)`: there is no default mode. -/
def Cli.mode (cli : Cli) : Except IoError Mode :=
  match cli.flags.selected with
  | some mode => .ok mode
  | none => .error (otherError "a mode is required: pass one of --tcp, --udp, or --file <path>")

/-- The length that bounds a file's transfer, where `fileLen` is the file system's answer. -/
def Cli.fileLength (cli : Cli) (fileLen : String → Except IoError U64) :
    Mode → Except IoError U64
  | .file =>
      match cli.flags.file with
      | some path => fileLen path
      | none => .error (otherError "--file requires a path")
  | _ => .ok 0

/-- What `connect` settles before it opens a connection, in its order: the mode, the UDP
    target rate, the length of the file. -/
def Cli.request (cli : Cli) (fileLen : String → Except IoError U64) : Except IoError Negotiate := do
  let mode ← cli.mode
  let _ ← udpBitrate cli.opts mode
  let len ← cli.fileLength fileLen mode
  cli.opts.negotiate len

theorem ok_of_bind {ε α β : Type} {x : Except ε α} {f : α → Except ε β} {b : β}
    (h : x >>= f = .ok b) : ∃ a, x = .ok a ∧ f a = .ok b := by
  cases x with
  | error e => cases h
  | ok a => exact ⟨a, rfl, h⟩

/-- The request is the one the options build; a file's has a path, and the length is that
    file's. -/
theorem Cli.request_ok {cli : Cli} {fileLen : String → Except IoError U64} {neg : Negotiate}
    (h : cli.request fileLen = .ok neg) :
    ∃ len, cli.opts.negotiate len = .ok neg ∧
      (cli.opts.mode = some .file →
        ∃ path, cli.flags.file = some path ∧ fileLen path = .ok len) := by
  obtain ⟨mode, hmode, h⟩ := ok_of_bind h
  obtain ⟨rate, -, h⟩ := ok_of_bind h
  obtain ⟨len, hlen, h⟩ := ok_of_bind h
  refine ⟨len, h, fun hfile => ?_⟩
  rw [cli.selects] at hfile
  rw [Cli.mode, hfile] at hmode
  cases hmode
  obtain ⟨path, hpath⟩ := Option.isSome_iff_exists.mp (ModeFlags.file_isSome hfile)
  rw [Cli.fileLength, hpath] at hlen
  exact ⟨path, hpath, hlen⟩

/-- The process's exit codes. -/
inductive ExitCode
  | SUCCESS
  | FAILURE
deriving DecidableEq

/-- The match of `main` on the outcome of `connect`. -/
def exitCode : Except IoError Unit → ExitCode
  | .ok () => .SUCCESS
  | .error _ => .FAILURE

/-! ## The client and its surroundings -/

/-- Program points of `connect`. -/
inductive Connect
  | resolving
  | dialing (neg : Negotiate)
  | talking (neg : Negotiate) (p : ClientPhase)
  | returned (outcome : Except IoError Unit)

/-- A client process: the client's end of the control connection, its data plane, the
    data connections lost, and the result it has printed. -/
structure Process where
  point : Connect
  ctrl : Ctrl
  net : Net
  /-- The data connections that the other end or the network has closed or reset, by number. -/
  lost : Set ℕ
  printed : Option TestResult

/-- Just started. -/
def Process.init : Process := ⟨.resolving, .init, .init, ∅, none⟩

/-- Move the client to a program point. -/
def Process.goto (w : Process) (point : Connect) : Process := { w with point }

@[simp] theorem Process.goto_ctrl (w : Process) (point : Connect) : (w.goto point).ctrl = w.ctrl :=
  rfl

/-- What a client is started with: the command line, the file system, and how many bytes a
    data connection holds unread before a write waits. -/
structure Launch where
  cli : Cli
  fileLen : String → Except IoError U64
  cap : ℕ

/-- What a drive is set up with. -/
def Launch.setup (launch : Launch) (neg : Negotiate) : Setup :=
  ⟨neg, launch.cli.opts.json, launch.cap⟩

/-- The phases that read. -/
def ClientPhase.Reads : ClientPhase → Prop
  | .awaitingWelcome | .awaitingStart | .awaitingResult => True
  | _ => False

/-- What a file on disk may do to `file::drive`, once its length is not the one
    negotiated: a read past what is missing, or none left to read. -/
inductive DiskStep (neg : Negotiate) : Net → File.Drive → Net → File.Drive → Prop
  | overread {net : Net} {sent n : ℕ} (hmore : sent < File.expected neg)
      (hdisk : neg.nullSource ≠ some true) (hn : 0 < n) (hbuf : n ≤ File.BUF) :
      DiskStep neg net (.looping sent) net (.writing sent n n)
  | eof {net : Net} {sent : ℕ} {c : Conn} (hmore : sent < File.expected neg)
      (hdisk : neg.nullSource ≠ some true) (hc : net.conns[0]? = some c) :
      DiskStep neg net (.looping sent)
        { net with conns := net.conns.set 0 { c with closed := true } } .returned

/-- One step of the client in which its I/O call succeeds. -/
inductive CallStep (launch : Launch) : Process → Process → Prop
  | resolve {w : Process} {neg : Negotiate} (hp : w.point = .resolving)
      (hneg : launch.cli.request launch.fileLen = .ok neg) :
      CallStep launch w (w.goto (.dialing neg))
  | dial {w : Process} {neg : Negotiate} (hp : w.point = .dialing neg) :
      CallStep launch w (w.goto (.talking neg .greeting))
  | read {w : Process} {neg : Negotiate} {p q : ClientPhase} {m : Msg} {c' : Ctrl}
      (hp : w.point = .talking neg p) (htake : w.ctrl.take = some (.ok m, c'))
      (hq : p.onRead m = some q) :
      CallStep launch w { w.goto (.talking neg q) with ctrl := c' }
  | write {w : Process} {neg : Negotiate} {p q : ClientPhase} {m : Msg}
      (hp : w.point = .talking neg p) (hq : p.onWrite neg = some (m, q)) :
      CallStep launch w { w.goto (.talking neg q) with ctrl := w.ctrl.put m }
  | drive {w : Process} {neg : Negotiate} {start : Start} {d d' : DriveState} {net' : Net}
      (hp : w.point = .talking neg (.driving start d))
      (h : DriveStep (launch.setup neg) True w.net d net' d') :
      CallStep launch w { w.goto (.talking neg (.driving start d')) with net := net' }
  | disk {w : Process} {neg : Negotiate} {start : Start} {d d' : File.Drive} {net' : Net}
      (hp : w.point = .talking neg (.driving start (.file d))) (h : DiskStep neg w.net d net' d') :
      CallStep launch w { w.goto (.talking neg (.driving start (.file d'))) with net := net' }
  | driven {w : Process} {neg : Negotiate} {start : Start} {d : DriveState}
      (hp : w.point = .talking neg (.driving start d)) (hd : d.Returned) :
      CallStep launch w (w.goto (.talking neg .stopping))
  | print {w : Process} {neg : Negotiate} {r : TestResult} (hp : w.point = .talking neg (.done r)) :
      CallStep launch w { w.goto (.returned (.ok ())) with printed := some r }

/-- The program points of a drive whose I/O call can fail and end it: the connects and the
    bind, a datagram's send, the reads of a file, and its writes once the stream is lost. -/
def DriveState.FallibleIo (neg : Negotiate) (lost : Set ℕ) : DriveState → Prop
  | .tcp (.connecting k) => k < neg.parallel.toNat
  | .udp .starting => True
  | .udp (.bursting _ _ s) => 0 < s.toSend
  | .file .connecting | .file (.looping _) => True
  | .file (.writing _ _ left) => 0 < left ∧ 0 ∈ lost
  | _ => False

/-- A step in which the client meets an error and returns it, or drops it: a failed
    `write_all` ends its send loop and no more. -/
inductive ErrorStep (launch : Launch) : Process → Process → Prop
  | refuse {w : Process} {e : IoError} (hp : w.point = .resolving)
      (hreq : launch.cli.request launch.fileLen = .error e) :
      ErrorStep launch w (w.goto (.returned (.error e)))
  | dial {w : Process} {neg : Negotiate} (hp : w.point = .dialing neg) (e : IoError) :
      ErrorStep launch w (w.goto (.returned (.error e)))
  | read {w : Process} {neg : Negotiate} {p : ClientPhase} {e : IoError} {c' : Ctrl}
      (hp : w.point = .talking neg p) (hreads : p.Reads)
      (htake : w.ctrl.take = some (.error e, c')) :
      ErrorStep launch w { w.goto (.returned (.error e)) with ctrl := c' }
  | write {w : Process} {neg : Negotiate} {p q : ClientPhase} {m : Msg}
      (hp : w.point = .talking neg p) (hq : p.onWrite neg = some (m, q)) (e : IoError) :
      ErrorStep launch w (w.goto (.returned (.error e)))
  | drive {w : Process} {neg : Negotiate} {start : Start} {d : DriveState}
      (hp : w.point = .talking neg (.driving start d)) (hd : d.FallibleIo neg w.lost)
      (e : IoError) :
      ErrorStep launch w (w.goto (.returned (.error e)))
  | stream {w : Process} {neg : Negotiate} {start : Start} {t : Tcp.Senders} {i left : ℕ} {c : Conn}
      (hp : w.point = .talking neg (.driving start (.tcp (.sending t))))
      (hl : t.loops[i]? = some (.writing left)) (hleft : 0 < left)
      (hc : w.net.conns[i]? = some c) (hlost : i ∈ w.lost) :
      ErrorStep launch w
        { w.goto (.talking neg (.driving start
            (.tcp (.sending { t with loops := t.loops.set i .returned })))) with
          net := Tcp.setConn w.net i { c with closed := true } }
  /-- The message read is refused. -/
  | leave {w : Process} {neg : Negotiate} {e : IoError} (hp : w.point = .talking neg (.failed e)) :
      ErrorStep launch w (w.goto (.returned (.error e)))
  /-- Under `--json`, a result that serde_json does not write. -/
  | encode {w : Process} {neg : Negotiate} {r : TestResult} (hp : w.point = .talking neg (.done r))
      (hjson : launch.cli.opts.json = true) (e : IoError) :
      ErrorStep launch w (w.goto (.returned (.error e)))

/-- A step of the client. -/
def Move (launch : Launch) (w w' : Process) : Prop := CallStep launch w w' ∨ ErrorStep launch w w'

/-- What the server and the network may do: send a message or a bad frame, close or reset the
    control connection or data connections, those too that are still to be opened; read
    from a data connection; let time pass. -/
inductive ServerMove : Process → Process → Prop
  | send {w : Process} (x : Input) (h : w.ctrl.closed = false) :
      ServerMove w { w with ctrl := { w.ctrl with inbox := w.ctrl.inbox ++ [x] } }
  | close {w : Process} : ServerMove w { w with ctrl := { w.ctrl with closed := true } }
  | reset {w : Process} (e : IoError) :
      ServerMove w { w with ctrl := { w.ctrl with inbox := [.error e], closed := true } }
  | take {w : Process} {i n : ℕ} {c : Conn} (hc : w.net.conns[i]? = some c) (hn : n ≤ c.unread) :
      ServerMove w { w with
        net := { w.net with conns := w.net.conns.set i { c with taken := c.taken + n } } }
  | drop {w : Process} (conns : Set ℕ) : ServerMove w { w with lost := w.lost ∪ conns }
  | wait {w : Process} {now : ℕ} (h : w.net.clock ≤ now) :
      ServerMove w { w with net := { w.net with clock := now } }

/-- The states a client can be in, against any server. -/
def Launched (launch : Launch) : Process → Prop :=
  Reachable (· = Process.init) fun w w' => Move launch w w' ∨ ServerMove w w'

end Andri

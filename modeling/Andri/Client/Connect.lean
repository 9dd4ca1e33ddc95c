/-
  Andri.Client.Connect

  `connect` of `src/session.rs` as a state machine, and the joint system of one
  client and one session.  The client reads the server's messages in the order
  written; what it writes goes to the end of the session's inbox.  Every client
  step is something a peer can do, so what holds of a session against any peer
  holds of a session with its client.
-/
import Andri.Client.Opts
import Andri.File.Drive
import Andri.Session.Server
import Andri.Tcp.Drive
import Andri.Udp.Drive

namespace Andri

open Lib

/-- Session-binding nonce of the client. -/
def NONCE : U64 := 0xA17D2026

/-- The client's greeting. -/
def clientHello : Hello := ⟨PROTOCOL_VERSION, VERSION, NONCE⟩

/-- The data path a client drives. -/
inductive DriveState
  | tcp (d : Tcp.Drive)
  | udp (d : Udp.Drive)
  | file (d : File.Drive)

/-- Where a mode's drive begins. -/
def DriveState.entry : Mode → DriveState
  | .tcp => .tcp (.connecting 0)
  | .udp => .udp .starting
  | .file => .file .connecting

/-- The drive has run to its end. -/
def DriveState.Returned : DriveState → Prop
  | .tcp .returned | .udp .returned | .file .returned => True
  | _ => False

/-- Program points of `connect` from the control connection on. -/
inductive ClientPhase
  | greeting
  | awaitingWelcome
  | negotiating
  | awaitingStart
  | starting (start : Start)
  | driving (start : Start) (d : DriveState)
  | stopping
  | awaitingResult
  | done (result : TestResult)
  | failed (err : IoError)

/-- What the client makes of a message, at the program points that read. -/
def ClientPhase.onRead : ClientPhase → Msg → Option ClientPhase
  | .awaitingWelcome, .welcome w =>
      some (if !w.accepted || w.nonce != NONCE then
        .failed (otherError "server rejected handshake") else .negotiating)
  | .awaitingWelcome, _ => some (.failed (otherError "expected Welcome"))
  | .awaitingStart, .start s => some (.starting s)
  | .awaitingStart, _ => some (.failed (otherError "expected Start"))
  | .awaitingResult, .result r => some (.done r)
  | .awaitingResult, _ => some (.failed (otherError "expected Result"))
  | _, _ => none

/-- What the client writes next and what follows, at the program points that
    write. -/
def ClientPhase.onWrite (neg : Negotiate) : ClientPhase → Option (Msg × ClientPhase)
  | .greeting => some (.hello clientHello, .awaitingWelcome)
  | .negotiating => some (.negotiate neg, .awaitingStart)
  | .starting start => some (.run, .driving start (.entry neg.mode))
  | .stopping => some (.stop, .awaitingResult)
  | _ => none

/-- One client and one session; `seen` counts the server's messages read. -/
structure Joint where
  client : ClientPhase
  seen : ℕ
  world : World

/-- What the two ends of a session share beside their state: the request, whether
    the client prints progress, and how many bytes a data connection holds
    unread before a write waits. -/
structure Setup where
  neg : Negotiate
  quiet : Bool
  cap : ℕ

/-- The announced port is the one the session listens on. -/
def World.listensOn (w : World) (start : Start) : Prop := w.session.tcpData = some start.dataPort

/-- One step of a mode's drive. -/
inductive DriveStep (su : Setup) (listening : Prop) : Net → DriveState → Net → DriveState → Prop
  | tcp {net net' : Net} {d d' : Tcp.Drive}
      (h : Tcp.Drive.Step su.neg su.quiet su.cap listening net d net' d') :
      DriveStep su listening net (.tcp d) net' (.tcp d')
  | udp {net net' : Net} {d d' : Udp.Drive} (h : Udp.Drive.Step su.neg net d net' d') :
      DriveStep su listening net (.udp d) net' (.udp d')
  | file {net net' : Net} {d d' : File.Drive}
      (h : File.Drive.Step su.neg su.cap listening net d net' d') :
      DriveStep su listening net (.file d) net' (.file d')

/-- One step of the client in which its I/O call succeeds. -/
inductive ClientStep (su : Setup) : Joint → Joint → Prop
  | read {j : Joint} {m : Msg} {p : ClientPhase} (hm : j.world.ctrl.written[j.seen]? = some m)
      (hp : j.client.onRead m = some p) :
      ClientStep su j { j with client := p, seen := j.seen + 1 }
  | write {j : Joint} {m : Msg} {p : ClientPhase}
      (hp : j.client.onWrite su.neg = some (m, p)) :
      ClientStep su j { j with
        client := p
        world := { j.world with
          ctrl := { j.world.ctrl with inbox := j.world.ctrl.inbox ++ [.ok m] } } }
  | drive {j : Joint} {start : Start} {d d' : DriveState} {net' : Net}
      (hp : j.client = .driving start d)
      (h : DriveStep su (j.world.listensOn start) j.world.net d net' d') :
      ClientStep su j { j with
        client := .driving start d'
        world := { j.world with net := net' } }
  | driven {j : Joint} {start : Start} {d : DriveState} (hp : j.client = .driving start d)
      (hd : d.Returned) : ClientStep su j { j with client := .stopping }
  /-- The client has its Result and drops the control connection. -/
  | close {j : Joint} {r : TestResult} (hp : j.client = .done r) :
      ClientStep su j { j with
        world := { j.world with ctrl := { j.world.ctrl with closed := true } } }

/-- A step of the joint system: either end, or the network delivering a datagram
    it had delayed, duplicated or made up. -/
inductive JointStep (su : Setup) : Joint → Joint → Prop
  | server {j : Joint} {w' : World} (h : ServerStep j.world w') :
      JointStep su j { j with world := w' }
  | client {j j' : Joint} (h : ClientStep su j j') : JointStep su j j'
  | network {j : Joint} (buf : List Byte) :
      JointStep su j { j with
        world := { j.world with
          net := { j.world.net with dgrams := j.world.net.dgrams ++ [buf] } } }

/-- A client that has just been accepted. -/
def Joint.init : Joint := ⟨.greeting, 0, World.init⟩

/-- The states a client and its session can be in. -/
def JointReachable (su : Setup) : Joint → Prop := Reachable (· = Joint.init) (JointStep su)

end Andri

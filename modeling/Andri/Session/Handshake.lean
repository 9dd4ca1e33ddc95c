/-
  Andri.Session.Handshake

  Reaching the data path.  A Hello of the right version, a Negotiate and a Run
  take any session to the entry of the negotiated mode's data path.
-/
import Andri.Session.Server

namespace Andri

open Lib

/-- The world at the entry of the data path, with nothing more sent. -/
def World.entered (hello : Hello) (neg : Negotiate) (port : U16) : World where
  session := { bindData neg port with phase := .running neg (.entry neg.mode) }
  ctrl :=
    { inbox := []
      closed := false
      read := [.ok (.hello hello), .ok (.negotiate neg), .ok .run]
      written := [.welcome (welcomeTo hello), .start ⟨port, SERVER_SEED⟩] }
  net := .init

section Reachable

variable {w w' : World}

theorem SessionReachable.server (h : SessionReachable w) (hs : ServerStep w w') :
    SessionReachable w' :=
  Reachable.next h (.inl hs)

theorem SessionReachable.fail (h : SessionReachable w) (hs : FailStep w w') :
    SessionReachable w' :=
  Reachable.next h (.inr (.inl hs))

theorem SessionReachable.peer (h : SessionReachable w) (hs : PeerStep w w') :
    SessionReachable w' :=
  Reachable.next h (.inr (.inr hs))

/-- An input sent to a waiting session and read at once. -/
theorem SessionReachable.sendRead (h : SessionReachable w) {x : Input} {p : Phase}
    (hinbox : w.ctrl.inbox = []) (hopen : w.ctrl.closed = false)
    (hp : w.session.onRead x = some p) :
    SessionReachable
      { w.goto p with ctrl := { w.ctrl with inbox := [], read := w.ctrl.read ++ [x] } } := by
  have hsent := h.peer (.send x hopen)
  have htake : ({ w.ctrl with inbox := w.ctrl.inbox ++ [x] } : Ctrl).take =
      some (x, { w.ctrl with inbox := [], read := w.ctrl.read ++ [x] }) :=
    Ctrl.take_cons (by rw [hinbox]; rfl)
  exact hsent.server (.read htake hp)

end Reachable

/-- The handshake leads to the data path. -/
theorem entered_reachable (hello : Hello) (hv : accepts hello = true) (neg : Negotiate)
    (port : U16) : SessionReachable (World.entered hello neg port) := by
  have hinit : SessionReachable World.init := Reachable.start rfl
  have hgreeted := hinit.sendRead (x := .ok (.hello hello)) rfl rfl rfl
  have hwelcomed := hgreeted.server (.write rfl)
  rw [if_pos hv] at hwelcomed
  have hnegotiated := hwelcomed.sendRead (x := .ok (.negotiate neg)) rfl rfl rfl
  have hbound := hnegotiated.server (.bind rfl port)
  obtain ⟨mode, _⟩ := neg
  cases mode <;>
    exact (hbound.server (.write rfl)).sendRead (x := .ok .run) rfl rfl rfl

/-- A greeting of this version. -/
def currentHello : Hello := ⟨PROTOCOL_VERSION, VERSION, 7⟩

/-- A two-stream TCP request. -/
def twoStreams : Negotiate where
  mode := .tcp
  durationSecs := 10
  warmupSecs := 1
  parallel := 2
  bufferBytes := 65536
  bidir := false
  bitrateBps := none
  packetBytes := none
  fileLen := none
  nullSource := none

end Andri

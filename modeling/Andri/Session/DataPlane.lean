/-
  Andri.Session.DataPlane

  The data plane behind each phase.  Before the data path nothing has been
  accepted or read; in it, the path's own invariant holds of the net.  Both
  survive every step of the server, every failure and everything the peer may
  do.
-/
import Andri.File.Progress
import Andri.Session.History
import Andri.Tcp.Progress

namespace Andri

open Lib

/-- The phases before the data path. -/
def Phase.BeforeData : Phase → Prop
  | .greeting | .welcoming _ | .negotiating | .binding _ | .starting _ _ | .connecting _ => True
  | _ => False

/-- The invariant of a data path over its net. -/
def DataPath.Placed (neg : Negotiate) (net : Net) : DataPath → Prop
  | .tcp s => s.Placed neg net
  | .udp _ => True
  | .file s => s.Placed neg net

/-- The data-plane invariant of a session. -/
structure DataPlaced (w : World) : Prop where
  before : w.session.phase.BeforeData → w.net.Untouched
  during : ∀ n path, w.session.phase = .running n path → path.Placed n w.net

theorem afterData_not_beforeData (path : DataPath) (r : TestResult) :
    ¬ (afterData path r).BeforeData := by
  rcases afterData_cases path r with ha | ha <;> rw [ha] <;> exact not_false

theorem dataPlaced_init : DataPlaced World.init where
  before _ := ⟨rfl, fun c hc => by cases hc⟩
  during n path h := by cases h

/-- An untouched net suits the entry of every data path. -/
theorem DataPath.placed_entry {net : Net} (h : net.Untouched) (n : Negotiate) :
    (DataPath.entry n.mode).Placed n net := by
  cases n.mode with
  | tcp => exact ⟨h.accepted.symm, Nat.zero_le _, Nat.zero_le _⟩
  | udp => trivial
  | file => exact h

theorem DataPath.Placed.grows {n : Negotiate} {net net' : Net} {path : DataPath}
    (hp : path.Placed n net) (h : net.Grows net') : path.Placed n net' := by
  cases path with
  | tcp s => exact Tcp.Serve.Placed.grows hp h
  | udp s => trivial
  | file s => exact File.Serve.Placed.grows hp h

theorem DataStep.placed {n : Negotiate} {net net' : Net} {path path' : DataPath}
    (h : DataStep n net path net' path') (hp : path.Placed n net) : path'.Placed n net' := by
  cases h with
  | tcp h => exact h.placed hp
  | udp h => trivial
  | file h => exact h.placed hp

/-- The server leaves the peer's side of the data connections. -/
theorem ServerStep.peerSide_eq {w w' : World} (h : ServerStep w w') :
    w'.net.conns.map Conn.peerSide = w.net.conns.map Conn.peerSide := by
  cases h with
  | read | write | bind | finish => rfl
  | data hp h =>
      cases h with
      | tcp h => exact h.peerSide_eq
      | udp h => cases h <;> rfl
      | file h => exact h.peerSide_eq

/-- What the peer does to the data connections. -/
theorem PeerStep.grows {w w' : World} (h : PeerStep w w') : w.net.Grows w'.net := by
  cases h with
  | send | close | reset | datagram | wait => exact .of_eq rfl rfl
  | connect => exact .connect _
  | sendData m hc hopen =>
      exact .set hc ⟨rfl, Nat.le_add_right _ _, fun h => by rw [hopen] at h; cases h⟩
  | closeData hc => exact .set hc ⟨rfl, le_rfl, fun h => ⟨rfl, rfl⟩⟩

section Steps

variable {w w' : World}

theorem DataPlaced.read (h : DataPlaced w) (hist : History w) {x : Input} {c' : Ctrl} {p : Phase}
    (hp : w.session.onRead x = some p) : DataPlaced { w.goto p with ctrl := c' } := by
  have hcases := Session.onRead_cases hp
  refine ⟨fun hb => h.before ?_, fun n path hrun => ?_⟩
  · change p.BeforeData at hb
    cases hcases with
    | hello hs | negotiate hs =>
        rw [hs]
        trivial
    | run hs =>
        rw [hs]
        trivial
    | unexpected | failed | tcpStop | udpStop | drained => exact hb.elim
  · change p = .running n path at hrun
    cases hcases with
    -- the path entered finds the net as the handshake left it
    | @run n' hs =>
        rw [dispatch_eq (hist.bound n' (by rw [hs]; rfl))] at hrun
        cases hrun
        exact DataPath.placed_entry (h.before (by rw [hs]; trivial)) _
    | @tcpStop n' t x' hs hmain =>
        cases hrun
        have hplaced : (Tcp.Serve.measuring t).Placed n w.net := h.during _ _ hs
        -- the read is the `stop` future's
        have hstop : (Tcp.Serve.measuring t).onStop =
            some (.measuring { t with main := .reading 0 0 }) := by
          simp [Tcp.Serve.onStop, hmain]
        exact hplaced.onStop hstop
    | udpStop hs =>
        cases hrun
        trivial
    | hello | negotiate | unexpected | failed | drained => cases hrun

theorem DataPlaced.write (h : DataPlaced w) {m : Msg} {p : Phase} {c' : Ctrl}
    (hp : w.session.phase.onWrite = some (m, p)) : DataPlaced { w.goto p with ctrl := c' } := by
  cases Phase.onWrite_cases hp with
  | welcome hs | start hs =>
      exact ⟨fun _ => h.before (by rw [hs]; trivial), fun n path hrun => by cases hrun⟩
  | turnedAway | error | result => exact ⟨fun hb => hb.elim, fun n path hrun => by cases hrun⟩

theorem DataPlaced.server (h : DataPlaced w) (hist : History w) (hstep : ServerStep w w') :
    DataPlaced w' := by
  cases hstep with
  | read htake hp => exact h.read hist hp
  | write hp => exact h.write hp
  | @bind n hp port =>
      refine ⟨fun _ => h.before (by rw [hp]; trivial), fun n' path hrun => ?_⟩
      change (bindData n port).phase = .running n' path at hrun
      rw [bindData_phase] at hrun
      cases hrun
  | data hp hstep =>
      refine ⟨fun hb => hb.elim, fun n' path hrun => ?_⟩
      cases hrun
      exact hstep.placed (h.during _ _ hp)
  | @finish n path r hp hr =>
      refine ⟨fun hb => ?_, fun n' path' hrun => ?_⟩
      · exact absurd hb (afterData_not_beforeData path r)
      · exact absurd hrun (afterData_ne_running path r n' path')

theorem DataPlaced.peer (h : DataPlaced w) (hstep : PeerStep w w') : DataPlaced w' := by
  have hgrows := hstep.grows
  obtain ⟨hsession, -, -⟩ := hstep.frame
  refine ⟨fun hb => ?_, fun n path hrun => ?_⟩
  · rw [hsession] at hb
    exact (h.before hb).grows hgrows
  · rw [hsession] at hrun
    exact (h.during n path hrun).grows hgrows

end Steps

/-! ## The announced port -/

/-- The port a Start announces is the one bound. -/
structure Announced (w : World) : Prop where
  starting : ∀ n port, w.session.phase = .starting n port → w.session.dataPort = some port
  started : ∀ s, .start s ∈ w.ctrl.written → w.session.dataPort = some s.dataPort

theorem announced_init : Announced World.init where
  starting n port h := by cases h
  started s hs := by cases hs

theorem OnRead.not_starting {s : Session} {x : Input} {n : Negotiate} {port : U16}
    (h : OnRead s x (.starting n port)) : False := by
  generalize hp : Phase.starting n port = p at h
  cases h with
  | run hs => rcases dispatch_cases s _ with hd | hd <;> rw [hd] at hp <;> cases hp
  | hello | negotiate | unexpected | failed | tcpStop | udpStop | drained => cases hp

theorem Announced.server {w w' : World} (h : Announced w) (hist : History w)
    (hstep : ServerStep w w') : Announced w' := by
  cases hstep with
  | read htake hp =>
      refine ⟨fun n port hs => ?_, fun s hs => h.started s ?_⟩
      · cases hs
        exact (Session.onRead_cases hp).not_starting.elim
      · rwa [← (Ctrl.take_frame htake).2.1]
  | @write m p hp =>
      refine ⟨fun n port hs => ?_, fun s hs => ?_⟩
      · cases hs
        cases Phase.onWrite_cases hp
      -- the Start written announces the port of its phase
      · rcases List.mem_append.mp hs with hold | hnew
        · exact h.started s hold
        · have hm := List.mem_singleton.mp hnew
          cases Phase.onWrite_cases hp with
          | start heq =>
              cases hm
              exact h.starting _ _ heq
          | welcome | turnedAway | error | result => cases hm
  | @bind n hp port =>
      have hport : (bindData n port).dataPort = some port := by
        unfold bindData
        split <;> rfl
      refine ⟨fun n' port' hs => ?_, fun s hs => absurd hs (hist.start_notMem hp s)⟩
      change (bindData n port).phase = _ at hs
      rw [bindData_phase] at hs
      cases hs
      exact hport
  | data hp hstep => exact ⟨fun n port hs => (by cases hs), h.started⟩
  | @finish n path r hp hr =>
      refine ⟨fun n' port hs => ?_, h.started⟩
      change afterData path r = _ at hs
      rcases afterData_cases path r with ha | ha <;> rw [ha] at hs <;> cases hs

theorem Announced.peer {w w' : World} (h : Announced w) (hstep : PeerStep w w') :
    Announced w' := by
  obtain ⟨hsession, -, hwritten⟩ := hstep.frame
  exact ⟨fun n port hs => by rw [hsession] at hs ⊢; exact h.starting n port hs,
    fun s hs => by rw [hwritten] at hs; rw [hsession]; exact h.started s hs⟩

/-! ## The invariants together -/

/-- The invariants of a session. -/
structure Sound (w : World) : Prop where
  history : History w
  data : DataPlaced w
  announced : Announced w

theorem Sound.server {w w' : World} (h : Sound w) (hstep : ServerStep w w') : Sound w' :=
  ⟨h.history.server hstep, h.data.server h.history hstep, h.announced.server h.history hstep⟩

theorem Sound.step {w w' : World} (h : Sound w) (hstep : Step w w') : Sound w' := by
  rcases id hstep with hserver | hfail | hpeer
  · exact h.server hserver
  · cases hfail with
    | fail hf =>
        exact ⟨h.history.step hstep, ⟨fun hb => hb.elim, fun n path hrun => by cases hrun⟩,
          ⟨fun n port hs => (by cases hs), h.announced.started⟩⟩
  · exact ⟨h.history.step hstep, h.data.peer hpeer, h.announced.peer hpeer⟩

theorem SessionReachable.sound {w : World} (h : SessionReachable w) : Sound w :=
  Reachable.invariant h (fun _ hinit => hinit ▸ ⟨history_init, dataPlaced_init, announced_init⟩)
    fun _ _ hI hstep => hI.step hstep

/-! ## Time -/

theorem DataStep.clock_le {n : Negotiate} {net net' : Net} {path path' : DataPath}
    (h : DataStep n net path net' path') : net.clock ≤ net'.clock := by
  cases h with
  | tcp h => exact h.clock_le
  | udp h => exact h.clock_le
  | file h => exact h.clock_le

theorem PeerStep.clock_le {w w' : World} (h : PeerStep w w') : w.net.clock ≤ w'.net.clock := by
  cases h with
  | send | close | reset | connect | sendData | closeData | datagram => exact le_rfl
  | wait h => exact h

theorem Step.clock_le {w w' : World} (h : Step w w') : w.net.clock ≤ w'.net.clock := by
  rcases h with hserver | hfail | hpeer
  · cases hserver with
    | read | write | bind | finish => exact le_rfl
    | data _ h => exact h.clock_le
  · cases hfail
    exact le_rfl
  · exact hpeer.clock_le

end Andri

/-
  Andri.Session.Finish

  From the data path to the report.  A run of a data path is a run of the
  session; once the path needs nothing more from the peer, the session can
  reach the write of its Result, and then close.
-/
import Andri.Session.DataPlane

namespace Andri

open Lib

/-- The session is over. -/
def World.Closed (w : World) : Prop := w.session.phase = .closed

/-- The session has its Result and is about to write it. -/
def World.Reporting (w : World) : Prop := ∃ r, w.session.phase = .reporting r

/-! ## Through the handshake -/

/-- Phases left before the session is over. -/
def Phase.rank : Phase → ℕ
  | .greeting => 9
  | .welcoming _ => 8
  | .negotiating => 7
  | .binding _ => 6
  | .starting _ _ => 5
  | .connecting _ => 4
  | .running _ _ => 3
  | .draining _ => 2
  | .reporting _ | .rejecting _ => 1
  | .closed | .panicked => 0

/-- Before the data path, the server has a step further unless a read of it
    waits. -/
theorem History.exists_step {w : World} (h : History w) (hp : w.session.phase.BeforeData)
    (hin : w.session.phase.wait ≠ none → ∃ x c', w.ctrl.take = some (x, c')) :
    ∃ w', ServerStep w w' ∧ w'.session.phase.rank < w.session.phase.rank := by
  -- whatever a wait reads, it goes on or ends the session
  have hread : ∀ p, w.session.phase.wait = some p → p ≠ .stop →
      ∃ w', ServerStep w w' ∧ w'.session.phase.rank < w.session.phase.rank := by
    intro p hwait hne
    obtain ⟨x, c', htake⟩ := hin (by simp [hwait])
    obtain ⟨q, hq⟩ := Session.exists_onRead hwait x
    refine ⟨_, .read htake hq, ?_⟩
    show q.rank < _
    cases Session.onRead_cases hq with
    | hello hs | negotiate hs => simp [hs, Phase.rank]
    | @run n hs =>
        rw [dispatch_eq (h.bound n (by rw [hs]; rfl)), hs]
        simp [Phase.rank]
    | unexpected hs hne | failed hs hne =>
        rcases Phase.wait_cases hs hne with ⟨-, hs⟩ | ⟨-, hs⟩ | ⟨-, n, hs⟩ <;>
          simp [hs, Phase.rank]
    | tcpStop hs | udpStop hs | drained hs =>
        rw [hs] at hp
        exact hp.elim
  cases hphase : w.session.phase with
  | greeting => exact hphase ▸ hread .hello (by rw [hphase]; rfl) (by decide)
  | negotiating => exact hphase ▸ hread .negotiate (by rw [hphase]; rfl) (by decide)
  | connecting n => exact hphase ▸ hread .run (by rw [hphase]; rfl) (by decide)
  | welcoming g =>
      refine ⟨_, .write (by rw [hphase]; rfl), ?_⟩
      show (if accepts g then Phase.negotiating else .rejecting .versionMismatch).rank < 8
      split <;> decide
  | starting n port => exact ⟨_, .write (by rw [hphase]; rfl), by show 4 < 5; decide⟩
  | binding n =>
      refine ⟨_, .bind hphase 0, ?_⟩
      show (bindData n 0).phase.rank < 6
      simp [bindData_phase, Phase.rank]
  | rejecting | running | draining | reporting | closed | panicked =>
      rw [hphase] at hp
      exact hp.elim

/-! ## Out of the data path -/

/-- The server reads `x` off the control connection, as the step `ServerStep.read`. -/
def Reads (w : World) (x : Input) (w' : World) : Prop :=
  ∃ c' p, w.ctrl.take = some (x, c') ∧ w.session.onRead x = some p ∧
    w' = { w.goto p with ctrl := c' }

variable {w : World} {n : Negotiate}

/-- The world with its data path at a state of one of the modes. -/
def World.onPath {S : Type} (w : World) (n : Negotiate) (e : S → DataPath) (c : Net × S) :
    World :=
  { w.goto (.running n (e c.2)) with net := c.1 }

/-- A run of a mode's data path is a run of the session. -/
theorem canReach_path {S : Type} {R : Net × S → Net × S → Prop} {goal : Net × S → Prop} {s : S}
    (e : S → DataPath) (hR : ∀ c c', R c c' → DataStep n c.1 (e c.2) c'.1 (e c'.2))
    (hp : w.session.phase = .running n (e s)) (h : CanReach R goal (w.net, s)) :
    CanReach ServerStep (fun v => ∃ c, goal c ∧ v = w.onPath n e c) w := by
  obtain ⟨c, hrun, hgoal⟩ := h
  have hstart : w = w.onPath n e (w.net, s) := by
    simp [World.onPath, World.goto, ← hp]
  -- each step of the path is one of the session, with the rest as it is
  have hmap : Run ServerStep (w.onPath n e (w.net, s)) (w.onPath n e c) :=
    Run.map (I := fun _ => True) (fun _ _ _ _ => trivial)
      (fun c c' _ hstep => .single (.data (w := w.onPath n e c) rfl (hR c c' hstep))) hrun trivial
  rw [← hstart] at hmap
  exact ⟨_, hmap, c, hgoal, rfl⟩

/-- The write of the Result is the session's last step. -/
theorem closed_of_reporting (hp : w.Reporting) : CanReach ServerStep World.Closed w := by
  obtain ⟨r, hp⟩ := hp
  have hwrite : w.session.phase.onWrite = some (.result r, .closed) := by rw [hp]; rfl
  exact .head (.write hwrite) (.here rfl)

/-- A session done with a file reads once more before it reports. -/
theorem reporting_of_draining {r : TestResult} (hp : w.session.phase = .draining r)
    (hclosed : w.ctrl.closed = true) : CanReach ServerStep World.Reporting w := by
  obtain ⟨x, c', htake⟩ := Ctrl.exists_take hclosed
  have hread : w.session.onRead x = some (.reporting r) := by
    unfold Session.onRead
    rw [hp]
  exact .head (.read htake hread) (.here ⟨r, rfl⟩)

theorem reporting_of_returned {path : DataPath} {r : TestResult}
    (hp : w.session.phase = .running n path) (hr : path.returned = some r)
    (hafter : afterData path r = .reporting r) : CanReach ServerStep World.Reporting w :=
  .head (.finish hp hr) (.here ⟨r, hafter⟩)

/-- Past its Stop, a TCP session reports on its own. -/
theorem reporting_of_tcpStopped {s : Tcp.Serve} (hp : w.session.phase = .running n (.tcp s))
    (hs : s.Stopped) : CanReach ServerStep World.Reporting w := by
  have hpath := canReach_path .tcp (fun _ _ h => .tcp h) hp
    (Tcp.canReach_returned n hs w.net)
  refine hpath.trans fun v _ hv => ?_
  obtain ⟨⟨net, s'⟩, ⟨r, hr⟩, rfl⟩ := hv
  dsimp only at hr
  subst hr
  exact reporting_of_returned rfl rfl rfl

/-- Past its Stop, a UDP session reports on its own. -/
theorem reporting_of_udpStopped {l : Udp.Loop}
    (hp : w.session.phase = .running n (.udp (.stopped l))) :
    CanReach ServerStep World.Reporting w :=
  .head (.data hp (.udp (.finish (le_refl w.net.clock)))) (reporting_of_returned rfl rfl rfl)

/-- A file session reports once the bytes are sent and the control connection is
    closed. -/
theorem reporting_of_fileSupplied {s : File.Serve} (hp : w.session.phase = .running n (.file s))
    (hs : s.Placed n w.net) (hsupplied : File.Supplied n w.net)
    (hclosed : w.ctrl.closed = true) : CanReach ServerStep World.Reporting w := by
  have hpath := canReach_path .file (fun _ _ h => .file h) hp
    (File.canReach_returned hs hsupplied)
  refine hpath.trans fun v _ hv => ?_
  obtain ⟨⟨net, s'⟩, ⟨r, hr⟩, rfl⟩ := hv
  dsimp only at hr
  subst hr
  exact .head (.finish rfl rfl) (reporting_of_draining rfl hclosed)

/-! ## The wait for Stop -/

/-- After whatever it reads in place of Stop, the session can report. -/
theorem reporting_of_stop {w' : World} {x : Input} (h : Sound w')
    (hp : w.session.phase.wait = some .stop) (hread : Reads w x w') :
    CanReach ServerStep World.Reporting w' := by
  obtain ⟨c', q, -, hq, rfl⟩ := hread
  cases Session.onRead_cases hq with
  | hello hs | negotiate hs | run hs =>
      rw [hs] at hp
      cases hp
  | unexpected hs hne | failed hs hne =>
      rw [hp] at hs
      cases hs
      exact absurd rfl hne
  | tcpStop hs hmain =>
      have hplaced := h.data.during _ _ rfl
      exact reporting_of_tcpStopped rfl ⟨by simp, hplaced.2.2⟩
  | udpStop hs => exact reporting_of_udpStopped rfl
  | drained hs => exact .here ⟨_, rfl⟩

/-- With the control connection closed, the wait for Stop does not hold the session
    up. -/
theorem reporting_of_waitStop (h : Sound w) (hp : w.session.phase.wait = some .stop)
    (hclosed : w.ctrl.closed = true) : CanReach ServerStep World.Reporting w := by
  obtain ⟨x, c', htake⟩ := Ctrl.exists_take hclosed
  obtain ⟨q, hq⟩ := Session.exists_onRead hp x
  have hstep : ServerStep w _ := .read htake hq
  exact .head hstep (reporting_of_stop (h.server hstep) hp ⟨c', q, htake, hq, rfl⟩)

end Andri

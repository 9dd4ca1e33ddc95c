/-
  Andri.Session.Depart

  A client that leaves.  `World.depart` closes everything the client had opened;
  from there only the server moves.  The session can still run to its end
  exactly when the data path it is in, or is going to enter on what is already
  queued, has been served: all of a TCP test's connections opened, all of a
  file's bytes sent.
-/
import Andri.Session.Finish
import Andri.Session.Handshake

namespace Andri

open Lib

/-- The connection with the peer's end closed. -/
def Conn.close (c : Conn) : Conn := { c with closed := true }

/-- The client is gone: its control and data connections are closed. -/
def World.depart (w : World) : World :=
  { w with
    ctrl := { w.ctrl with closed := true }
    net := { w.net with conns := w.net.conns.map Conn.close } }

/-- Left to itself the server can finish, wherever it gets to. -/
def AlwaysCanFinish (w : World) : Prop :=
  ∀ v, Run ServerStep w v → CanReach ServerStep World.Closed v

/-- The session runs the data path for the request, or will on what its inbox
    holds. -/
inductive WillRun (n : Negotiate) : Phase → List Input → Prop
  | greeting {hello : Hello} {rest : List Input} (hv : accepts hello = true) :
      WillRun n .greeting (.ok (.hello hello) :: .ok (.negotiate n) :: .ok .run :: rest)
  | welcoming {hello : Hello} {rest : List Input} (hv : accepts hello = true) :
      WillRun n (.welcoming hello) (.ok (.negotiate n) :: .ok .run :: rest)
  | negotiating {rest : List Input} :
      WillRun n .negotiating (.ok (.negotiate n) :: .ok .run :: rest)
  | binding {rest : List Input} : WillRun n (.binding n) (.ok .run :: rest)
  | starting {port : U16} {rest : List Input} : WillRun n (.starting n port) (.ok .run :: rest)
  | connecting {rest : List Input} : WillRun n (.connecting n) (.ok .run :: rest)
  | running {path : DataPath} {inbox : List Input} : WillRun n (.running n path) inbox

/-- The peer has done its part of the data path for the request. -/
def DataServed (n : Negotiate) (net : Net) : Prop :=
  match n.mode with
  | .tcp => n.parallel.toNat ≤ net.conns.length
  | .udp => True
  | .file => File.Supplied n net

/-- Whatever data path the session runs or will run has been served. -/
def Served (w : World) : Prop :=
  ∀ n, WillRun n w.session.phase w.ctrl.inbox → DataServed n w.net

/-! ## Leaving is something a peer can do -/

theorem closeAll_run (w : World) (post pre : List Conn)
    (h : w.net.conns = pre.map Conn.close ++ post) :
    Run PeerStep w { w with net := { w.net with conns := (pre ++ post).map Conn.close } } := by
  induction post generalizing w pre with
  | nil =>
      rw [List.append_nil] at h ⊢
      rw [← h]
  | cons c post ih =>
      have hc : w.net.conns[pre.length]? = some c := by simp [h]
      -- the next connection is closed in its place
      have hset : w.net.conns.set pre.length c.close = (pre ++ [c]).map Conn.close ++ post := by
        simp [h]
      have hrest := ih { w with net := { w.net with conns := w.net.conns.set pre.length c.close } }
        (pre ++ [c]) hset
      rw [List.append_assoc, List.singleton_append] at hrest
      exact .head (.closeData hc) hrest

theorem depart_run (w : World) : Run PeerStep w w.depart :=
  (closeAll_run w w.net.conns [] rfl).tail .close

theorem SessionReachable.depart {w : World} (h : SessionReachable w) : SessionReachable w.depart :=
  Reachable.run h (Relation.ReflTransGen.mono (fun _ _ h => Or.inr (Or.inr h)) _ _ (depart_run w))

/-! ## What has been served does not change under the server's steps -/

theorem dataServed_congr {n : Negotiate} {net net' : Net}
    (h : net'.conns.map Conn.sent = net.conns.map Conn.sent) :
    DataServed n net' ↔ DataServed n net := by
  have hlen : net'.conns.length = net.conns.length := by
    simpa using congrArg List.length h
  unfold DataServed
  cases n.mode with
  | tcp => simp only [hlen]
  | udp => exact Iff.rfl
  | file => exact File.supplied_congr h

theorem served_depart_iff (w : World) : Served w.depart ↔ Served w := by
  have hsent : w.depart.net.conns.map Conn.sent = w.net.conns.map Conn.sent := by
    simp [World.depart, Function.comp_def, Conn.close]
  exact forall_congr' fun n => imp_congr Iff.rfl (dataServed_congr hsent)

section ServerSteps

variable {w w' : World} {n : Negotiate}

theorem ServerStep.closed_eq (h : ServerStep w w') : w'.ctrl.closed = w.ctrl.closed := by
  cases h with
  | read htake hp => exact (Ctrl.take_frame htake).2.2
  | write | bind | data | finish => rfl

/-- A read that goes on towards a data path was of a message queued. -/
theorem OnRead.willRun {s : Session} {x : Input} {q : Phase} {c c' : Ctrl} (h : OnRead s x q)
    (htake : c.take = some (x, c')) (hbound : ∀ n, s.phase.request = some n → s.Bound n)
    (hr : WillRun n q c'.inbox) : WillRun n s.phase c.inbox := by
  -- end of file is not a message, so this one was queued
  have hinbox : ∀ m, x = .ok m → c.inbox = .ok m :: c'.inbox := by
    rintro m rfl
    rcases Ctrl.take_eq_some htake with ⟨rest, hin, rfl⟩ | ⟨-, -, hx, -⟩
    · exact hin
    · cases hx
  cases h with
  | hello hs =>
      rw [hs, hinbox _ rfl]
      generalize c'.inbox = inbox at hr ⊢
      cases hr with
      | welcoming hv => exact .greeting hv
  | negotiate hs =>
      rw [hs, hinbox _ rfl]
      generalize c'.inbox = inbox at hr ⊢
      cases hr with
      | binding => exact .negotiating
  | @run n' hs =>
      rw [dispatch_eq (hbound n' (by rw [hs]; rfl))] at hr
      rw [hs, hinbox _ rfl]
      cases hr with
      | running => exact .connecting
  | tcpStop hs | udpStop hs =>
      rw [hs]
      cases hr with
      | running => exact .running
  | unexpected | failed | drained => cases hr

/-- The server goes on only towards data paths it was already bound for. -/
theorem WillRun.of_server (hist : History w) (h : ServerStep w w')
    (hr : WillRun n w'.session.phase w'.ctrl.inbox) : WillRun n w.session.phase w.ctrl.inbox := by
  cases h with
  | read htake hp => exact (Session.onRead_cases hp).willRun htake hist.bound hr
  | @write m p hp =>
      change WillRun n p w.ctrl.inbox at hr
      cases Phase.onWrite_cases hp with
      | welcome hs hv =>
          rw [hs]
          cases hin : w.ctrl.inbox <;> rw [hin] at hr <;> cases hr
          exact .welcoming hv
      | start hs =>
          rw [hs]
          cases hin : w.ctrl.inbox <;> rw [hin] at hr <;> cases hr
          exact .starting
      | turnedAway | error | result => cases hr
  | @bind n' hp port =>
      change WillRun n (bindData n' port).phase w.ctrl.inbox at hr
      rw [bindData_phase] at hr
      rw [hp]
      cases hin : w.ctrl.inbox <;> rw [hin] at hr <;> cases hr
      exact .binding
  | data hp h =>
      rw [hp]
      cases hr with
      | running => exact .running
  | @finish n' path r hp hret =>
      change WillRun n (afterData path r) w.ctrl.inbox at hr
      rcases afterData_cases path r with ha | ha <;> rw [ha] at hr <;> cases hr

theorem Served.server (hs : Served w) (hist : History w) (h : ServerStep w w') : Served w' :=
  fun n hr =>
    (dataServed_congr (sent_eq_of_peerSide_eq h.peerSide_eq)).mpr (hs n (hr.of_server hist h))

end ServerSteps

/-! ## A served session ends -/

/-- What a departed client leaves behind a session that can still finish. -/
structure Finishable (w : World) : Prop where
  sound : Sound w
  closed : w.ctrl.closed = true
  served : Served w

section Ends

variable {w w' : World} {n : Negotiate}

theorem Finishable.server (h : Finishable w) (hstep : ServerStep w w') : Finishable w' :=
  ⟨h.sound.server hstep, hstep.closed_eq.trans h.closed, h.served.server h.sound.history hstep⟩

theorem Finishable.run (h : Finishable w) (hrun : Run ServerStep w w') : Finishable w' :=
  run_invariant (fun _ _ hI hstep => hI.server hstep) hrun h

/-- The data path of a session is its request's mode's. -/
theorem History.mode_eq (h : History w) {path : DataPath}
    (hp : w.session.phase = .running n path) : n.mode = path.mode := by
  have hphase := h.phase
  rw [hp] at hphase
  obtain ⟨-, -, -, -, -, -, hmode, -⟩ := hphase
  exact hmode.symm

theorem Finishable.reporting_tcp (h : Finishable w) {s : Tcp.Serve}
    (hp : w.session.phase = .running n (.tcp s)) : CanReach ServerStep World.Reporting w := by
  have hplaced : s.Placed n w.net := h.sound.data.during _ _ hp
  cases s with
  | accepting k =>
      have hopened : n.parallel.toNat ≤ w.net.conns.length := by
        have hserved := h.served n (hp ▸ .running)
        rwa [DataServed, h.sound.history.mode_eq hp] at hserved
      -- first the accept loop, then the wait for Stop
      refine (canReach_path .tcp (fun _ _ h => .tcp h) hp
        (Tcp.canReach_measuring hplaced hopened)).trans fun v hrun hv => ?_
      obtain ⟨⟨net, s'⟩, hmeasuring, rfl⟩ := hv
      have hv := h.run hrun
      refine reporting_of_waitStop hv.sound ?_ hv.closed
      cases s' with
      | measuring t =>
          have hmain : t.main = .awaitingStop := hmeasuring
          simp [World.onPath, Phase.wait, hmain]
      | accepting | returned => exact hmeasuring.elim
  | measuring t =>
      by_cases hmain : t.main = .awaitingStop
      · exact reporting_of_waitStop h.sound (by simp [hp, Phase.wait, hmain]) h.closed
      · exact reporting_of_tcpStopped hp ⟨hmain, hplaced.2.2⟩
  | returned r => exact reporting_of_tcpStopped hp trivial

theorem Finishable.reporting_udp (h : Finishable w) {s : Udp.Serve}
    (hp : w.session.phase = .running n (.udp s)) : CanReach ServerStep World.Reporting w := by
  cases s with
  | starting =>
      have hstep : ServerStep w _ :=
        .data hp (.udp (.start (le_refl w.net.clock) (le_refl w.net.clock)))
      have hv := h.server hstep
      exact .head hstep (reporting_of_waitStop hv.sound rfl hv.closed)
  | selecting l => exact reporting_of_waitStop h.sound (by rw [hp]; rfl) h.closed
  | stopped l => exact reporting_of_udpStopped hp
  | returned r => exact reporting_of_returned hp rfl rfl

theorem Finishable.reporting_file (h : Finishable w) {s : File.Serve}
    (hp : w.session.phase = .running n (.file s)) : CanReach ServerStep World.Reporting w := by
  have hsupplied : File.Supplied n w.net := by
    have hserved := h.served n (hp ▸ .running)
    rwa [DataServed, h.sound.history.mode_eq hp] at hserved
  exact reporting_of_fileSupplied hp (h.sound.data.during _ _ hp) hsupplied h.closed

/-- Before the data path, the server has a step further. -/
theorem Finishable.exists_step (h : Finishable w) (hp : w.session.phase.BeforeData) :
    ∃ w', ServerStep w w' ∧ w'.session.phase.rank < w.session.phase.rank :=
  h.sound.history.exists_step hp fun _ => Ctrl.exists_take h.closed

/-- Past the handshake a served session ends. -/
theorem Finishable.ends_late (h : Finishable w) (hp : ¬ w.session.phase.BeforeData) :
    CanReach ServerStep World.Closed w := by
  cases hphase : w.session.phase with
  | greeting | welcoming | negotiating | binding | starting | connecting =>
      rw [hphase] at hp
      exact absurd trivial hp
  | rejecting err =>
      have hwrite : w.session.phase.onWrite = some (.error err, .closed) := by rw [hphase]; rfl
      exact .head (.write hwrite) (.here rfl)
  | running n path =>
      cases path with
      | tcp s => exact (h.reporting_tcp hphase).trans fun _ _ hv => closed_of_reporting hv
      | udp s => exact (h.reporting_udp hphase).trans fun _ _ hv => closed_of_reporting hv
      | file s => exact (h.reporting_file hphase).trans fun _ _ hv => closed_of_reporting hv
  | draining r =>
      exact (reporting_of_draining hphase h.closed).trans fun _ _ hv => closed_of_reporting hv
  | reporting r => exact closed_of_reporting ⟨r, hphase⟩
  | closed => exact .here hphase
  | panicked =>
      have hhist := h.sound.history.phase
      rw [hphase] at hhist
      exact hhist.elim

theorem Finishable.ends (h : Finishable w) : CanReach ServerStep World.Closed w := by
  have hlate : CanReach ServerStep (fun v => ¬ v.session.phase.BeforeData) w := by
    refine canReach_of_measure (I := Finishable) (fun v => v.session.phase.rank) ?_ h
    intro v hv hgoal
    obtain ⟨v', hstep, hrank⟩ := hv.exists_step (not_not.mp hgoal)
    exact ⟨v', hstep, hv.server hstep, hrank⟩
  exact hlate.trans fun v hrun hv => (h.run hrun).ends_late hv

end Ends

/-! ## An unserved session does not -/

/-- A session bound for a data path that has not been served. -/
structure Stuck (n : Negotiate) (w : World) : Prop where
  sound : Sound w
  willRun : WillRun n w.session.phase w.ctrl.inbox
  unserved : ¬ DataServed n w.net

section Stuck

variable {w w' w₁ w₂ : World} {n : Negotiate}

/-- A phase that writes does not read. -/
theorem Session.onRead_of_onWrite {s : Session} {m : Msg} {p : Phase}
    (h : s.phase.onWrite = some (m, p)) (x : Input) : s.onRead x = none := by
  unfold onRead
  cases Phase.onWrite_cases h with
  | welcome hs | turnedAway hs | error hs | start hs | result hs => rw [hs]

/-- Up to the port bound, the handshake leaves the server no choice. -/
theorem ServerStep.unique (hp : w.session.phase.BeforeData)
    (hbind : ∀ n, w.session.phase ≠ .binding n) (h₁ : ServerStep w w₁) (h₂ : ServerStep w w₂) :
    w₁ = w₂ := by
  cases h₁ with
  | read htake₁ hq₁ =>
      cases h₂ with
      | read htake₂ hq₂ =>
          rw [htake₁] at htake₂
          cases htake₂
          rw [hq₁] at hq₂
          cases hq₂
          rfl
      | write hq₂ =>
          rw [Session.onRead_of_onWrite hq₂] at hq₁
          cases hq₁
      | bind hs => exact absurd hs (hbind _)
      | data hs | finish hs =>
          rw [hs] at hp
          exact hp.elim
  | write hq₁ =>
      cases h₂ with
      | read htake₂ hq₂ =>
          rw [Session.onRead_of_onWrite hq₁] at hq₂
          cases hq₂
      | write hq₂ =>
          rw [hq₁] at hq₂
          cases hq₂
          rfl
      | bind hs => exact absurd hs (hbind _)
      | data hs | finish hs =>
          rw [hs] at hp
          exact hp.elim
  | bind hs => exact absurd hs (hbind _)
  | data hs | finish hs =>
      rw [hs] at hp
      exact hp.elim

/-- A data path returns only when it has been served. -/
theorem Sound.dataServed_of_returned (h : Sound w) {path : DataPath} {r : TestResult}
    (hp : w.session.phase = .running n path) (hr : path.returned = some r) :
    DataServed n w.net := by
  have hplaced := h.data.during n path hp
  rw [DataServed, h.history.mode_eq hp]
  cases path with
  | tcp s =>
      cases s with
      | returned => exact hplaced
      | accepting | measuring => cases hr
  | udp s => trivial
  | file s =>
      cases s with
      | returned => exact hplaced
      | accepting | receiving | joining => cases hr

theorem ServerStep.eq_read {x : Input} {c' : Ctrl} {q : Phase} (h : ServerStep w w')
    (hp : w.session.phase.BeforeData) (htake : w.ctrl.take = some (x, c'))
    (hq : w.session.onRead x = some q) : w' = { w.goto q with ctrl := c' } :=
  h.unique hp (fun n hn => by simp [Session.onRead, hn] at hq) (.read htake hq)

theorem ServerStep.eq_write {m : Msg} {q : Phase} (h : ServerStep w w')
    (hp : w.session.phase.BeforeData) (hq : w.session.phase.onWrite = some (m, q)) :
    w' = { w.goto q with ctrl := w.ctrl.put m } :=
  h.unique hp (fun n hn => by simp [Phase.onWrite, hn] at hq) (.write hq)

/-- The port is the kernel's choice. -/
theorem ServerStep.eq_bind (h : ServerStep w w') (hphase : w.session.phase = .binding n) :
    ∃ port, w' = { w with session := bindData n port } := by
  cases h with
  | @bind n' hp port =>
      rw [hphase] at hp
      cases hp
      exact ⟨port, rfl⟩
  | read htake hq => simp [Session.onRead, hphase] at hq
  | write hq => simp [Phase.onWrite, hphase] at hq
  | data hs | finish hs => simp [hphase] at hs

/-- A data path that has not returned goes on, or its `stop` future reads. -/
theorem ServerStep.stays_running {path : DataPath} (h : ServerStep w w')
    (hphase : w.session.phase = .running n path) (hnone : ∀ r, path.returned ≠ some r) :
    ∃ path', w'.session.phase = .running n path' := by
  cases h with
  | read htake hq =>
      cases Session.onRead_cases hq with
      | tcpStop hs | udpStop hs =>
          rw [hphase] at hs
          cases hs
          exact ⟨_, rfl⟩
      | hello hs | negotiate hs | run hs | drained hs => simp [hphase] at hs
      | unexpected hs hne | failed hs hne =>
          rcases Phase.wait_cases hs hne with ⟨-, hs⟩ | ⟨-, hs⟩ | ⟨-, n, hs⟩ <;>
            simp [hphase] at hs
  | write hq => simp [Phase.onWrite, hphase] at hq
  | bind hs => simp [hphase] at hs
  | data hs hdata =>
      rw [hphase] at hs
      cases hs
      exact ⟨_, rfl⟩
  | finish hs hret =>
      rw [hphase] at hs
      cases hs
      exact absurd hret (hnone _)

/-- An unserved session stays bound for its data path. -/
theorem Stuck.willRun_server (h : Stuck n w) (hstep : ServerStep w w') :
    WillRun n w'.session.phase w'.ctrl.inbox := by
  obtain ⟨hsound, hr, hun⟩ := h
  generalize hphase : w.session.phase = p at hr
  generalize hin : w.ctrl.inbox = inbox at hr
  cases hr with
  -- a handshake message is queued, and the server can only read it
  | @greeting hello rest hv =>
      have hread : w.session.onRead (.ok (.hello hello)) = some (.welcoming hello) := by
        simp [Session.onRead, hphase]
      rw [hstep.eq_read (by rw [hphase]; trivial) (Ctrl.take_cons hin) hread]
      exact .welcoming hv
  | negotiating =>
      have hread : w.session.onRead (.ok (.negotiate n)) = some (.binding n) := by
        simp [Session.onRead, hphase]
      rw [hstep.eq_read (by rw [hphase]; trivial) (Ctrl.take_cons hin) hread]
      exact .binding
  | connecting =>
      have hread : w.session.onRead (.ok .run) = some (dispatch w.session n) := by
        simp [Session.onRead, hphase]
      rw [hstep.eq_read (by rw [hphase]; trivial) (Ctrl.take_cons hin) hread]
      show WillRun n (dispatch w.session n) _
      rw [dispatch_eq (hsound.history.bound n (by rw [hphase]; rfl))]
      exact .running
  -- or it has one to write
  | welcoming hv =>
      have hwrite := congrArg Phase.onWrite hphase
      rw [Phase.onWrite, if_pos hv] at hwrite
      rw [hstep.eq_write (by rw [hphase]; trivial) hwrite]
      show WillRun n .negotiating w.ctrl.inbox
      exact hin ▸ .negotiating
  | starting =>
      have hwrite := congrArg Phase.onWrite hphase
      rw [hstep.eq_write (by rw [hphase]; trivial) hwrite]
      show WillRun n (.connecting n) w.ctrl.inbox
      exact hin ▸ .connecting
  | binding =>
      obtain ⟨port, rfl⟩ := hstep.eq_bind hphase
      show WillRun n (bindData n port).phase w.ctrl.inbox
      rw [bindData_phase, hin]
      exact .starting
  -- the path cannot return unserved
  | running =>
      obtain ⟨path', hphase'⟩ := hstep.stays_running hphase fun r hret =>
        hun (hsound.dataServed_of_returned hphase hret)
      rw [hphase']
      exact .running

theorem Stuck.server (h : Stuck n w) (hstep : ServerStep w w') : Stuck n w' :=
  ⟨h.sound.server hstep, h.willRun_server hstep,
    fun hs => h.unserved ((dataServed_congr (sent_eq_of_peerSide_eq hstep.peerSide_eq)).mp hs)⟩

theorem Stuck.not_closed (h : Stuck n w) : ¬ w.Closed := by
  intro hclosed
  have hr := h.willRun
  rw [show w.session.phase = .closed from hclosed] at hr
  cases hr

theorem Stuck.not_canReach (h : Stuck n w) : ¬ CanReach ServerStep World.Closed w :=
  not_canReach_of_invariant (fun _ _ hI hstep => hI.server hstep)
    (fun _ hI => hI.not_closed) h

end Stuck

/-! ## Departures -/

/-- A session whose client leaves can always run to its end exactly when the
    data path it runs, or will run on what is queued, has been served. -/
theorem alwaysCanFinish_depart_iff {w : World} (h : SessionReachable w) :
    AlwaysCanFinish w.depart ↔ Served w := by
  have hsound : Sound w.depart := h.depart.sound
  rw [← served_depart_iff]
  constructor
  · intro hfinish n hr
    by_contra hun
    exact Stuck.not_canReach ⟨hsound, hr, hun⟩ (hfinish _ .refl)
  · intro hserved v hrun
    exact (Finishable.run ⟨hsound, rfl, hserved⟩ hrun).ends

/-- At the entry of a two-stream TCP test, all depends on the streams opened. -/
theorem alwaysCanFinish_depart_iff_twoStreams :
    AlwaysCanFinish (World.entered currentHello twoStreams 5000).depart ↔
      Served (World.entered currentHello twoStreams 5000) :=
  alwaysCanFinish_depart_iff (entered_reachable currentHello rfl twoStreams 5000)

/-- A client that leaves between Run and its data connections wedges a TCP
    session: the accept loop waits for it. -/
theorem twoStreams_wedged :
    ¬ AlwaysCanFinish (World.entered currentHello twoStreams 5000).depart ∧
    ¬ ∀ w, SessionReachable w → AlwaysCanFinish w.depart := by
  have hreach : SessionReachable (World.entered currentHello twoStreams 5000) :=
    entered_reachable currentHello rfl twoStreams 5000
  have hstuck : Stuck twoStreams (World.entered currentHello twoStreams 5000).depart :=
    ⟨hreach.depart.sound, .running, by show ¬ 2 ≤ 0; decide⟩
  have hwedged : ¬ AlwaysCanFinish (World.entered currentHello twoStreams 5000).depart :=
    fun hfinish => hstuck.not_canReach (hfinish _ .refl)
  exact ⟨hwedged, fun hall => hwedged (hall _ hreach)⟩

end Andri

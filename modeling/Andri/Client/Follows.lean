/-
  Andri.Client.Follows

  A session that follows its client's script: its inputs are the script so far,
  so every message meets the wait it is for, and it has accepted the connections
  its phase says.  Every step of the server keeps this, and what happens to the
  data connections does not touch it.
-/
import Andri.Client.Script
import Andri.Session.Depart

namespace Andri

open Lib

/-- The data connections of a request. -/
def streams (neg : Negotiate) : ℕ :=
  match neg.mode with
  | .tcp => neg.parallel.toNat
  | .udp => 0
  | .file => 1

/-- The connections a data path has accepted. -/
def DataPath.accepted (neg : Negotiate) : DataPath → ℕ
  | .tcp (.accepting k) => k
  | .tcp _ => neg.parallel.toNat
  | .udp _ => 0
  | .file .accepting => 0
  | .file _ => 1

/-- What a phase has accepted: nothing before the data path, all streams after it;
    then a file's bytes have been sent as well. -/
def Phase.Settled (neg : Negotiate) (net : Net) : Phase → Prop
  | .running _ path => net.accepted = path.accepted neg
  | .draining _ | .reporting _ | .closed =>
      net.accepted = streams neg ∧ (neg.mode = .file → File.Supplied neg net)
  | _ => net.accepted = 0

/-- A session whose inputs are a part of the script. -/
structure Follows (neg : Negotiate) (w : World) : Prop where
  sound : Sound w
  sent : w.ctrl.read ++ w.ctrl.inbox <+: (script neg).map .ok
  ended : w.Closed → w.ctrl.written.length = 3
  gone : w.ctrl.closed = true → w.Closed
  bound : ∀ s, .start s ∈ w.ctrl.written → w.session.Bound neg
  settled : w.session.phase.Settled neg w.net

theorem follows_init (neg : Negotiate) : Follows neg World.init where
  sound := ⟨history_init, dataPlaced_init, announced_init⟩
  sent := List.nil_prefix
  ended h := by cases h
  gone h := by cases h
  bound s h := by cases h
  settled := rfl

section Follows

variable {neg : Negotiate} {w w' : World}

theorem Follows.read_prefix (h : Follows neg w) : w.ctrl.read <+: (script neg).map .ok :=
  (List.prefix_append _ _).trans h.sent

theorem Follows.answers (h : Follows neg w) : Answers w.ctrl.written :=
  (h.sound.history.phase.exchanged.answers h.read_prefix).1

theorem Follows.not_rejecting (h : Follows neg w) (err : ProtoError) :
    w.session.phase ≠ .rejecting err :=
  h.sound.history.phase.not_rejecting h.read_prefix err

theorem Follows.not_panicked (h : Follows neg w) : w.session.phase ≠ .panicked := by
  intro hp
  have hphase := h.sound.history.phase
  rw [hp] at hphase
  exact hphase

theorem Follows.lengths (h : Follows neg w) (hne : ¬ w.Closed) :
    w.ctrl.read.length = w.session.phase.reads ∧
    w.ctrl.written.length = w.session.phase.writes :=
  h.sound.history.phase.lengths hne h.not_rejecting

/-- The request worked for is the client's. -/
theorem Follows.request_eq (h : Follows neg w) {n : Negotiate}
    (hn : w.session.phase.negotiated = some n) : n = neg :=
  negotiate_of_mem_script
    (mem_script_of_read h.read_prefix (h.sound.history.phase.request_mem hn))

theorem Follows.mode_eq (h : Follows neg w) {n : Negotiate} {path : DataPath}
    (hp : w.session.phase = .running n path) : neg.mode = path.mode := by
  obtain rfl : n = neg := h.request_eq (by rw [hp]; rfl)
  exact h.sound.history.mode_eq hp

theorem Follows.file_of_draining (h : Follows neg w) {r : TestResult}
    (hp : w.session.phase = .draining r) : neg.mode = .file := by
  have hphase := h.sound.history.phase
  rw [hp] at hphase
  obtain ⟨n, hmode, hmem⟩ := hphase.draining_mem
  obtain rfl := negotiate_of_mem_script (mem_script_of_read h.read_prefix hmem)
  exact hmode

/-- A session that has written its Result has read all of the script. -/
theorem Follows.read_all (h : Follows neg w) (hc : w.Closed) :
    w.ctrl.read.length = 4 ∧ w.ctrl.inbox = [] := by
  have hread := (h.sound.history.phase.exchanged.answers h.read_prefix).2 (h.ended hc)
  have hlen := h.sent.length_le
  simp only [List.length_append, List.length_map, hread, script, List.length_cons,
    List.length_nil] at hlen
  refine ⟨hread, List.eq_nil_of_length_eq_zero ?_⟩
  omega

/-- What a session waits for is the next message of the script. -/
theorem Phase.valid_of_wait {phase : Phase} {p : Wait} {m : Msg} (hwait : phase.wait = some p)
    (hm : (script neg)[phase.reads]? = some m) : p.Valid m := by
  unfold Phase.wait at hwait
  split at hwait
  · cases hwait
    cases hm
    trivial
  · cases hwait
    cases hm
    trivial
  · cases hwait
    cases hm
    trivial
  · split at hwait
    · next t hmain =>
        cases hwait
        simp only [Phase.reads, DataPath.stopReads, hmain] at hm
        cases hm
        trivial
    · cases hwait
  · cases hwait
    cases hm
    trivial
  · cases hwait
    cases hm
    trivial
  · cases hwait

/-- Every message read is valid where it is read. -/
theorem Follows.valid (h : Follows neg w) {p : Wait} {x : Input} {c' : Ctrl}
    (hwait : w.session.phase.wait = some p) (htake : w.ctrl.take = some (x, c')) :
    ∃ m, x = .ok m ∧ p.Valid m ∧ c'.read ++ c'.inbox = w.ctrl.read ++ w.ctrl.inbox := by
  have hopen : ¬ w.Closed := by
    intro hc
    rw [World.Closed] at hc
    rw [hc] at hwait
    cases hwait
  -- an open session reads from its queue, not the end of file
  rcases Ctrl.take_eq_some htake with ⟨rest, hinbox, rfl⟩ | ⟨-, hclosed, -, -⟩
  · obtain ⟨hreads, -⟩ := h.lengths hopen
    have hnext : ((script neg).map Except.ok)[w.session.phase.reads]? = some x := by
      obtain ⟨tail, htail⟩ := h.sent
      rw [← hreads, ← htail, hinbox]
      simp
    rw [List.getElem?_map] at hnext
    obtain ⟨m, hm, rfl⟩ := Option.map_eq_some_iff.mp hnext
    exact ⟨m, rfl, Phase.valid_of_wait hwait hm, by simp [hinbox]⟩
  · exact absurd (h.gone hclosed) hopen

/-! ## The server's steps keep the session's part -/

theorem OnRead.wait {s : Session} {x : Input} {q : Phase} (h : OnRead s x q) :
    ∃ p, s.phase.wait = some p := by
  cases h with
  | hello hs | negotiate hs | run hs | udpStop hs | drained hs => exact ⟨_, by rw [hs]; rfl⟩
  | unexpected hs | failed hs => exact ⟨_, hs⟩
  | tcpStop hs hmain => exact ⟨.stop, by simp [hs, Phase.wait, hmain]⟩

/-- A valid message neither ends the session nor unsettles its data plane. -/
theorem OnRead.settled {s : Session} {x : Input} {q : Phase} {net : Net} (h : OnRead s x q)
    (hvalid : ∀ p, s.phase.wait = some p → ∃ m, x = .ok m ∧ p.Valid m)
    (hbound : ∀ n, s.phase.request = some n → s.Bound n) (hs : s.phase.Settled neg net) :
    q ≠ .closed ∧ q.Settled neg net := by
  cases h with
  | hello hphase | negotiate hphase =>
      rw [hphase] at hs
      exact ⟨by simp, hs⟩
  | @run n hphase =>
      rw [dispatch_eq (hbound n (by rw [hphase]; rfl))]
      rw [hphase] at hs
      have haccepted : net.accepted = 0 := hs
      refine ⟨by simp, ?_⟩
      show net.accepted = (DataPath.entry n.mode).accepted neg
      cases n.mode <;> exact haccepted
  | unexpected hwait hne hm =>
      obtain ⟨m, hok, hvalid⟩ := hvalid _ hwait
      cases hok
      exact absurd hvalid hm
  | failed hwait hne =>
      obtain ⟨m, hok, -⟩ := hvalid _ hwait
      cases hok
  | tcpStop hphase hmain =>
      rw [hphase] at hs
      exact ⟨by simp, hs⟩
  | udpStop hphase =>
      rw [hphase] at hs
      exact ⟨by simp, hs⟩
  | drained hphase =>
      rw [hphase] at hs
      exact ⟨by simp, hs⟩

theorem Phase.settled_write {p q : Phase} {m : Msg} {net : Net} (h : p.onWrite = some (m, q))
    (hrej : ∀ e, p ≠ .rejecting e) (hs : p.Settled neg net) : q.Settled neg net := by
  cases Phase.onWrite_cases h with
  | welcome hp | turnedAway hp | start hp | result hp =>
      rw [hp] at hs
      exact hs
  | error hp => exact absurd hp (hrej _)

/-- A step of the data path accepts what it says. -/
theorem DataStep.accepted {net net' : Net} {path path' : DataPath}
    (h : DataStep neg net path net' path') (hs : net.accepted = path.accepted neg) :
    net'.accepted = path'.accepted neg := by
  cases h with
  | tcp h =>
      cases h with
      | accept hk hpending => exact congrArg (· + 1) hs
      | spawn hk hnow => exact hs.trans hk
      | recv | sampler | warmup | finalLoad | finalDone | joinSampler | joinWarmup => exact hs
  | udp h => cases h <;> exact hs
  | file h =>
      cases h with
      | accept hpending hnow => exact congrArg (· + 1) hs
      | read | eof | done | samplerReceiving | samplerJoining | join => exact hs

/-- A path that returns has accepted all streams. -/
theorem DataPath.accepted_of_returned {path : DataPath} {r : TestResult}
    (hr : path.returned = some r) (hmode : neg.mode = path.mode) :
    path.accepted neg = streams neg := by
  rw [streams, hmode]
  cases path with
  | tcp s =>
      cases s with
      | returned => rfl
      | accepting | measuring => cases hr
  | udp s => rfl
  | file s =>
      cases s with
      | returned => rfl
      | accepting | receiving | joining => cases hr

/-- A closed session takes no step. -/
theorem ServerStep.not_closed (h : ServerStep w w') : ¬ w.Closed := by
  intro hc
  rw [World.Closed] at hc
  cases h with
  | read htake hq =>
      obtain ⟨p, hwait⟩ := (Session.onRead_cases hq).wait
      rw [hc] at hwait
      cases hwait
  | write hq =>
      rw [hc] at hq
      cases hq
  | bind hp | data hp | finish hp =>
      rw [hc] at hp
      cases hp

/-- A write that ends a session on the script is its third. -/
theorem Follows.ended_write (h : Follows neg w) {m : Msg} (hopen : ¬ w.Closed)
    (hq : w.session.phase.onWrite = some (m, .closed)) : (w.ctrl.written ++ [m]).length = 3 := by
  obtain ⟨-, hwrites⟩ := h.lengths hopen
  rw [List.length_append, hwrites]
  cases Phase.onWrite_cases hq with
  | error hs => exact absurd hs (h.not_rejecting _)
  | result hs =>
      rw [hs]
      rfl

/-- A Start is written once the client's mode is bound. -/
theorem Follows.bound_write (h : Follows neg w) {m : Msg} {q : Phase} {s : Start}
    (hq : w.session.phase.onWrite = some (m, q)) (hs : .start s ∈ w.ctrl.written ++ [m]) :
    w.session.Bound neg := by
  rcases List.mem_append.mp hs with hold | hnew
  · exact h.bound s hold
  · have hm := List.mem_singleton.mp hnew
    subst hm
    cases Phase.onWrite_cases hq with
    | @start n port heq =>
        obtain rfl : n = neg := h.request_eq (by rw [heq]; rfl)
        exact h.sound.history.bound n (by rw [heq]; rfl)

/-- Every server step keeps a session on the script. -/
theorem Follows.server (h : Follows neg w) (hstep : ServerStep w w') : Follows neg w' := by
  have hsound := h.sound.server hstep
  have hopen := hstep.not_closed
  have hgone : w'.ctrl.closed = true → w'.Closed := fun hc =>
    absurd (h.gone (hstep.closed_eq ▸ hc)) hopen
  cases hstep with
  | @read x c' q htake hq =>
      have hcases := Session.onRead_cases hq
      obtain ⟨p, hwait⟩ := hcases.wait
      obtain ⟨m, -, -, hkeep⟩ := h.valid hwait htake
      obtain ⟨hne, hsettled⟩ := hcases.settled
        (fun p hp => (h.valid hp htake).imp fun m hm => ⟨hm.1, hm.2.1⟩)
        h.sound.history.bound h.settled
      refine ⟨hsound, hkeep ▸ h.sent, fun hc => absurd hc hne, hgone, fun s hs => ?_, hsettled⟩
      rw [(Ctrl.take_frame htake).2.1] at hs
      exact h.bound s hs
  | @write m q hq =>
      refine ⟨hsound, h.sent, fun hc => ?_, hgone, fun s hs => h.bound_write hq hs,
        Phase.settled_write hq h.not_rejecting h.settled⟩
      obtain rfl : q = .closed := hc
      exact h.ended_write hopen hq
  | @bind n hp port =>
      have hsettled := h.settled
      rw [hp] at hsettled
      refine ⟨hsound, h.sent, fun hc => ?_, hgone,
        fun s hs => absurd hs (h.sound.history.start_notMem hp s), ?_⟩
      · change (bindData n port).phase = .closed at hc
        rw [bindData_phase] at hc
        cases hc
      · show (bindData n port).phase.Settled neg w.net
        rw [bindData_phase]
        exact hsettled
  | @data n path path' net' hp hdata =>
      obtain rfl : n = neg := h.request_eq (by rw [hp]; rfl)
      have hsettled := h.settled
      rw [hp] at hsettled
      exact ⟨hsound, h.sent, fun hc => (by cases hc), hgone, h.bound, hdata.accepted hsettled⟩
  | @finish n path r hp hr =>
      obtain rfl : n = neg := h.request_eq (by rw [hp]; rfl)
      have hmode := h.mode_eq hp
      have hsettled := h.settled
      rw [hp] at hsettled
      have haccepted : w.net.accepted = streams n :=
        hsettled.trans (DataPath.accepted_of_returned hr hmode)
      -- a file's path returns only with the bytes sent
      have hsupplied : n.mode = .file → File.Supplied n w.net := by
        intro hfile
        have hserved := h.sound.dataServed_of_returned hp hr
        rwa [DataServed, hfile] at hserved
      refine ⟨hsound, h.sent, fun hc => ?_, hgone, h.bound, ?_⟩
      · change afterData path r = .closed at hc
        rcases afterData_cases path r with ha | ha <;> rw [ha] at hc <;> cases hc
      · show (afterData path r).Settled n w.net
        rcases afterData_cases path r with ha | ha <;> rw [ha] <;> exact ⟨haccepted, hsupplied⟩

/-! ## What the other end does to the data plane -/

theorem Phase.settled_grows {p : Phase} {net net' : Net} (hs : p.Settled neg net)
    (h : net.Grows net') : p.Settled neg net' := by
  cases p with
  | draining | reporting | closed =>
      exact ⟨h.accepted.trans hs.1, fun hfile => (hs.2 hfile).grows h⟩
  | greeting | welcoming | rejecting | negotiating | binding | starting | connecting | running
  | panicked => exact h.accepted.trans hs

/-- What happens to the data connections and the clock leaves a session on the
    script. -/
theorem Follows.dataPlane (h : Follows neg w) (hrun : Run PeerStep w w')
    (hctrl : w'.ctrl = w.ctrl) : Follows neg w' := by
  -- the invariants survive any peer, the exchange is untouched
  have hkept : w'.session = w.session ∧ Sound w' ∧ w'.session.phase.Settled neg w'.net := by
    refine run_invariant (I := fun v => v.session = w.session ∧ Sound v ∧
      v.session.phase.Settled neg v.net) (fun v v' hv hstep => ?_) hrun ⟨rfl, h.sound, h.settled⟩
    obtain ⟨hsession, hsound, hsettled⟩ := hv
    obtain ⟨hframe, -, -⟩ := hstep.frame
    refine ⟨hframe.trans hsession, hsound.step (.inr (.inr hstep)), ?_⟩
    rw [hframe]
    exact Phase.settled_grows hsettled hstep.grows
  obtain ⟨hsession, hsound, hsettled⟩ := hkept
  have hclosed : w'.Closed ↔ w.Closed := by rw [World.Closed, World.Closed, hsession]
  refine ⟨hsound, hctrl ▸ h.sent, fun hc => ?_, fun hc => ?_, fun s hs => ?_, hsettled⟩
  · rw [hctrl]
    exact h.ended (hclosed.mp hc)
  · rw [hctrl] at hc
    exact hclosed.mpr (h.gone hc)
  · rw [hctrl] at hs
    rw [hsession]
    exact h.bound s hs

/-- The next message of the script arrives. -/
theorem Follows.send (h : Follows neg w) {m : Msg} (hopen : w.ctrl.closed = false)
    (hm : (script neg)[(w.ctrl.read ++ w.ctrl.inbox).length]? = some m) :
    Follows neg { w with ctrl := { w.ctrl with inbox := w.ctrl.inbox ++ [.ok m] } } := by
  have hstep : PeerStep w { w with ctrl := { w.ctrl with inbox := w.ctrl.inbox ++ [.ok m] } } :=
    .send _ hopen
  refine ⟨h.sound.step (.inr (.inr hstep)), ?_, h.ended, h.gone, h.bound, h.settled⟩
  show w.ctrl.read ++ (w.ctrl.inbox ++ [.ok m]) <+: _
  rw [← List.append_assoc]
  apply concat_prefix h.sent
  rw [List.getElem?_map, hm]
  rfl

/-- The client drops the control connection of a closed session. -/
theorem Follows.close (h : Follows neg w) (hc : w.Closed) :
    Follows neg { w with ctrl := { w.ctrl with closed := true } } :=
  ⟨h.sound.step (.inr (.inr .close)), h.sent, h.ended, fun _ => hc, h.bound, h.settled⟩

/-- A session that has written a Result is over. -/
theorem Follows.closed_of_result (h : Follows neg w) {r : TestResult}
    (hr : w.ctrl.written[2]? = some (.result r)) : w.Closed := by
  by_contra hopen
  obtain ⟨-, hwrites⟩ := h.lengths hopen
  have hlt := (List.getElem?_eq_some_iff.mp hr).1
  rw [hwrites] at hlt
  cases hp : w.session.phase <;> simp [hp, Phase.writes] at hlt
  exact hopen hp

end Follows

end Andri

/-
  Andri.Client.Agreement

  The invariant of a client and its session.  The client's steps are steps a peer
  can take; what it has sent is the script up to where it is, what it has read
  the answers up to there, and the data connections are those its drive opened.
  Every step of either end, and of the network, keeps this.
-/
import Andri.Client.Follows

namespace Andri

open Lib

/-- How much of the script has been sent. -/
def ClientPhase.sent : ClientPhase → ℕ
  | .greeting => 0
  | .awaitingWelcome | .negotiating => 1
  | .awaitingStart | .starting _ => 2
  | .driving _ _ | .stopping => 3
  | .awaitingResult | .done _ => 4
  | .failed _ => 0

/-- How many of the answers have been read. -/
def ClientPhase.seen : ClientPhase → ℕ
  | .greeting | .awaitingWelcome => 0
  | .negotiating | .awaitingStart => 1
  | .starting _ | .driving _ _ | .stopping | .awaitingResult => 2
  | .done _ => 3
  | .failed _ => 0

/-- The Start the client works with. -/
def ClientPhase.start : ClientPhase → Option Start
  | .starting s | .driving s _ => some s
  | _ => none

/-- The mode a drive belongs to. -/
def DriveState.mode : DriveState → Mode
  | .tcp _ => .tcp
  | .udp _ => .udp
  | .file _ => .file

/-- The invariant of a drive over the connections it has opened. -/
def DriveState.Placed (neg : Negotiate) (net : Net) : DriveState → Prop
  | .tcp d => d.Placed neg net
  | .udp _ => net.conns = []
  | .file d => d.Placed neg net

/-- The client's part of the data plane: nothing opened before the drive; after it
    all streams, and a file's bytes on its own. -/
def ClientPhase.Placed (neg : Negotiate) (net : Net) : ClientPhase → Prop
  | .driving _ d => d.mode = neg.mode ∧ d.Placed neg net
  | .stopping | .awaitingResult | .done _ =>
      net.conns.length = streams neg ∧ (neg.mode = .file → File.Supplied neg net)
  | _ => net.conns = []

/-- The invariant of a client and its session. -/
structure Agree (su : Setup) (j : Joint) : Prop where
  session : Follows su.neg j.world
  sent : (j.world.ctrl.read ++ j.world.ctrl.inbox).length = j.client.sent
  seen : j.seen = j.client.seen
  seen_le : j.seen ≤ j.world.ctrl.written.length
  gone : j.world.ctrl.closed = true → ∃ r, j.client = .done r
  start : ∀ s, j.client.start = some s → .start s ∈ j.world.ctrl.written
  failed : ∀ e, j.client ≠ .failed e
  done : ∀ r, j.client = .done r → j.world.ctrl.written[2]? = some (.result r)
  placed : j.client.Placed su.neg j.world.net

theorem agree_init (su : Setup) : Agree su Joint.init where
  session := follows_init su.neg
  sent := rfl
  seen := rfl
  seen_le := le_rfl
  gone h := by cases h
  start s h := by cases h
  failed e h := by cases h
  done r h := by cases h
  placed := rfl

/-! ## The client is a peer -/

/-- A step of a drive is something a peer can do. -/
theorem DriveStep.peer_run {su : Setup} {w : World} {start : Start} {net' : Net}
    {d d' : DriveState} (h : DriveStep su (w.listensOn start) w.net d net' d') :
    Run PeerStep w { w with net := net' } := by
  have hlistening : w.listensOn start → w.listening := by
    intro hl
    rw [World.listensOn] at hl
    rw [World.listening, hl]
    rfl
  -- a send or a close is the peer's, everything else takes only time
  cases h with
  | tcp h =>
      cases h with
      | connect hk hl => exact .single (.connect (hlistening hl))
      | spawn hk hnow => exact .single (.wait hnow)
      | check hl hnow => exact .single (.wait hnow)
      | finish hl hc hnow => exact .head (.closeData hc) (.single (.wait hnow))
      | write hl hc hopen => exact .single (.sendData _ hc hopen)
      | wrote | join => exact .refl
      | sampler hs h => exact .single (.wait h.clock_le)
  | udp h =>
      cases h with
      | start hnow hle => exact .single (.wait (hnow.trans hle))
      | go hnow | finish hnow | tick hnow => exact .single (.wait hnow)
      | send hmore hnow => exact .head (.wait hnow) (.single (.datagram _))
      | lose hmore hnow => exact .single (.wait hnow)
      | sent => exact .refl
  | file h =>
      cases h with
      | connect hl => exact .single (.connect (hlistening hl))
      | chunk | wrote => exact .refl
      | write hc hopen => exact .single (.sendData _ hc hopen)
      | finish hall hc => exact .single (.closeData hc)

/-! ## Drives -/

section Drive

variable {su : Setup} {listening : Prop} {neg : Negotiate} {net net' : Net} {d d' : DriveState}

theorem DriveStep.mode_eq (h : DriveStep su listening net d net' d') : d'.mode = d.mode := by
  cases h <;> rfl

theorem DriveStep.placed (h : DriveStep su listening net d net' d') (hd : d.Placed su.neg net) :
    d'.Placed su.neg net' := by
  cases h with
  | tcp h => exact h.placed hd
  | udp h => exact h.conns_eq.trans hd
  | file h => exact h.placed hd

/-- Nothing opened suits the entry of every drive. -/
theorem DriveState.placed_entry (h : net.conns = []) (m : Mode) :
    (DriveState.entry m).mode = m ∧ (DriveState.entry m).Placed neg net := by
  cases m with
  | tcp => exact ⟨rfl, by simp [h], Nat.zero_le _, by simp [h]⟩
  | udp | file => exact ⟨rfl, h⟩

/-- A drive that has returned has opened all streams and sent all of a file. -/
theorem DriveState.Placed.returned (hd : d.Placed neg net) (hmode : d.mode = neg.mode)
    (hr : d.Returned) :
    net.conns.length = streams neg ∧ (neg.mode = .file → File.Supplied neg net) := by
  rw [streams, ← hmode]
  cases d with
  | tcp d =>
      cases d with
      | returned => exact ⟨hd, fun h => by cases h⟩
      | connecting | sending => exact hr.elim
  | udp d => exact ⟨congrArg List.length hd, fun h => by cases h⟩
  | file d =>
      cases d with
      | returned =>
          obtain ⟨c, hc, hsent⟩ := hd
          exact ⟨congrArg List.length hc, fun _ => ⟨c, by rw [hc]; rfl, hsent.ge⟩⟩
      | connecting | looping | writing => exact hr.elim

theorem DriveState.Placed.congr (hd : d.Placed neg net)
    (h : net'.conns.map Conn.peerSide = net.conns.map Conn.peerSide) : d.Placed neg net' := by
  cases d with
  | tcp d => exact Tcp.Drive.Placed.congr hd h
  | udp d =>
      have hconns : net.conns = [] := hd
      have hlen := length_eq_of_peerSide_eq h
      rw [hconns] at hlen
      exact List.eq_nil_of_length_eq_zero hlen
  | file d => exact File.Drive.Placed.congr hd h

/-- The server's reads leave the client's part of the data plane. -/
theorem ClientPhase.Placed.congr {p : ClientPhase} (hp : p.Placed neg net)
    (h : net'.conns.map Conn.peerSide = net.conns.map Conn.peerSide) : p.Placed neg net' := by
  have hlen := length_eq_of_peerSide_eq h
  have hnil : net.conns = [] → net'.conns = [] := by
    intro hconns
    rw [hconns] at hlen
    exact List.eq_nil_of_length_eq_zero hlen
  cases p with
  | driving s d => exact ⟨hp.1, hp.2.congr h⟩
  | stopping | awaitingResult | done =>
      exact ⟨hlen.trans hp.1,
        fun hfile => (File.supplied_congr (sent_eq_of_peerSide_eq h)).mpr (hp.2 hfile)⟩
  | greeting | awaitingWelcome | negotiating | awaitingStart | starting | failed => exact hnil hp

end Drive

/-! ## Steps of the server -/

section Steps

variable {su : Setup} {j : Joint}

/-- The server reads from the front of what was sent and adds to what it has
    written. -/
theorem Follows.exchange {neg : Negotiate} {w w' : World} (h : Follows neg w)
    (hstep : ServerStep w w') :
    w'.ctrl.read ++ w'.ctrl.inbox = w.ctrl.read ++ w.ctrl.inbox ∧
    w.ctrl.written <+: w'.ctrl.written := by
  cases hstep with
  | @read x c' q htake hq =>
      obtain ⟨p, hwait⟩ := (Session.onRead_cases hq).wait
      obtain ⟨m, -, -, hkeep⟩ := h.valid hwait htake
      refine ⟨hkeep, ?_⟩
      show w.ctrl.written <+: c'.written
      rw [(Ctrl.take_frame htake).2.1]
  | write => exact ⟨rfl, List.prefix_append _ _⟩
  | bind | data | finish => exact ⟨rfl, List.prefix_refl _⟩

theorem Agree.server (h : Agree su j) {w' : World} (hstep : ServerStep j.world w') :
    Agree su { j with world := w' } := by
  obtain ⟨hkeep, hwritten⟩ := h.session.exchange hstep
  have hclosed : w'.ctrl.closed = j.world.ctrl.closed := hstep.closed_eq
  exact {
    session := h.session.server hstep
    sent := by
      show (w'.ctrl.read ++ w'.ctrl.inbox).length = _
      rw [hkeep, h.sent]
    seen := h.seen
    seen_le := h.seen_le.trans hwritten.length_le
    gone := fun hc => h.gone (hclosed ▸ hc)
    start := fun s hs => hwritten.subset (h.start s hs)
    failed := h.failed
    done := fun r hr => by
      -- the session of a client that is done is over
      exact absurd (h.session.closed_of_result (h.done r hr)) hstep.not_closed
    placed := h.placed.congr hstep.peerSide_eq }

/-! ## Steps of the client -/

/-- An answer read is the one the client expects there. -/
theorem Agree.onRead (h : Agree su j) {m : Msg} {p : ClientPhase}
    (hm : j.world.ctrl.written[j.seen]? = some m) (hp : j.client.onRead m = some p) :
    (j.client = .awaitingWelcome ∧ p = .negotiating) ∨
    (∃ s, j.client = .awaitingStart ∧ m = .start s ∧ p = .starting s) ∨
    (∃ r, j.client = .awaitingResult ∧ m = .result r ∧ p = .done r) := by
  have hanswers := h.session.answers
  rw [h.seen] at hm
  -- the answer at this place is the same in all the answers there are
  generalize j.world.ctrl.written = written at hm hanswers
  generalize j.client = client at hm hp
  cases client with
  | awaitingWelcome =>
      cases hanswers with
      | silent => cases hm
      | welcomed | started | reported =>
          cases hm
          cases hp
          exact .inl ⟨rfl, rfl⟩
  | awaitingStart =>
      cases hanswers with
      | silent | welcomed => cases hm
      | started s | reported s =>
          cases hm
          cases hp
          exact .inr (.inl ⟨s, rfl, rfl, rfl⟩)
  | awaitingResult =>
      cases hanswers with
      | silent | welcomed | started => cases hm
      | reported s r =>
          cases hm
          cases hp
          exact .inr (.inr ⟨r, rfl, rfl, rfl⟩)
  | greeting | negotiating | starting | driving | stopping | done | failed => cases hp

theorem Agree.read (h : Agree su j) {m : Msg} {p : ClientPhase}
    (hm : j.world.ctrl.written[j.seen]? = some m) (hp : j.client.onRead m = some p) :
    Agree su { j with client := p, seen := j.seen + 1 } := by
  have hcases := h.onRead hm hp
  have hlt := (List.getElem?_eq_some_iff.mp hm).1
  have hseen := h.seen
  have hsent := h.sent
  have hplaced := h.placed
  have hgone : j.world.ctrl.closed = true → ∃ r, p = .done r := by
    intro hc
    obtain ⟨r, hr⟩ := h.gone hc
    rw [hr] at hp
    cases hp
  rcases hcases with ⟨hc, rfl⟩ | ⟨s, hc, rfl, rfl⟩ | ⟨r, hc, rfl, rfl⟩ <;>
    rw [hc] at hseen hsent hplaced
  · exact ⟨h.session, hsent, congrArg (· + 1) hseen, hlt, hgone, fun s hs => (by cases hs),
      fun e he => (by cases he), fun r hr => (by cases hr), hplaced⟩
  · refine ⟨h.session, hsent, congrArg (· + 1) hseen, hlt, hgone, fun s' hs => ?_,
      fun e he => (by cases he), fun r hr => (by cases hr), hplaced⟩
    cases hs
    exact List.mem_of_getElem? hm
  · refine ⟨h.session, hsent, congrArg (· + 1) hseen, hlt, hgone, fun s hs => (by cases hs),
      fun e he => (by cases he), fun r' hr => ?_, hplaced⟩
    cases hr
    rw [← hm, hseen]
    rfl

/-- What the client writes is the script's next message. -/
theorem ClientPhase.onWrite_cases {neg : Negotiate} {c p : ClientPhase} {m : Msg}
    (h : c.onWrite neg = some (m, p)) :
    (script neg)[c.sent]? = some m ∧ p.sent = c.sent + 1 ∧ p.seen = c.seen ∧
    (∀ s, p.start = some s → c.start = some s) ∧ (∀ r, c ≠ .done r) ∧ (∀ e, p ≠ .failed e) ∧
    (∀ r, p ≠ .done r) ∧ ∀ net, c.Placed neg net → p.Placed neg net := by
  cases c with
  | greeting | negotiating =>
      cases h
      exact ⟨rfl, rfl, rfl, fun s hs => (by cases hs), by simp, by simp, by simp, fun net hc => hc⟩
  | starting s =>
      cases h
      exact ⟨rfl, rfl, rfl, fun s hs => hs, by simp, by simp, by simp,
        fun net hc => DriveState.placed_entry hc neg.mode⟩
  | stopping =>
      cases h
      exact ⟨rfl, rfl, rfl, fun s hs => (by cases hs), by simp, by simp, by simp, fun net hc => hc⟩
  | awaitingWelcome | awaitingStart | driving | awaitingResult | done | failed => cases h

theorem Agree.write (h : Agree su j) {m : Msg} {p : ClientPhase}
    (hp : j.client.onWrite su.neg = some (m, p)) :
    Agree su { j with
      client := p
      world := { j.world with
        ctrl := { j.world.ctrl with inbox := j.world.ctrl.inbox ++ [.ok m] } } } := by
  obtain ⟨hm, hsent, hseen, hstart, hnotDone, hfailed, hdone, hplaced⟩ :=
    ClientPhase.onWrite_cases hp
  -- a client that still writes has not dropped the connection
  have hopen : j.world.ctrl.closed = false := by
    by_contra hc
    obtain ⟨r, hr⟩ := h.gone (by simpa using hc)
    exact hnotDone r hr
  exact {
    session := h.session.send hopen (by rw [h.sent, hm])
    sent := by
      show (j.world.ctrl.read ++ (j.world.ctrl.inbox ++ [(.ok m : Input)])).length = p.sent
      rw [hsent, ← h.sent, ← List.append_assoc, List.length_append, List.length_singleton]
    seen := by rw [hseen, ← h.seen]
    seen_le := h.seen_le
    gone := fun hc => by
      change j.world.ctrl.closed = true at hc
      rw [hopen] at hc
      cases hc
    start := fun s hs => h.start s (hstart s hs)
    failed := hfailed
    done := fun r hr => absurd hr (hdone r)
    placed := hplaced _ h.placed }

theorem Agree.drive (h : Agree su j) {start : Start} {d d' : DriveState} {net' : Net}
    (hp : j.client = .driving start d)
    (hstep : DriveStep su (j.world.listensOn start) j.world.net d net' d') :
    Agree su { j with client := .driving start d', world := { j.world with net := net' } } := by
  obtain ⟨session, sent, seen, seen_le, gone, hstart, failed, done, placed⟩ := h
  rw [hp] at sent seen gone hstart placed
  obtain ⟨hmode, hd⟩ := placed
  exact {
    session := session.dataPlane hstep.peer_run rfl
    sent := sent
    seen := seen
    seen_le := seen_le
    gone := fun hc => by
      obtain ⟨r, hr⟩ := gone hc
      cases hr
    start := hstart
    failed := fun e he => by cases he
    done := fun r hr => by cases hr
    placed := ⟨hstep.mode_eq.trans hmode, hstep.placed hd⟩ }

theorem Agree.driven (h : Agree su j) {start : Start} {d : DriveState}
    (hp : j.client = .driving start d) (hr : d.Returned) :
    Agree su { j with client := .stopping } := by
  obtain ⟨session, sent, seen, seen_le, gone, hstart, failed, done, placed⟩ := h
  rw [hp] at sent seen gone placed
  exact {
    session := session
    sent := sent
    seen := seen
    seen_le := seen_le
    gone := fun hc => by
      obtain ⟨r, hr⟩ := gone hc
      cases hr
    start := fun s hs => by cases hs
    failed := fun e he => by cases he
    done := fun r hr => by cases hr
    placed := placed.2.returned placed.1 hr }

theorem Agree.client (h : Agree su j) {j' : Joint} (hstep : ClientStep su j j') :
    Agree su j' := by
  cases hstep with
  | read hm hp => exact h.read hm hp
  | write hp => exact h.write hp
  | drive hp hstep => exact h.drive hp hstep
  | driven hp hr => exact h.driven hp hr
  | @close r hp =>
      -- the Result it has ended the session
      have hclosed := h.session.closed_of_result (h.done r hp)
      exact ⟨h.session.close hclosed, h.sent, h.seen, h.seen_le, fun _ => ⟨r, hp⟩, h.start,
        h.failed, h.done, h.placed⟩

/-- Every step keeps the client and its session in agreement. -/
theorem Agree.step (h : Agree su j) {j' : Joint} (hstep : JointStep su j j') : Agree su j' := by
  cases hstep with
  | server hstep => exact h.server hstep
  | client hstep => exact h.client hstep
  | network buf =>
      exact ⟨h.session.dataPlane (.single (.datagram buf)) rfl, h.sent, h.seen, h.seen_le, h.gone,
        h.start, h.failed, h.done, h.placed.congr rfl⟩

end Steps

theorem JointReachable.agree {su : Setup} {j : Joint} (h : JointReachable su j) : Agree su j :=
  Reachable.invariant h (fun _ hinit => hinit ▸ agree_init su) fun _ _ hI hstep => hI.step hstep

end Andri

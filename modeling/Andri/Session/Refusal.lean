/-
  Andri.Session.Refusal

  What the server makes of a control message out of sequence, and of a control
  read that fails, at each of the four points where it waits for one.  At the
  first three it refuses; at the last, the wait for Stop, the outcome of the
  read is discarded and the session reports.
-/
import Andri.Session.Finish
import Andri.Session.Handshake

namespace Andri

open Lib

/-- A step in which no I/O call of the server fails. -/
def OkStep (w w' : World) : Prop := ServerStep w w' ∨ PeerStep w w'

/-- No Result is produced on any run, nor has one been written. -/
def NoResult (w : World) : Prop :=
  ∀ v, Run Step w v → ¬ v.Reporting ∧ ∀ r, .result r ∉ v.ctrl.written

/-- The session answers `Error(UnexpectedMessage)` as its last message: nothing
    else is written on any run, it is written when the session ends with no
    failing I/O call, and the session can always end. -/
structure AnswersUnexpected (w : World) : Prop where
  only : ∀ v, Run Step w v → v.ctrl.written <+: w.ctrl.written ++ [.error .unexpectedMessage]
  last : ∀ v, Run OkStep w v → v.Closed →
    v.ctrl.written = w.ctrl.written ++ [.error .unexpectedMessage]
  noResult : NoResult w
  ends : ∀ v, Run Step w v → CanReach ServerStep World.Closed v

/-- The session is aborted: it is over without a Result. -/
structure Aborted (w : World) : Prop where
  closed : w.Closed
  noResult : NoResult w

/-- What is asked of the server after a read that is not the message expected. -/
def Refused (w' : World) : Input → Prop
  | .ok _ => AnswersUnexpected w'
  | .error _ => Aborted w'

/-- The inputs a wait is for. -/
def Wait.Accepts (p : Wait) : Input → Prop
  | .ok m => p.Valid m
  | .error _ => False

/-! ## The refusing waits -/

/-- Before the data path no Result has been written. -/
theorem PhaseHistory.no_result {p : Phase} {read : List Input} {written : List Msg}
    (h : PhaseHistory p read written) (hp : p.BeforeData) (r : TestResult) :
    .result r ∉ written := by
  cases p with
  | greeting | welcoming =>
      obtain ⟨-, rfl⟩ := h
      simp
  | negotiating | binding | starting =>
      obtain ⟨g, -, -, rfl⟩ := h
      simp
  | connecting n =>
      obtain ⟨g, s, -, -, rfl⟩ := h
      simp
  | rejecting | running | draining | reporting | closed | panicked => exact hp.elim

/-- A closed session stays as it is. -/
theorem Step.of_closed {w w' : World} (h : Step w w') (hw : w.Closed) :
    w'.Closed ∧ w'.ctrl.written = w.ctrl.written := by
  have hw' : w.session.phase = .closed := hw
  rcases h with hserver | hfail | hpeer
  · cases hserver with
    | read htake hp => simp [Session.onRead, hw'] at hp
    | write hp => simp [Phase.onWrite, hw'] at hp
    | bind hp | data hp | finish hp => simp [hw'] at hp
  · cases hfail with
    | fail hf =>
        rw [hw'] at hf
        exact hf.elim
  · obtain ⟨hsession, -, hwritten⟩ := hpeer.frame
    exact ⟨by rw [World.Closed, hsession, hw'], hwritten⟩

/-- What is left of a session that rejects the client with `err` over output
    `written`: to write the error, or nothing. -/
def Rejecting (err : ProtoError) (written : List Msg) (w : World) : Prop :=
  (w.session.phase = .rejecting err ∧ w.ctrl.written = written) ∨
  (w.Closed ∧ (w.ctrl.written = written ∨ w.ctrl.written = written ++ [.error err]))

/-- The same, when no I/O call has failed. -/
def RejectingOk (err : ProtoError) (written : List Msg) (w : World) : Prop :=
  (w.session.phase = .rejecting err ∧ w.ctrl.written = written) ∨
  (w.Closed ∧ w.ctrl.written = written ++ [.error err])

section Rejecting

variable {err : ProtoError} {written : List Msg} {w w' : World}

theorem Rejecting.server (hw : w.session.phase = .rejecting err) (hwr : w.ctrl.written = written)
    (h : ServerStep w w') : w'.Closed ∧ w'.ctrl.written = written ++ [.error err] := by
  cases h with
  | read htake hp => simp [Session.onRead, hw] at hp
  | write hp =>
      rw [hw] at hp
      cases hp
      exact ⟨rfl, by rw [← hwr]; rfl⟩
  | bind hp | data hp | finish hp => simp [hw] at hp

theorem Rejecting.step (hw : Rejecting err written w) (h : Step w w') :
    Rejecting err written w' := by
  rcases hw with ⟨hphase, hwr⟩ | ⟨hclosed, hwr⟩
  · rcases h with hserver | hfail | hpeer
    · obtain ⟨hclosed', hwr'⟩ := Rejecting.server hphase hwr hserver
      exact .inr ⟨hclosed', .inr hwr'⟩
    · cases hfail with
      | fail hf => exact .inr ⟨rfl, .inl hwr⟩
    · obtain ⟨hsession, -, hwritten⟩ := hpeer.frame
      exact .inl ⟨by rw [hsession, hphase], by rw [hwritten, hwr]⟩
  · obtain ⟨hclosed', hwr'⟩ := h.of_closed hclosed
    exact .inr ⟨hclosed', by rwa [hwr']⟩

theorem RejectingOk.step (hw : RejectingOk err written w) (h : OkStep w w') :
    RejectingOk err written w' := by
  rcases hw with ⟨hphase, hwr⟩ | ⟨hclosed, hwr⟩
  · rcases h with hserver | hpeer
    · exact .inr (Rejecting.server hphase hwr hserver)
    · obtain ⟨hsession, -, hwritten⟩ := hpeer.frame
      exact .inl ⟨by rw [hsession, hphase], by rw [hwritten, hwr]⟩
  · have hstep : Step w w' := h.imp_right .inr
    obtain ⟨hclosed', hwr'⟩ := hstep.of_closed hclosed
    exact .inr ⟨hclosed', by rw [hwr', hwr]⟩

theorem Rejecting.written_initial (hw : Rejecting err written w) :
    w.ctrl.written <+: written ++ [.error err] := by
  rcases hw with ⟨-, hwr⟩ | ⟨-, hwr | hwr⟩
  · exact hwr ▸ List.prefix_append _ _
  · exact hwr ▸ List.prefix_append _ _
  · exact hwr ▸ List.prefix_refl _

theorem Rejecting.ends (hw : Rejecting err written w) : CanReach ServerStep World.Closed w := by
  rcases hw with ⟨hphase, -⟩ | ⟨hclosed, -⟩
  · have hwrite : w.session.phase.onWrite = some (.error err, .closed) := by rw [hphase]; rfl
    exact .head (.write hwrite) (.here rfl)
  · exact .here hclosed

end Rejecting

/-- A session about to reject, with no Result behind it, answers as asked. -/
theorem answersUnexpected_of_rejecting {w : World}
    (hp : w.session.phase = .rejecting .unexpectedMessage) (hno : ∀ r, .result r ∉ w.ctrl.written) :
    AnswersUnexpected w := by
  -- on every run the error is still to be written, or the session is over
  have hinv : ∀ v, Run Step w v → Rejecting .unexpectedMessage w.ctrl.written v := fun v hrun =>
    run_invariant (fun _ _ hI hstep => hI.step hstep) hrun (.inl ⟨hp, rfl⟩)
  refine ⟨fun v hrun => (hinv v hrun).written_initial, fun v hrun hv => ?_,
    fun v hrun => ⟨?_, fun r hr => ?_⟩, fun v hrun => (hinv v hrun).ends⟩
  · have hok : RejectingOk .unexpectedMessage w.ctrl.written v :=
      run_invariant (fun _ _ hI hstep => hI.step hstep) hrun (.inl ⟨hp, rfl⟩)
    rcases hok with ⟨hphase, -⟩ | ⟨-, hwr⟩
    · exact absurd (hv.symm.trans hphase) (by simp)
    · exact hwr
  · rintro ⟨r, hv⟩
    rcases hinv v hrun with ⟨hphase, -⟩ | ⟨hclosed, -⟩
    · simp [hphase] at hv
    · simp [show v.session.phase = .closed from hclosed] at hv
  · have hmem := (hinv v hrun).written_initial.subset hr
    simp at hmem
    exact hno r hmem

/-- A session just closed, with no Result behind it, is aborted. -/
theorem aborted_of_closed {w : World} (hw : w.Closed) (hno : ∀ r, .result r ∉ w.ctrl.written) :
    Aborted w := by
  refine ⟨hw, fun v hrun => ?_⟩
  have hinv : v.Closed ∧ v.ctrl.written = w.ctrl.written :=
    run_invariant (I := fun v => v.Closed ∧ v.ctrl.written = w.ctrl.written)
      (fun _ _ hI hstep => by
        obtain ⟨hclosed, hwr⟩ := hstep.of_closed hI.1
        exact ⟨hclosed, hwr.trans hI.2⟩) hrun ⟨hw, rfl⟩
  refine ⟨?_, hinv.2 ▸ hno⟩
  rintro ⟨r, hv⟩
  simp [show v.session.phase = .closed from hinv.1] at hv

/-! ## The wait for Stop -/

theorem not_noResult_of_reporting {w : World} (h : CanReach ServerStep World.Reporting w) :
    ¬ NoResult w := by
  obtain ⟨v, hrun, hv⟩ := h
  exact fun hno => (hno v (Relation.ReflTransGen.mono (fun _ _ h => Or.inl h) _ _ hrun)).1 hv

/-- A control message out of sequence is answered by
    `Error(UnexpectedMessage)`, and a failing control read aborts the session,
    exactly where the session waits for Hello, Negotiate or Run.  Where it
    waits for Stop, anything read is taken for it. -/
theorem refused_iff {w w' : World} {p : Wait} {x : Input} (h : SessionReachable w)
    (hp : w.session.phase.wait = some p) (hx : ¬ p.Accepts x) (hread : Reads w x w') :
    Refused w' x ↔ p ≠ .stop := by
  have hsound := h.sound
  obtain ⟨c', q, htake, hq, hw'⟩ := id hread
  have hstep : ServerStep w w' := hw' ▸ .read htake hq
  constructor
  -- at the wait for Stop a Result can follow whatever was read
  · rintro href rfl
    have hno : NoResult w' := by
      cases x with
      | ok m => exact AnswersUnexpected.noResult href
      | error e => exact Aborted.noResult href
    exact not_noResult_of_reporting (reporting_of_stop (hsound.server hstep) hp hread) hno
  · intro hne
    -- at the others no Result is behind the session, and none can follow
    have hbefore : w.session.phase.BeforeData := by
      rcases Phase.wait_cases hp hne with ⟨-, hs⟩ | ⟨-, hs⟩ | ⟨-, n, hs⟩ <;> rw [hs] <;> trivial
    have hwritten : w'.ctrl.written = w.ctrl.written := hw' ▸ (Ctrl.take_frame htake).2.1
    have hno : ∀ r, .result r ∉ w'.ctrl.written := fun r =>
      hwritten ▸ hsound.history.phase.no_result hbefore r
    have hphase : w'.session.phase = q := by rw [hw', World.goto_phase]
    cases Session.onRead_cases hq with
    | hello hs | negotiate hs | run hs =>
        rw [hs] at hp
        cases hp
        exact absurd trivial hx
    | unexpected => exact answersUnexpected_of_rejecting hphase hno
    | failed => exact aborted_of_closed hphase hno
    | tcpStop hs hmain =>
        rw [hs] at hbefore
        exact hbefore.elim
    | udpStop hs | drained hs =>
        rw [hs] at hbefore
        exact hbefore.elim

/-- A session just accepted, with a Run in place of the Hello. -/
def runForHello : World := { World.init with ctrl := { Ctrl.init with inbox := [.ok .run] } }

theorem refused_iff_runForHello :
    Refused
        { runForHello.goto (.rejecting .unexpectedMessage) with
          ctrl := { Ctrl.init with read := [.ok .run] } } (.ok .run) ↔ Wait.hello ≠ .stop := by
  have hinit : SessionReachable World.init := Reachable.start rfl
  exact refused_iff (w := runForHello) (hinit.peer (.send (.ok .run) rfl)) rfl (fun h => h)
    ⟨_, _, rfl, rfl, rfl⟩

/-- A UDP request at 1 Mbit/s. -/
def oneMegabit : Negotiate where
  mode := .udp
  durationSecs := 10
  warmupSecs := 1
  parallel := 1
  bufferBytes := 65536
  bidir := false
  bitrateBps := some 1000000
  packetBytes := none
  fileLen := none
  nullSource := none

/-- A UDP session in its select loop, with a second Hello in place of Stop. -/
def helloForStop : World where
  session :=
    { bindData oneMegabit 5000 with
      phase := .running oneMegabit (.udp (.selecting (.start oneMegabit 0 0))) }
  ctrl :=
    { (World.entered currentHello oneMegabit 5000).ctrl with inbox := [.ok (.hello currentHello)] }
  net := .init

theorem helloForStop_reachable : SessionReachable helloForStop := by
  have hentered := entered_reachable currentHello rfl oneMegabit 5000
  have hstarted := hentered.server
    (.data rfl (.udp (.start (le_refl 0) (le_refl 0))))
  exact hstarted.peer (.send (.ok (.hello currentHello)) rfl)

/-- The second Hello is taken for Stop, and the session answers with a Result. -/
theorem helloForStop_reports :
    helloForStop.session.phase.wait = some .stop ∧
    CanReach ServerStep
      (fun v => v.Closed ∧ ∃ r, .result r ∈ v.ctrl.written) helloForStop ∧
    ¬ ∀ (w w' : World) (p : Wait) (x : Input), SessionReachable w →
      w.session.phase.wait = some p → ¬ p.Accepts x → Reads w x w' → Refused w' x := by
  have hread : Reads helloForStop (.ok (.hello currentHello)) _ := ⟨_, _, rfl, rfl, rfl⟩
  have hstep : ServerStep helloForStop _ := .read rfl rfl
  have hreport := reporting_of_stop (helloForStop_reachable.server hstep).sound rfl hread
  refine ⟨rfl, .head hstep (hreport.trans fun v _ hv => ?_), fun hall => ?_⟩
  · obtain ⟨r, hv⟩ := hv
    have hwrite : v.session.phase.onWrite = some (.result r, .closed) := by rw [hv]; rfl
    exact .head (.write hwrite) (.here ⟨rfl, r, by simp [Ctrl.put]⟩)
  · have href := hall helloForStop _ .stop (.ok (.hello currentHello)) helloForStop_reachable rfl
      (fun h => h) hread
    exact not_noResult_of_reporting hreport (AnswersUnexpected.noResult href)

end Andri

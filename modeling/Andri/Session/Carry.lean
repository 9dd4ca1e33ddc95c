/-
  Andri.Session.Carry

  From a mode's data path to the Result a client receives.  A property of the
  data paths that holds at their entry and that every step of them, the `stop`
  future and the peer keep, gives a property of what they return; the session
  carries that one unchanged through the drain of Stop and the report.  Each
  fact about Results is then a pair of properties and their step lemmas.  The
  pair may speak of a time the run in question begins at or after: the clock
  never goes back, so every data path of that run is entered past it.
-/
import Andri.Session.DataPlane

namespace Andri

open Lib

/-- The `stop` future of a data path resolves. -/
inductive DataPath.OnStop : DataPath → DataPath → Prop
  | tcp {s s' : Tcp.Serve} (h : s.onStop = some s') : OnStop (.tcp s) (.tcp s')
  | udp {s s' : Udp.Serve} (h : s.onStop = some s') : OnStop (.udp s) (.udp s')

/-- A property `P` of the data paths and their net, entered at `since` or later, that gives
    a property `Q` of the Results they return. -/
structure Carries (since : ℕ) (P : Negotiate → Net → DataPath → Prop)
    (Q : Negotiate → Net → TestResult → Prop) : Prop where
  entry : ∀ {n : Negotiate} {net : Net}, net.Untouched → since ≤ net.clock →
    P n net (.entry n.mode)
  step : ∀ {n : Negotiate} {net net' : Net} {path path' : DataPath}, path.Placed n net →
    P n net path → DataStep n net path net' path' → P n net' path'
  stop : ∀ {n : Negotiate} {net : Net} {path path' : DataPath}, P n net path →
    path.OnStop path' → P n net path'
  peer : ∀ {n : Negotiate} {path : DataPath} {w w' : World}, PeerStep w w' →
    path.Placed n w.net → P n w.net path → P n w'.net path
  returned : ∀ {n : Negotiate} {net : Net} {path : DataPath} {r : TestResult},
    path.mode = n.mode → path.Placed n net → P n net path → path.returned = some r → Q n net r
  kept : ∀ {n : Negotiate} {r : TestResult} {w w' : World}, PeerStep w w' → Q n w.net r →
    Q n w'.net r

/-- The Result a session has returned: drained, reported or written. -/
def World.HasResult (w : World) (r : TestResult) : Prop :=
  w.session.phase = .draining r ∨ w.session.phase = .reporting r ∨ .result r ∈ w.ctrl.written

/-- The request a session has read, second after the Hello. -/
def World.Requested (w : World) (n : Negotiate) : Prop :=
  w.ctrl.read[1]? = some (.ok (.negotiate n))

/-- Both properties in a session: of the data path it is in, of the Result it has. -/
structure Carried (P : Negotiate → Net → DataPath → Prop)
    (Q : Negotiate → Net → TestResult → Prop) (w : World) : Prop where
  running : ∀ n path, w.session.phase = .running n path → P n w.net path
  result : ∀ r, w.HasResult r → ∃ n, w.Requested n ∧ Q n w.net r

/-! ## No Result before its time -/

/-- What a session has written at each phase before its end. -/
theorem PhaseHistory.result_notMem {p : Phase} {read : List Input} {written : List Msg}
    (h : PhaseHistory p read written) (hp : p ≠ .closed) (r : TestResult) :
    .result r ∉ written := by
  intro hr
  cases p with
  | greeting | welcoming =>
      obtain ⟨-, rfl⟩ := h
      cases hr
  | rejecting err =>
      -- an error is the last message, and no Result comes before it
      change Exchanged read (written ++ [.error err]) at h
      generalize hall : written ++ [.error err] = all at h
      have hcut : written = all.dropLast := by rw [← hall, List.dropLast_concat]
      rw [hcut] at hr
      cases h with
      | silent | rejectedGreeting | welcomed | rejectedVersion | rejectedRequest | started
      | rejectedRun | reported => simp at hr
  | negotiating | binding | starting =>
      obtain ⟨g, -, -, rfl⟩ := h
      simp at hr
  | connecting n =>
      obtain ⟨g, s, -, -, rfl⟩ := h
      simp at hr
  | running n path =>
      obtain ⟨g, s, rest, -, -, -, -, rfl⟩ := h
      simp at hr
  | draining =>
      obtain ⟨g, n, s, -, -, -, rfl⟩ := h
      simp at hr
  | reporting =>
      obtain ⟨g, n, s, x, -, -, rfl⟩ := h
      simp at hr
  | closed => exact hp rfl
  | panicked => exact h.elim

/-- On the data path there is no Result yet. -/
theorem Sound.not_hasResult {w : World} (h : Sound w) {n : Negotiate} {path : DataPath}
    (hp : w.session.phase = .running n path) (r : TestResult) : ¬ w.HasResult r := by
  have hne : w.session.phase ≠ .closed := by rw [hp]; exact Phase.noConfusion
  rintro (hr | hr | hr)
  · rw [hp] at hr
    cases hr
  · rw [hp] at hr
    cases hr
  · exact absurd hr (h.history.phase.result_notMem hne r)

/-! ## The rule -/

section Rule

variable {P : Negotiate → Net → DataPath → Prop} {Q : Negotiate → Net → TestResult → Prop}
variable {since : ℕ} {u w w' : World}

theorem World.Requested.of_read {n : Negotiate} {x : Input} {c' : Ctrl} (h : w.Requested n)
    (hread : c'.read = w.ctrl.read ++ [x]) : c'.read[1]? = some (.ok (.negotiate n)) := by
  rw [hread, List.getElem?_append_left (List.getElem?_eq_some_iff.mp h).1]
  exact h

theorem Carried.read (hc : Carries since P Q) (h : Carried P Q w) (hsound : Sound w)
    (hsince : since ≤ w.net.clock) {x : Input} {c' : Ctrl} {q : Phase}
    (htake : w.ctrl.take = some (x, c')) (hq : w.session.onRead x = some q) :
    Carried P Q { w.goto q with ctrl := c' } := by
  obtain ⟨hread, hwritten, -⟩ := Ctrl.take_frame htake
  have hcases := Session.onRead_cases hq
  refine ⟨fun n path hrun => ?_, fun r hr => ?_⟩
  · change q = .running n path at hrun
    cases hcases with
    | @run m hs =>
        rw [dispatch_eq (hsound.history.bound m (by rw [hs]; rfl))] at hrun
        cases hrun
        exact hc.entry (hsound.data.before (by rw [hs]; trivial)) hsince
    | tcpStop hs hmain =>
        cases hrun
        exact hc.stop (h.running _ _ hs) (.tcp (by simp [Tcp.Serve.onStop, hmain]))
    | udpStop hs =>
        cases hrun
        exact hc.stop (h.running _ _ hs) (.udp rfl)
    | hello | negotiate | unexpected | failed | drained => cases hrun
  · -- only the drain ends with a Result, and it is the one drained
    have hold : w.HasResult r := by
      rcases hr with hr | hr | hr
      · change q = .draining r at hr
        cases hcases with
        | @run m hs => rcases dispatch_cases w.session m with hd | hd <;> rw [hd] at hr <;> cases hr
        | hello | negotiate | unexpected | failed | tcpStop | udpStop | drained => cases hr
      · change q = .reporting r at hr
        cases hcases with
        | @run m hs => rcases dispatch_cases w.session m with hd | hd <;> rw [hd] at hr <;> cases hr
        | drained hs =>
            cases hr
            exact .inl hs
        | hello | negotiate | unexpected | failed | tcpStop | udpStop => cases hr
      · exact .inr (.inr (by rwa [← hwritten]))
    obtain ⟨n, hn, hQ⟩ := h.result r hold
    exact ⟨n, hn.of_read hread, hQ⟩

theorem Carried.write (h : Carried P Q w) {m : Msg} {q : Phase}
    (hq : w.session.phase.onWrite = some (m, q)) :
    Carried P Q { w.goto q with ctrl := w.ctrl.put m } := by
  have hcases := Phase.onWrite_cases hq
  refine ⟨fun n path hrun => ?_, fun r hr => ?_⟩
  · change q = .running n path at hrun
    cases hcases <;> cases hrun
  · have hold : w.HasResult r := by
      rcases hr with hr | hr | hr
      · change q = .draining r at hr
        cases hcases <;> cases hr
      · change q = .reporting r at hr
        cases hcases <;> cases hr
      · rcases List.mem_append.mp hr with hr | hr
        · exact .inr (.inr hr)
        -- the Result written is the one reported
        · have hm := List.mem_singleton.mp hr
          cases hcases with
          | result hs =>
              cases hm
              exact .inr (.inl hs)
          | welcome | turnedAway | error | start => cases hm
    exact h.result r hold

theorem Carried.finish (hc : Carries since P Q) (h : Carried P Q w) (hsound : Sound w)
    {n : Negotiate} {path : DataPath} {r : TestResult} (hp : w.session.phase = .running n path)
    (hr : path.returned = some r) : Carried P Q (w.goto (afterData path r)) := by
  have hphase := hsound.history.phase
  rw [hp] at hphase
  obtain ⟨g, s, rest, -, hread, -, hmode, hwritten⟩ := hphase
  refine ⟨fun m path' hrun => absurd hrun (afterData_ne_running path r m path'), fun r' hr' => ?_⟩
  have hsame : r' = r := by
    rcases hr' with hr' | hr' | hr'
    · change afterData path r = .draining r' at hr'
      rcases afterData_cases path r with ha | ha <;> rw [ha] at hr' <;> cases hr'
      rfl
    · change afterData path r = .reporting r' at hr'
      rcases afterData_cases path r with ha | ha <;> rw [ha] at hr' <;> cases hr'
      rfl
    · change _ ∈ w.ctrl.written at hr'
      rw [hwritten] at hr'
      simp at hr'
  subst hsame
  refine ⟨n, ?_, hc.returned hmode (hsound.data.during n path hp) (h.running n path hp) hr⟩
  show w.ctrl.read[1]? = _
  rw [hread]
  rfl

theorem Carried.server (hc : Carries since P Q) (h : Carried P Q w) (hsound : Sound w)
    (hsince : since ≤ w.net.clock) (hstep : ServerStep w w') : Carried P Q w' := by
  have hsound' := hsound.server hstep
  cases hstep with
  | read htake hq => exact h.read hc hsound hsince htake hq
  | write hq => exact h.write hq
  | @bind n hp port =>
      have hphase := bindData_phase n port
      refine ⟨fun m path hrun => ?_, fun r hr => ?_⟩
      · change (bindData n port).phase = _ at hrun
        rw [hphase] at hrun
        cases hrun
      · rcases hr with hr | hr | hr
        · change (bindData n port).phase = _ at hr
          rw [hphase] at hr
          cases hr
        · change (bindData n port).phase = _ at hr
          rw [hphase] at hr
          cases hr
        · exact h.result r (.inr (.inr hr))
  | data hp hdata =>
      refine ⟨fun m path hrun => ?_, fun r hr => absurd hr (hsound'.not_hasResult rfl r)⟩
      cases hrun
      exact hc.step (hsound.data.during _ _ hp) (h.running _ _ hp) hdata
  | finish hp hr => exact h.finish hc hsound hp hr

theorem Carried.peer (hc : Carries since P Q) (h : Carried P Q w) (hsound : Sound w)
    (hstep : PeerStep w w') : Carried P Q w' := by
  obtain ⟨hsession, hread, hwritten⟩ := hstep.frame
  refine ⟨fun n path hrun => ?_, fun r hr => ?_⟩
  · rw [hsession] at hrun
    exact hc.peer hstep (hsound.data.during n path hrun) (h.running n path hrun)
  · unfold World.HasResult at hr
    rw [hsession, hwritten] at hr
    obtain ⟨n, hn, hQ⟩ := h.result r hr
    refine ⟨n, ?_, hc.kept hstep hQ⟩
    unfold World.Requested
    rw [hread]
    exact hn

theorem Carried.step (hc : Carries since P Q) (h : Carried P Q w) (hsound : Sound w)
    (hsince : since ≤ w.net.clock) (hstep : Step w w') : Carried P Q w' := by
  rcases hstep with hserver | hfail | hpeer
  · exact h.server hc hsound hsince hserver
  · cases hfail with
    | fail =>
        refine ⟨fun n path hrun => (by cases hrun), fun r hr => ?_⟩
        rcases hr with hr | hr | hr
        · cases hr
        · cases hr
        · exact h.result r (.inr (.inr hr))
  · exact h.peer hc hsound hpeer

/-- What a session has at `since` or later, it has in every run from there. -/
theorem Carried.run (hc : Carries since P Q) (h : Carried P Q u) (hu : SessionReachable u)
    (hsince : since ≤ u.net.clock) (hrun : Run Step u w) : Carried P Q w := by
  have hinv : Sound w ∧ since ≤ w.net.clock ∧ Carried P Q w := by
    apply run_invariant (I := fun w => Sound w ∧ since ≤ w.net.clock ∧ Carried P Q w) _ hrun
    · exact ⟨hu.sound, hsince, h⟩
    · rintro w w' ⟨hsound, hw, hcarried⟩ hstep
      exact ⟨hsound.step hstep, hw.trans hstep.clock_le, hcarried.step hc hsound hw hstep⟩
  exact hinv.2.2

theorem carried_init (P : Negotiate → Net → DataPath → Prop)
    (Q : Negotiate → Net → TestResult → Prop) : Carried P Q World.init where
  running n path hrun := by cases hrun
  result r hr := by rcases hr with hr | hr | hr <;> cases hr

/-- What the data paths of every session have gives what every Result has. -/
theorem Carries.carried (hc : Carries 0 P Q) (h : SessionReachable w) : Carried P Q w := by
  obtain ⟨w₀, rfl, hrun⟩ := h
  exact (carried_init P Q).run hc (Reachable.start rfl) (Nat.zero_le _) hrun

theorem Carries.result (hc : Carries 0 P Q) (h : SessionReachable w) {r : TestResult}
    (hr : .result r ∈ w.ctrl.written) : ∃ n, w.Requested n ∧ Q n w.net r :=
  (hc.carried h).result r (.inr (.inr hr))

end Rule

end Andri

/-
  Andri.Session.OnTime

  The samples a TCP session takes at least.  When its ticks come less than a second
  late, `run_sampler` takes one sample for every second of its window but the
  last, so a long test reports a Result that does not fit a frame.
-/
import Andri.Session.Samples

namespace Andri

open Lib

/-- The ticker was started within a second of `t0`, and the tick due is less than a
    second late. -/
def Sampler.OnTime (t0 clock : ℕ) : Sampler → Prop
  | .baseline next _ _ => next < t0 + 2 * SECOND
  | .waiting l => clock < l.next + SECOND
  | .reading l _ _ _ => clock < l.next
  | .spawned | .returned _ => True

/-- A session whose sampler, if it runs one, is on time. -/
def World.OnTime (w : World) : Prop :=
  ∀ neg t, w.session.phase = .running neg (.tcp (.measuring t)) →
    t.sampler.OnTime t.t0 w.net.clock

/-- When the next tick is due at the latest, from the samples taken; how many a
    window of `secs` seconds has brought. -/
def Sampler.Ticked (t0 secs : ℕ) : Sampler → Prop
  | .spawned => True
  | .baseline next _ _ => next < t0 + 2 * SECOND
  | .waiting l => l.next < t0 + (l.samples.length + 2) * SECOND
  | .reading l now _ _ => now < l.next ∧ l.next < t0 + (l.samples.length + 3) * SECOND
  | .returned samples => secs ≤ samples.length + 1

theorem Sampler.Step.ticked {t0 secs clock clock' : ℕ} {counters : List ℕ} {s s' : Sampler}
    (h : Step t0 (secs * SECOND) counters clock s clock' s') (hs : s.Ticked t0 secs)
    (hon : s'.OnTime t0 clock') : s'.Ticked t0 secs := by
  cases h with
  | poll => exact hon
  | baselineLoad => exact hs
  | baselineDone => exact hs
  | @tick _ l hnow hdue =>
      have hnext : l.next < t0 + (l.samples.length + 2) * SECOND := hs
      refine ⟨hon, ?_⟩
      show l.next + SECOND < t0 + (l.samples.length + 2 + 1) * SECOND
      rw [Nat.succ_mul]
      omega
  | load => exact hs
  | @record now k sum l hk =>
      obtain ⟨hnow, hnext⟩ := hs
      have hlen := length_record l t0 now sum
      -- the window ends before the tick after this one is due
      split
      · next hpast =>
          have hpos : 0 < (l.samples.length + 3) * SECOND := Nat.mul_pos (by omega) (by decide)
          have hlt : secs * SECOND < (l.samples.length + 3) * SECOND := by omega
          have hsecs := Nat.lt_of_mul_lt_mul_right hlt
          show secs ≤ (l.record t0 now sum).samples.length + 1
          omega
      · show l.next < t0 + ((l.record t0 now sum).samples.length + 2) * SECOND
        rw [hlen]
        exact hnext

/-- The samples the main task has joined. -/
def Tcp.Main.Ticked (secs : ℕ) : Tcp.Main → Prop
  | .joiningWarmup _ _ samples => secs ≤ samples.length + 1
  | _ => True

/-- The samples of `tcp::serve`. -/
def Tcp.Serve.Ticked (neg : Negotiate) : Tcp.Serve → Prop
  | .accepting _ => True
  | .measuring t => t.sampler.Ticked t.t0 (windowSecs neg).toNat ∧
      t.main.Ticked (windowSecs neg).toNat
  | .returned r => (windowSecs neg).toNat ≤ r.samples.length + 1

theorem Tcp.Step.ticked {neg : Negotiate} {net net' : Net} {s s' : Tcp.Serve}
    (h : Tcp.Step neg net s net' s') (hs : s.Ticked neg)
    (hon : ∀ t, s' = .measuring t → t.sampler.OnTime t.t0 net'.clock) : s'.Ticked neg := by
  cases h with
  | accept => trivial
  | spawn => exact ⟨trivial, trivial⟩
  | recv | warmup => exact hs
  | sampler h => exact ⟨h.ticked hs.1 (hon _ rfl), hs.2⟩
  | finalLoad | finalDone => exact ⟨hs.1, trivial⟩
  | joinSampler hmain hret =>
      obtain ⟨hsampler, -⟩ := hs
      refine ⟨hsampler, ?_⟩
      rw [hret] at hsampler
      exact hsampler
  | joinWarmup hmain hw =>
      obtain ⟨-, hjoined⟩ := hs
      rw [hmain] at hjoined
      exact hjoined

/-- The samples of a session that measures TCP, at least. -/
structure Ticked (w : World) : Prop where
  running : ∀ neg s, w.session.phase = .running neg (.tcp s) → s.Ticked neg
  reporting : ∀ neg r, w.ctrl.read[1]? = some (.ok (.negotiate neg)) → neg.mode = .tcp →
    w.session.phase = .reporting r → (Tcp.windowSecs neg).toNat ≤ r.samples.length + 1

theorem ticked_init : Ticked World.init where
  running neg s h := by cases h
  reporting neg r _ _ h := by cases h

theorem Phase.onWrite_quiet {p q : Phase} {m : Msg} (h : p.onWrite = some (m, q)) :
    (∀ neg path, q ≠ .running neg path) ∧ ∀ r, q ≠ .reporting r := by
  cases Phase.onWrite_cases h <;> exact ⟨by simp, by simp⟩

theorem Ticked.read {w : World} (h : Ticked w) (hist : History w) {x : Input} {c' : Ctrl}
    {q : Phase} (hread : c'.read = w.ctrl.read ++ [x]) (hq : OnRead w.session x q) :
    Ticked { w.goto q with ctrl := c' } := by
  refine ⟨fun neg s hrun => ?_, fun neg r hneg hmode hrep => ?_⟩
  · change q = .running neg (.tcp s) at hrun
    cases hq with
    | @run n hs =>
        -- the dispatch enters TCP at its accept loop
        rcases dispatch_cases w.session n with hd | hd <;> rw [hd] at hrun
        · obtain ⟨rfl, hentry⟩ := Phase.running.inj hrun
          cases hm : n.mode <;> rw [hm] at hentry <;> cases hentry
          trivial
        · cases hrun
    | tcpStop hs hmain =>
        cases hrun
        exact ⟨(h.running _ _ hs).1, trivial⟩
    | hello | negotiate | unexpected | failed | udpStop | drained => cases hrun
  · change q = .reporting r at hrep
    change c'.read[1]? = _ at hneg
    cases hq with
    | run hs =>
        rcases dispatch_cases w.session _ with hd | hd <;> rw [hd] at hrep <;> cases hrep
    | drained hs =>
        -- only a file's session drains
        have hphase := hist.phase
        rw [hs] at hphase
        obtain ⟨g, n, st, -, hfile, hr, -⟩ := hphase
        rw [hread, hr] at hneg
        cases hneg
        rw [hfile] at hmode
        cases hmode
    | hello | negotiate | unexpected | failed | tcpStop | udpStop => cases hrep

/-- On time, every server step keeps the count. -/
theorem Ticked.server {w w' : World} (h : Ticked w) (hist : History w) (hstep : ServerStep w w')
    (hon : w'.OnTime) : Ticked w' := by
  cases hstep with
  | read htake hq => exact h.read hist (Ctrl.take_frame htake).1 (Session.onRead_cases hq)
  | write hq =>
      obtain ⟨hrun, hrep⟩ := Phase.onWrite_quiet hq
      exact ⟨fun neg s hs => absurd hs (hrun _ _), fun neg r _ _ hs => absurd hs (hrep r)⟩
  | @bind n hp port =>
      have hphase := bindData_phase n port
      refine ⟨fun neg s hs => ?_, fun neg r _ _ hs => ?_⟩
      · change (bindData n port).phase = _ at hs
        rw [hphase] at hs
        cases hs
      · change (bindData n port).phase = _ at hs
        rw [hphase] at hs
        cases hs
  | @data n path path' net' hp hdata =>
      refine ⟨fun neg s hs => ?_, fun neg r _ _ hs => by cases hs⟩
      cases hs
      cases hdata with
      | tcp hdata =>
          refine hdata.ticked (h.running _ _ hp) fun t ht => ?_
          subst ht
          exact hon _ t rfl
  -- only TCP has a count to report, and it is what `serve` returned
  | @finish n path r hp hr =>
      have hphase := hist.phase
      rw [hp] at hphase
      obtain ⟨g, st, rest, -, hread, -, hpath, -⟩ := hphase
      refine ⟨fun neg s hs => absurd hs (afterData_ne_running path r neg _),
        fun neg r' hneg hmode hs => ?_⟩
      change w.ctrl.read[1]? = _ at hneg
      rw [hread] at hneg
      cases hneg
      change afterData path r = _ at hs
      cases path with
      | tcp s =>
          cases s with
          | returned r₀ =>
              cases hr
              cases hs
              exact h.running _ _ hp
          | accepting | measuring => cases hr
      | udp | file =>
          rw [← hpath] at hmode
          cases hmode

/-- The runs of a session whose sampler is on time. -/
def OnTimeReachable : World → Prop :=
  Reachable (· = World.init) fun w w' => Step w w' ∧ w'.OnTime

theorem OnTimeReachable.ticked {w : World} (h : OnTimeReachable w) : History w ∧ Ticked w := by
  refine Reachable.invariant (I := fun w => History w ∧ Ticked w) h
    (fun _ hinit => hinit ▸ ⟨history_init, ticked_init⟩) fun w w' hI hstep => ?_
  obtain ⟨hist, hticked⟩ := hI
  obtain ⟨hstep, hon⟩ := hstep
  refine ⟨hist.step hstep, ?_⟩
  rcases hstep with hserver | hfail | hpeer
  · exact hticked.server hist hserver hon
  · cases hfail with
    | fail => exact ⟨fun neg s hs => (by cases hs), fun neg r _ _ hs => (by cases hs)⟩
  · obtain ⟨hsession, hread, -⟩ := hpeer.frame
    refine ⟨fun neg s hs => ?_, fun neg r hneg hmode hs => ?_⟩
    · rw [hsession] at hs
      exact hticked.running neg s hs
    · rw [hsession] at hs
      rw [hread] at hneg
      exact hticked.reporting neg r hneg hmode hs

end Andri

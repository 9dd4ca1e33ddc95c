/-
  Andri.Session.Listen

  `serve` of `src/session.rs`: bind the control listener, then accept a client,
  run its session to the end, and accept the next.  A session that ends with an
  error is reported and forgotten; only the bind, an accept, or memory the
  allocator does not have ends the server.

  A data path is entered with one allocation of a size the request sets.  Which of
  them the allocator grants is the parameter `alloc`.

  Clients connect, send and leave while they wait for their turn.  Each goes
  through a session of its own, whatever the others do; but a client that has
  left its session unserved keeps the server, and every later client waits.
-/
import Andri.Lib.Turns
import Andri.Session.Depart
import Andri.Session.Derived

namespace Andri

open Lib

/-- The allocations of a size a request sets: `Vec::with_capacity(neg.parallel)` of
    `tcp::serve` and the receive buffer of `udp::serve`. -/
inductive Allocation
  | streams (capacity : ℕ)
  | buffer (bytes : ℕ)

/-- The one a data path is entered with. -/
def Negotiate.allocation (neg : Negotiate) : Option Allocation :=
  match neg.mode with
  | .tcp => some (.streams neg.parallel.toNat)
  | .udp => some (.buffer (Udp.recvBufLen neg).toNat)
  | .file => none

/-- The allocator has what the request asks for. -/
def Negotiate.Granted (alloc : Allocation → Prop) (neg : Negotiate) : Prop :=
  ∀ a ∈ neg.allocation, alloc a

/-- The data path is entered, if it is entered next, with the memory it asks for. -/
def World.Allocates (alloc : Allocation → Prop) (w : World) : Prop :=
  ∀ neg, w.session.phase = .running neg (.entry neg.mode) → neg.Granted alloc

/-- A step of the session the server is in; without that memory there is none. -/
def Work (alloc : Allocation → Prop) (w w' : World) : Prop :=
  w.Allocates alloc ∧ (ServerStep w w' ∨ FailStep w w')

/-- A step of it in which no I/O call fails. -/
def OkWork (alloc : Allocation → Prop) (w w' : World) : Prop := w.Allocates alloc ∧ ServerStep w w'

/-- Where `serve` is: before its bind, in its loop, returned with an error, or
    aborted. -/
inductive Serving
  | binding
  | listening (t : Turns World)
  | failed
  | aborted

/-- Steps of the server and of its clients. -/
inductive ServeStep (alloc : Allocation → Prop) : Serving → Serving → Prop
  | bind : ServeStep alloc .binding (.listening .init)
  | bindFails : ServeStep alloc .binding .failed
  -- `accept` is the take of a turn; the end of a session, in error or not, its return
  | turn {t t' : Turns World}
      (h : Turns.Step World.init (Work alloc) PeerStep World.Closed t t') :
      ServeStep alloc (.listening t) (.listening t')
  | acceptFails {t : Turns World} (hfree : t.current = none) :
      ServeStep alloc (.listening t) .failed
  | abort {t : Turns World} {k : ℕ} {w : World} (hc : t.current = some (k, w))
      (h : ¬ w.Allocates alloc) : ServeStep alloc (.listening t) .aborted

/-- The states the server can be in, with any clients. -/
def ServeReachable (alloc : Allocation → Prop) : Serving → Prop :=
  Reachable (· = Serving.binding) (ServeStep alloc)

variable {alloc : Allocation → Prop}

/-! ## One session for each client -/

/-- The clients of a server keep their order, and each its own session. -/
theorem ServeReachable.turns {t : Turns World} (h : ServeReachable alloc (.listening t)) :
    t.Ordered ∧ t.Each World.init (Work alloc) PeerStep World.Closed := by
  have hinv : ∀ u, Serving.listening t = .listening u →
      u.Ordered ∧ u.Each World.init (Work alloc) PeerStep World.Closed := by
    apply Reachable.invariant h (I := fun s => ∀ u, s = .listening u →
      u.Ordered ∧ u.Each World.init (Work alloc) PeerStep World.Closed)
    · rintro s rfl u hu
      cases hu
    · intro s s' hI hstep u hu
      cases hstep with
      | bind =>
          cases hu
          exact ⟨rfl, fun j hj => (by cases hj), fun j hj => (by cases hj),
            fun j hj => (by cases hj)⟩
      | turn hturn =>
          cases hu
          obtain ⟨hordered, heach⟩ := hI _ rfl
          rcases hturn with hown | hclients
          · exact ⟨hordered.own hown, heach.own hown⟩
          · exact ⟨hordered.clients hclients, heach.clients hclients⟩
      | bindFails | acceptFails | abort => cases hu
  exact hinv t rfl

/-- Whatever the server and a client do in its turn is a run of a session. -/
theorem sessionReachable_of_run {w : World}
    (h : Run (fun w w' => Work alloc w w' ∨ PeerStep w w') World.init w) : SessionReachable w := by
  refine ⟨World.init, rfl, Relation.ReflTransGen.mono ?_ _ _ h⟩
  rintro u v (⟨-, hserver | hfail⟩ | hpeer)
  · exact .inl hserver
  · exact .inr (.inl hfail)
  · exact .inr (.inr hpeer)

theorem sessionReachable_of_waiting {w : World} (h : Run PeerStep World.init w) :
    SessionReachable w :=
  ⟨World.init, rfl, Relation.ReflTransGen.mono (fun _ _ hp => .inr (.inr hp)) _ _ h⟩

/-- A client that waits is not heard and not answered. -/
theorem untouched_of_waiting {w : World} (h : Run PeerStep World.init w) :
    w.session = World.init.session ∧ w.ctrl.read = [] ∧ w.ctrl.written = [] := by
  apply run_invariant
    (I := fun w => w.session = World.init.session ∧ w.ctrl.read = [] ∧ w.ctrl.written = [])
    ?_ h ⟨rfl, rfl, rfl⟩
  rintro u v ⟨hsession, hread, hwritten⟩ hstep
  obtain ⟨hs, hr, hw⟩ := hstep.frame
  exact ⟨hs.trans hsession, hr.trans hread, hw.trans hwritten⟩

/-- However its clients interleave, the server takes them in the order they arrived, one at
    a time; each goes through a session of its own, which is over when the next begins; and
    until its turn nothing is read from a client or written to it. -/
theorem serve_isolates {t : Turns World} (h : ServeReachable alloc (.listening t)) :
    (t.finished ++ t.pending).map Prod.fst = List.range t.arrivals ∧
    (∀ j ∈ t.finished, SessionReachable j.2 ∧ j.2.Closed) ∧
    (∀ j ∈ t.current, SessionReachable j.2) ∧
    (∀ j ∈ t.waiting, SessionReachable j.2 ∧ j.2.session = World.init.session ∧
      j.2.ctrl.read = [] ∧ j.2.ctrl.written = []) := by
  obtain ⟨hordered, heach⟩ := h.turns
  refine ⟨hordered, fun j hj => ?_, fun j hj => ?_, fun j hj => ?_⟩
  · obtain ⟨hrun, hclosed⟩ := heach.finished j hj
    exact ⟨sessionReachable_of_run hrun, hclosed⟩
  · exact sessionReachable_of_run (heach.current j hj)
  · exact ⟨sessionReachable_of_waiting (heach.waiting j hj),
      untouched_of_waiting (heach.waiting j hj)⟩

/-! ## Clients that leave -/

/-- Every client the server has not finished with is gone. -/
def departAll (t : Turns World) : Turns World :=
  { t with
    current := t.current.map fun j => (j.1, j.2.depart)
    waiting := t.waiting.map fun j => (j.1, j.2.depart) }

/-- Steps of the server alone in which no I/O call fails. -/
inductive OwnStep (alloc : Allocation → Prop) : Serving → Serving → Prop
  | turn {t t' : Turns World} (h : Turns.Own (OkWork alloc) World.Closed t t') :
      OwnStep alloc (.listening t) (.listening t')
  | abort {t : Turns World} {k : ℕ} {w : World} (hc : t.current = some (k, w))
      (h : ¬ w.Allocates alloc) : OwnStep alloc (.listening t) .aborted

/-- Such steps, and those of the clients from the `n`-th on. -/
inductive LaterStep (alloc : Allocation → Prop) (n : ℕ) : Serving → Serving → Prop
  | own {s s' : Serving} (h : OwnStep alloc s s') : LaterStep alloc n s s'
  | clients {t t' : Turns World} (h : Turns.Clients World.init PeerStep t t')
      (hspares : t.Spares n t') : LaterStep alloc n (.listening t) (.listening t')

/-- The server is through its queue and waits for the next client. -/
def Drained (s : Serving) : Prop := ∃ t, s = .listening t ∧ t.Idle

/-- Left to itself the server gets through its queue, wherever it is in it. -/
def AlwaysDrains (alloc : Allocation → Prop) (s : Serving) : Prop :=
  ∀ v, Run (OwnStep alloc) s v → CanReach (OwnStep alloc) Drained v

/-- The allocator has what the data path the session runs, or will run on what its inbox
    holds, is entered with. -/
def Allocatable (alloc : Allocation → Prop) (w : World) : Prop :=
  ∀ n, WillRun n w.session.phase w.ctrl.inbox → n.Granted alloc

/-! ### Served clients -/

/-- A departed client whose session can be finished. -/
structure Servable (alloc : Allocation → Prop) (w : World) : Prop where
  finishable : Finishable w
  allocatable : Allocatable alloc w

theorem Servable.allocates {w : World} (h : Servable alloc w) : w.Allocates alloc :=
  fun n hp => h.allocatable n (by rw [hp]; exact .running)

theorem Servable.work {w w' : World} (h : Servable alloc w) (hstep : OkWork alloc w w') :
    Servable alloc w' :=
  ⟨h.finishable.server hstep.2, fun n hr =>
    h.allocatable n (hr.of_server h.finishable.sound.history hstep.2)⟩

theorem Servable.ends {w : World} (h : Servable alloc w) :
    CanReach (OkWork alloc) World.Closed w := by
  obtain ⟨v, hrun, hclosed⟩ := h.finishable.ends
  -- along the run the session stays servable, so no allocation stands in its way
  have hmap : Run (OkWork alloc) w v :=
    Run.map (I := Servable alloc) (f := id)
      (fun u u' hu hstep => hu.work ⟨hu.allocates, hstep⟩)
      (fun u u' hu hstep => .single ⟨hu.allocates, hstep⟩) hrun h
  exact ⟨v, hmap, hclosed⟩

/-- A server whose clients can all be finished. -/
def AllServable (alloc : Allocation → Prop) (s : Serving) : Prop :=
  ∃ t, s = .listening t ∧ ∀ j ∈ t.pending, Servable alloc j.2

theorem AllServable.own {s s' : Serving} (h : AllServable alloc s) (hstep : OwnStep alloc s s') :
    AllServable alloc s' := by
  obtain ⟨t, rfl, hall⟩ := h
  cases hstep with
  | turn hown => exact ⟨_, rfl, Turns.pending_own (fun _ _ hw hs => hw.work hs) hown hall⟩
  | @abort _ k w hc hno =>
      exact absurd (hall (k, w) (by simp [Turns.pending, hc])).allocates hno

theorem AllServable.drains {s : Serving} (h : AllServable alloc s) :
    CanReach (OwnStep alloc) Drained s := by
  obtain ⟨t, rfl, hall⟩ := h
  obtain ⟨u, hrun, hidle⟩ :=
    Turns.canReach_idle (fun _ _ hw hs => Servable.work hw hs) (fun _ hw => hw.ends) hall
  have hmap : Run (OwnStep alloc) (.listening t) (.listening u) :=
    Run.map (I := fun _ => True) (fun _ _ _ _ => trivial)
      (fun _ _ _ hstep => .single (.turn hstep)) hrun trivial
  exact ⟨_, hmap, u, rfl, hidle⟩

/-! ### A client that keeps the server -/

/-- As long as the server listens, its steps are those of its turns. -/
theorem later_run {n : ℕ} {t u : Turns World}
    (h : Run (LaterStep alloc n) (.listening t) (.listening u)) :
    Run (Turns.Later World.init (OkWork alloc) PeerStep World.Closed n) t u := by
  have hinv : ∀ u', Serving.listening u = .listening u' →
      Run (Turns.Later World.init (OkWork alloc) PeerStep World.Closed n) t u' := by
    apply run_invariant (I := fun s => ∀ u', s = Serving.listening u' →
      Run (Turns.Later World.init (OkWork alloc) PeerStep World.Closed n) t u') _ h
    · rintro u' ⟨⟩
      exact .refl
    · rintro s s' hI hstep u' rfl
      cases hstep with
      | own hown =>
          cases hown with
          | turn hturn => exact (hI _ rfl).tail (.inl hturn)
      | clients hclients hspares => exact (hI _ rfl).tail (.inr ⟨hclients, hspares⟩)
  exact hinv u rfl

/-- A departed client that keeps the server: a property that the work on its session keeps,
    and that excludes the end. -/
structure Keeps (alloc : Allocation → Prop) (P : World → Prop) : Prop where
  work : ∀ w w', P w → OkWork alloc w w' → P w'
  not_closed : ∀ w, P w → ¬ w.Closed

section Keeps

variable {P : World → Prop} {t : Turns World} {k : ℕ}

/-- The server never gets through its queue. -/
theorem Keeps.not_drains (hP : Keeps alloc P) (h : ∃ w, (k, w) ∈ t.pending ∧ P w) :
    ¬ CanReach (OwnStep alloc) Drained (.listening t) := by
  rintro ⟨s, hrun, u, rfl, hidle⟩
  have hlater := later_run (n := k + 1) (Relation.ReflTransGen.mono (fun _ _ => .own) _ _ hrun)
  obtain ⟨w, hmem, -⟩ :=
    Turns.mem_pending_run (Nat.lt_succ_self k) hP.work hP.not_closed hlater h
  rw [hidle.pending_eq_nil] at hmem
  cases hmem

/-- Nor does a later client get its turn, even one that arrives afterwards. -/
theorem Keeps.le_of_served (hP : Keeps alloc P) {n : ℕ} (hk : k < n) (ht : t.Ordered)
    (h : ∃ w, (k, w) ∈ t.pending ∧ P w) {u : Turns World}
    (hrun : Run (LaterStep alloc n) (.listening t) (.listening u)) :
    ∀ i ∈ u.finished ++ u.current.toList, i.1 ≤ k := by
  intro i hi
  obtain ⟨w, hmem, -⟩ := Turns.mem_pending_run hk hP.work hP.not_closed (later_run hrun) h
  exact (ht.run (later_run hrun)).le_of_pending hmem hi

end Keeps

/-- A session bound for a data path whose memory cannot be had. -/
structure Doomed (alloc : Allocation → Prop) (n : Negotiate) (w : World) : Prop where
  history : History w
  willRun : WillRun n w.session.phase w.ctrl.inbox
  entry : ∀ m path, w.session.phase = .running m path → path = .entry m.mode
  refused : ¬ n.Granted alloc

section Doomed

variable {w w' : World} {n : Negotiate}

theorem WillRun.eq_of_running {m : Negotiate} {path : DataPath} {phase : Phase}
    {inbox : List Input} (hr : WillRun n phase inbox) (hphase : phase = .running m path) :
    m = n := by
  subst hphase
  cases hr
  rfl

/-- Before the data path, a session bound for one stays bound for it, and enters it at its
    entry. -/
theorem WillRun.server (hist : History w) (hr : WillRun n w.session.phase w.ctrl.inbox)
    (hp : w.session.phase.BeforeData) (hstep : ServerStep w w') :
    WillRun n w'.session.phase w'.ctrl.inbox ∧
      ∀ m path, w'.session.phase = .running m path → path = .entry n.mode := by
  generalize hphase : w.session.phase = p at hr
  generalize hin : w.ctrl.inbox = inbox at hr
  cases hr with
  | @greeting hello rest hv =>
      have hread : w.session.onRead (.ok (.hello hello)) = some (.welcoming hello) := by
        simp [Session.onRead, hphase]
      rw [hstep.eq_read hp (Ctrl.take_cons hin) hread]
      exact ⟨.welcoming hv, fun m path h => (by cases h)⟩
  | negotiating =>
      have hread : w.session.onRead (.ok (.negotiate n)) = some (.binding n) := by
        simp [Session.onRead, hphase]
      rw [hstep.eq_read hp (Ctrl.take_cons hin) hread]
      exact ⟨.binding, fun m path h => (by cases h)⟩
  | connecting =>
      have hread : w.session.onRead (.ok .run) = some (.running n (.entry n.mode)) := by
        rw [← dispatch_eq (hist.bound n (by rw [hphase]; rfl))]
        simp [Session.onRead, hphase]
      rw [hstep.eq_read hp (Ctrl.take_cons hin) hread]
      refine ⟨.running, fun m path h => ?_⟩
      cases h
      rfl
  | welcoming hv =>
      have hwrite := congrArg Phase.onWrite hphase
      rw [Phase.onWrite, if_pos hv] at hwrite
      rw [hstep.eq_write hp hwrite]
      exact ⟨hin ▸ .negotiating, fun m path h => (by cases h)⟩
  | starting =>
      have hwrite := congrArg Phase.onWrite hphase
      rw [hstep.eq_write hp hwrite]
      exact ⟨hin ▸ .connecting, fun m path h => (by cases h)⟩
  | binding =>
      obtain ⟨port, rfl⟩ := hstep.eq_bind hphase
      show WillRun n (bindData n port).phase w.ctrl.inbox ∧
        ∀ m path, (bindData n port).phase = .running m path → _
      rw [bindData_phase, hin]
      exact ⟨.starting, fun m path h => (by cases h)⟩
  | running =>
      rw [hphase] at hp
      exact hp.elim

theorem Doomed.work (h : Doomed alloc n w) (hstep : OkWork alloc w w') : Doomed alloc n w' := by
  obtain ⟨hallocates, hserver⟩ := hstep
  by_cases hp : w.session.phase.BeforeData
  · obtain ⟨hr, hentry⟩ := h.willRun.server h.history hp hserver
    refine ⟨h.history.server hserver, hr, fun m path hm => ?_, h.refused⟩
    have hmn : m = n := hr.eq_of_running hm
    rw [hmn]
    exact hentry m path hm
  -- at the entry of the data path the memory is there, or nothing happens
  · obtain ⟨-, hr, hentry, hrefused⟩ := h
    generalize hphase : w.session.phase = p at hr
    generalize w.ctrl.inbox = inbox at hr
    cases hr with
    | running =>
        rw [hentry _ _ hphase] at hphase
        exact absurd (hallocates n hphase) hrefused
    | greeting | welcoming | negotiating | binding | starting | connecting =>
        rw [hphase] at hp
        exact absurd trivial hp

theorem Doomed.not_closed (h : Doomed alloc n w) : ¬ w.Closed := by
  intro hclosed
  have hr := h.willRun
  rw [show w.session.phase = .closed from hclosed] at hr
  cases hr

/-- A data path under way has its memory. -/
def Started (alloc : Allocation → Prop) (w : World) : Prop :=
  ∀ n path, w.session.phase = .running n path → path ≠ .entry n.mode → n.Granted alloc

theorem DataPath.entry_ne_measuring (m : Mode) (t : Tcp.Tasks) :
    DataPath.tcp (.measuring t) ≠ .entry m := by
  cases m <;> exact fun h => (by cases h)

theorem DataPath.entry_ne_selecting (m : Mode) (l : Udp.Loop) :
    DataPath.udp (.selecting l) ≠ .entry m := by
  cases m <;> exact fun h => (by cases h)

theorem Started.server (h : Started alloc w) (hist : History w) (hwork : OkWork alloc w w') :
    Started alloc w' := by
  obtain ⟨hallocates, hstep⟩ := hwork
  intro n path hrun hpath
  cases hstep with
  | @read x c' p htake hp =>
      change p = .running n path at hrun
      cases Session.onRead_cases hp with
      | @run m hs =>
          rw [dispatch_eq (hist.bound m (by rw [hs]; rfl))] at hrun
          cases hrun
          exact absurd rfl hpath
      | @tcpStop _ t _ hs =>
          cases hrun
          exact h _ _ hs (DataPath.entry_ne_measuring _ t)
      | @udpStop _ l _ hs =>
          cases hrun
          exact h _ _ hs (DataPath.entry_ne_selecting _ l)
      | hello | negotiate | unexpected | failed | drained => cases hrun
  | @write m p hp =>
      change p = .running n path at hrun
      cases Phase.onWrite_cases hp <;> cases hrun
  | @bind m hp port =>
      change (bindData m port).phase = _ at hrun
      rw [bindData_phase] at hrun
      cases hrun
  | @data m before _ _ hp hdata =>
      cases hrun
      -- the step before is past the entry, or it is the entry itself
      by_cases hstart : before = .entry n.mode
      · exact hallocates n (by rw [hp, hstart])
      · exact h n before hp hstart
  | @finish m path' r hp hr => exact absurd hrun (afterData_ne_running path' r n path)

/-- One whose memory cannot be had is still at its entry. -/
theorem Started.entry_of_refused (h : Started alloc w)
    (hr : WillRun n w.session.phase w.ctrl.inbox) (hrefused : ¬ n.Granted alloc)
    {m : Negotiate} {path : DataPath} (hrun : w.session.phase = .running m path) :
    path = .entry m.mode := by
  have hmn : m = n := hr.eq_of_running hrun
  by_contra hpath
  exact hrefused (hmn ▸ h m path hrun hpath)

theorem started_of_run (h : Run (fun w w' => Work alloc w w' ∨ PeerStep w w') World.init w) :
    Started alloc w := by
  have hreach : Reachable (· = World.init) (fun w w' => Work alloc w w' ∨ PeerStep w w') w :=
    ⟨World.init, rfl, h⟩
  have hinv : SessionReachable w ∧ Started alloc w := by
    apply Reachable.invariant hreach (I := fun w => SessionReachable w ∧ Started alloc w)
    · rintro w rfl
      exact ⟨Reachable.start rfl, fun n path hrun => (by cases hrun)⟩
    · rintro w w' ⟨hw, hstarted⟩ (⟨hallocates, hserver | hfail⟩ | hpeer)
      · exact ⟨hw.server hserver, hstarted.server hw.history ⟨hallocates, hserver⟩⟩
      · cases hfail with
        | fail hf => exact ⟨hw.fail (.fail hf), fun n path hrun => (by cases hrun)⟩
      · refine ⟨hw.peer hpeer, ?_⟩
        unfold Started
        rw [hpeer.frame.1]
        exact hstarted
  exact hinv.2

end Doomed

/-! ### When the queue drains -/

theorem departAll_pending (t : Turns World) :
    (departAll t).pending = t.pending.map fun j => (j.1, j.2.depart) := by
  cases hc : t.current <;> simp [departAll, Turns.pending, hc]

theorem ServeReachable.pending_run {t : Turns World} (h : ServeReachable alloc (.listening t))
    {j : ℕ × World} (hj : j ∈ t.pending) :
    Run (fun w w' => Work alloc w w' ∨ PeerStep w w') World.init j.2 := by
  obtain ⟨-, heach⟩ := h.turns
  rcases List.mem_append.mp hj with hmem | hmem
  · exact heach.current j (by simpa using hmem)
  · exact Relation.ReflTransGen.mono (fun _ _ hp => .inr hp) _ _ (heach.waiting j hmem)

theorem ServeReachable.depart_sound {t : Turns World} (h : ServeReachable alloc (.listening t))
    {j : ℕ × World} (hj : j ∈ t.pending) : Sound j.2.depart :=
  (sessionReachable_of_run (h.pending_run hj)).depart.sound

theorem ServeReachable.departAll_ordered {t : Turns World}
    (h : ServeReachable alloc (.listening t)) : (departAll t).Ordered := by
  have hordered := h.turns.1
  unfold Turns.Ordered at hordered ⊢
  rw [List.map_append] at hordered ⊢
  rw [departAll_pending, List.map_map]
  exact hordered

/-- A client that left unserved, or whose memory cannot be had, keeps the server. -/
theorem ServeReachable.exists_keeps {t : Turns World} (h : ServeReachable alloc (.listening t))
    {j : ℕ × World} (hj : j ∈ t.pending) (hno : ¬ (Served j.2 ∧ Allocatable alloc j.2)) :
    ∃ P, Keeps alloc P ∧ ∃ w, (j.1, w) ∈ (departAll t).pending ∧ P w := by
  have hsound := h.depart_sound hj
  have hmem : (j.1, j.2.depart) ∈ (departAll t).pending := by
    rw [departAll_pending]
    exact List.mem_map_of_mem hj
  rcases not_and_or.mp hno with hserved | halloc
  · rw [← served_depart_iff, Served, not_forall] at hserved
    obtain ⟨n, hn⟩ := hserved
    obtain ⟨hr, hun⟩ := Classical.not_imp.mp hn
    exact ⟨Stuck n, ⟨fun _ _ hw hs => hw.server hs.2, fun _ hw => hw.not_closed⟩, _, hmem, hsound,
      hr, hun⟩
  · rw [Allocatable, not_forall] at halloc
    obtain ⟨n, hn⟩ := halloc
    obtain ⟨hr, hrefused⟩ := Classical.not_imp.mp hn
    have hstarted := started_of_run (h.pending_run hj)
    exact ⟨Doomed alloc n, ⟨fun _ _ hw hs => hw.work hs, fun _ hw => hw.not_closed⟩, _, hmem,
      hsound.history, hr, fun m path hrun => hstarted.entry_of_refused hr hrefused hrun, hrefused⟩

/-- The clients of a server have left, each somewhere in its session or before it.  The
    server gets through its queue, however it goes on, exactly when the data path each
    session runs, or will run on what is queued, has been served and has its memory.  One
    client for which that fails keeps it from every later one, those included that arrive
    after all the others have left. -/
theorem serve_drains_iff {t : Turns World} (h : ServeReachable alloc (.listening t)) :
    (AlwaysDrains alloc (.listening (departAll t)) ↔
      ∀ j ∈ t.pending, Served j.2 ∧ Allocatable alloc j.2) ∧
    (∀ j ∈ t.pending, ¬ (Served j.2 ∧ Allocatable alloc j.2) → ∀ u,
      Run (LaterStep alloc t.arrivals) (.listening (departAll t)) (.listening u) →
      ∀ i ∈ u.finished ++ u.current.toList, i.1 ≤ j.1) := by
  refine ⟨⟨fun hdrains j hj => ?_, fun hall v hrun => ?_⟩, fun j hj hno u hrun => ?_⟩
  · by_contra hno
    obtain ⟨P, hP, hpending⟩ := h.exists_keeps hj hno
    exact hP.not_drains hpending (hdrains _ .refl)
  · have hservable : AllServable alloc (.listening (departAll t)) := by
      refine ⟨_, rfl, fun i hi => ?_⟩
      rw [departAll_pending] at hi
      obtain ⟨j, hj, rfl⟩ := List.mem_map.mp hi
      obtain ⟨hserved, halloc⟩ := hall j hj
      exact ⟨⟨h.depart_sound hj, rfl, (served_depart_iff j.2).mpr hserved⟩, halloc⟩
    exact (run_invariant (fun _ _ hI hstep => hI.own hstep) hrun hservable).drains
  · obtain ⟨P, hP, hpending⟩ := h.exists_keeps hj hno
    exact hP.le_of_served (h.turns.1.lt_arrivals hj) h.departAll_ordered hpending hrun

/-- A client that asks for a test of two streams while it waits. -/
def requested : World :=
  { World.init with ctrl :=
    { Ctrl.init with inbox := [.ok (.hello currentHello), .ok (.negotiate twoStreams), .ok .run] } }

/-- It and another client, both waiting for the server. -/
def twoClients : Turns World :=
  { current := none, waiting := [(0, requested), (1, World.init)], finished := [], arrivals := 2 }

theorem twoClients_reachable (alloc : Allocation → Prop) :
    ServeReachable alloc (.listening twoClients) := by
  have hstart : ServeReachable alloc .binding := Reachable.start rfl
  have h := hstart.next .bind
  have h := h.next (.turn (.inr .arrive))
  have h := h.next (.turn (.inr (.waits (i := 0) rfl (.send (.ok (.hello currentHello)) rfl))))
  have h := h.next (.turn (.inr (.waits (i := 0) rfl (.send (.ok (.negotiate twoStreams)) rfl))))
  have h := h.next (.turn (.inr (.waits (i := 0) rfl (.send (.ok .run) rfl))))
  exact h.next (.turn (.inr .arrive))

theorem serve_isolates_twoClients :
    (twoClients.finished ++ twoClients.pending).map Prod.fst = List.range 2 ∧
      SessionReachable World.init ∧ World.init.ctrl.written = [] := by
  obtain ⟨hordered, -, -, hwaiting⟩ := serve_isolates (twoClients_reachable fun _ => True)
  obtain ⟨hreach, -, -, hwritten⟩ :=
    hwaiting (1, World.init) (List.mem_cons_of_mem _ List.mem_cons_self)
  exact ⟨hordered, hreach, hwritten⟩

/-- It leaves before it has opened a stream: no other client is ever served. -/
theorem serve_drains_iff_twoClients :
    ¬ AlwaysDrains (fun _ => True) (.listening (departAll twoClients)) ∧
    ∀ u, Run (LaterStep (fun _ => True) 2) (.listening (departAll twoClients)) (.listening u) →
      ∀ i ∈ u.finished ++ u.current.toList, i.1 ≤ 0 := by
  have hdrains := serve_drains_iff (twoClients_reachable fun _ => True)
  have hmem : (0, requested) ∈ twoClients.pending := List.mem_cons_self
  have hunserved : ¬ Served requested := fun hserved =>
    absurd (hserved twoStreams (.greeting rfl)) (by show ¬ 2 ≤ 0; decide)
  exact ⟨fun halways => hunserved (hdrains.1.mp halways _ hmem).1,
    hdrains.2 _ hmem fun hboth => hunserved hboth.1⟩

end Andri

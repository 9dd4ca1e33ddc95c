/-
  Andri.Client.Contract

  A client and its session: where the Result comes from, and what the two agree
  on in every interleaving.
-/
import Andri.Client.NoDeadlock

namespace Andri

open Lib

/-! ## The Result -/

/-- The Result a session has computed and not yet written. -/
def Phase.result : Phase → Option TestResult
  | .draining r | .reporting r => some r
  | _ => none

/-- The session has the Result, or has written it. -/
def World.Has (w : World) (r : TestResult) : Prop :=
  w.session.phase.result = some r ∨ .result r ∈ w.ctrl.written

theorem OnRead.result {s : Session} {x : Input} {q : Phase} {r : TestResult} (h : OnRead s x q)
    (hr : q.result = some r) : s.phase.result = some r := by
  cases h with
  | run hs => rcases dispatch_cases s _ with hd | hd <;> rw [hd] at hr <;> cases hr
  | drained hs =>
      rw [hs]
      exact hr
  | hello | negotiate | unexpected | failed | tcpStop | udpStop => cases hr

theorem Phase.result_write {p q : Phase} {m : Msg} (h : p.onWrite = some (m, q)) :
    q.result = none ∧ ∀ r, m = .result r → p.result = some r := by
  cases Phase.onWrite_cases h with
  | result hp =>
      rw [hp]
      exact ⟨rfl, fun r hr => by cases hr; rfl⟩
  | welcome | turnedAway | error | start => exact ⟨rfl, fun r hr => by cases hr⟩

/-- A Result comes from the data path that returned it. -/
theorem ServerStep.has {w w' : World} {r : TestResult} (h : ServerStep w w') (hr : w'.Has r) :
    w.Has r ∨ ∃ n path, w.session.phase = .running n path ∧ path.returned = some r := by
  cases h with
  | read htake hq =>
      rcases hr with hp | hmem
      · exact .inl (.inl ((Session.onRead_cases hq).result hp))
      · rw [(Ctrl.take_frame htake).2.1] at hmem
        exact .inl (.inr hmem)
  | write hq =>
      obtain ⟨hnone, hresult⟩ := Phase.result_write hq
      rcases hr with hp | hmem
      · rw [World.goto_phase, hnone] at hp
        cases hp
      · rcases List.mem_append.mp hmem with hold | hnew
        · exact .inl (.inr hold)
        · exact .inl (.inl (hresult r (List.mem_singleton.mp hnew).symm))
  | @bind n hp port =>
      rcases hr with hp' | hmem
      · change (bindData n port).phase.result = some r at hp'
        rw [bindData_phase] at hp'
        cases hp'
      · exact .inl (.inr hmem)
  | data hp hstep =>
      rcases hr with hp' | hmem
      · cases hp'
      · exact .inl (.inr hmem)
  | @finish n path r' hp hret =>
      rcases hr with hp' | hmem
      · refine .inr ⟨n, path, hp, ?_⟩
        change (afterData path r').result = some r at hp'
        rcases afterData_cases path r' with ha | ha <;> rw [ha] at hp' <;> exact hret.trans hp'
      · exact .inl (.inr hmem)

/-- The Result was computed on this run: some state of it has the data path
    returning `r`. -/
def Computed (su : Setup) (r : TestResult) (j : Joint) : Prop :=
  ∃ j₀ path, JointReachable su j₀ ∧ Run (JointStep su) j₀ j ∧
    j₀.world.session.phase = .running su.neg path ∧ path.returned = some r

theorem Computed.next {su : Setup} {r : TestResult} {j j' : Joint} (h : Computed su r j)
    (hstep : JointStep su j j') : Computed su r j' := by
  obtain ⟨j₀, path, hreach, hrun, hphase, hreturned⟩ := h
  exact ⟨j₀, path, hreach, hrun.tail hstep, hphase, hreturned⟩

/-- A client's step does not give the session a Result. -/
theorem ClientStep.has {su : Setup} {r : TestResult} {j j' : Joint} (h : ClientStep su j j')
    (hr : j'.world.Has r) : j.world.Has r := by
  cases h <;> exact hr

/-- Whatever Result a session has, its data path returned. -/
theorem JointReachable.computed {su : Setup} {j : Joint} (h : JointReachable su j)
    {r : TestResult} (hr : j.world.Has r) : Computed su r j := by
  have hall : JointReachable su j ∧ ∀ r, j.world.Has r → Computed su r j := by
    refine Reachable.invariant h (I := fun j => JointReachable su j ∧
      ∀ r, j.world.Has r → Computed su r j) (fun j hinit => ?_) fun j j' hj hstep => ?_
    · obtain rfl := hinit
      refine ⟨Reachable.start rfl, fun r hr => ?_⟩
      rcases hr with hp | hmem
      · cases hp
      · cases hmem
    · obtain ⟨hreach, hcomputed⟩ := hj
      refine ⟨hreach.next hstep, fun r hr => ?_⟩
      cases hstep with
      | server hserver =>
          rcases hserver.has hr with hold | ⟨n, path, hp, hret⟩
          · exact (hcomputed r hold).next (.server hserver)
          · obtain rfl : n = su.neg := hreach.agree.session.request_eq (by rw [hp]; rfl)
            exact ⟨j, path, hreach, .single (.server hserver), hp, hret⟩
      | client hclient => exact (hcomputed r (hclient.has hr)).next (.client hclient)
      | network buf => exact (hcomputed r hr).next (.network buf)
  exact hall.2 r hr

/-! ## The contract -/

/-- A client that is done holds the Result written, computed on this run; every
    connection it opened was accepted. -/
theorem JointReachable.done {su : Setup} {j : Joint} (h : JointReachable su j) {r : TestResult}
    (hr : j.client = .done r) :
    (∃ s, j.world.ctrl.written = [.welcome (welcomeTo clientHello), .start s, .result r]) ∧
    Computed su r j ∧ j.world.net.conns.length = streams su.neg ∧
    j.world.net.accepted = j.world.net.conns.length := by
  have hagree := h.agree
  have hresult := hagree.done r hr
  have hclosed := hagree.session.closed_of_result hresult
  have hanswers := hagree.session.answers
  have hsettled := hagree.session.settled
  have hplaced := hagree.placed
  rw [show j.world.session.phase = .closed from hclosed] at hsettled
  rw [hr] at hplaced
  refine ⟨?_, h.computed (.inr (List.mem_of_getElem? hresult)), hplaced.1,
    hsettled.1.trans hplaced.1.symm⟩
  -- a third answer is a Result, behind Welcome and Start
  generalize j.world.ctrl.written = written at hanswers hresult
  cases hanswers with
  | reported s r' =>
      cases hresult
      exact ⟨s, rfl⟩
  | silent | welcomed | started => cases hresult

/-- A client and its session, in any interleaving: every message read is valid where
    it is read, and neither end fails.  Before the end the two never wait for each
    other, a party that does not wait has a step, and the end can be reached.  A
    closed session has read all it was sent; a client that is done holds the
    Result its session computed and wrote, and every data connection opened has
    been accepted. -/
theorem client_server_agree (su : Setup) (hcap : 0 < su.cap) {j : Joint}
    (h : JointReachable su j) :
    (∀ p x c', j.world.session.phase.wait = some p → j.world.ctrl.take = some (x, c') →
      ∃ m, x = .ok m ∧ p.Valid m) ∧
    (∀ m p, j.world.ctrl.written[j.seen]? = some m → j.client.onRead m = some p →
      ∀ e, p ≠ .failed e) ∧
    (∀ e, j.client ≠ .failed e) ∧ (∀ e, j.world.session.phase ≠ .rejecting e) ∧
    j.world.session.phase ≠ .panicked ∧
    (¬ j.Final → ¬ (j.world.Waits ∧ j.ClientWaits su)) ∧
    (¬ j.world.Waits → ∃ w', ServerStep j.world w') ∧
    (¬ j.ClientWaits su → ∃ j', ClientStep su j j') ∧
    CanReach (JointStep su) Joint.Final j ∧
    (j.world.Closed → j.world.ctrl.inbox = []) ∧
    ∀ r, j.client = .done r →
      (∃ s, j.world.ctrl.written = [.welcome (welcomeTo clientHello), .start s, .result r]) ∧
      Computed su r j ∧ j.world.net.conns.length = streams su.neg ∧
      j.world.net.accepted = j.world.net.conns.length := by
  have hagree := h.agree
  refine ⟨fun p x c' hwait htake => ?_, fun m p hm hp e => ?_, hagree.failed,
    hagree.session.not_rejecting, hagree.session.not_panicked, hagree.no_deadlock hcap,
    fun hw => ?_, fun hw => ?_, hagree.canReach_final hcap,
    fun hc => (hagree.session.read_all hc).2, fun r hr => h.done hr⟩
  · exact (hagree.session.valid hwait htake).imp fun m hm => ⟨hm.1, hm.2.1⟩
  · rcases hagree.onRead hm hp with ⟨-, rfl⟩ | ⟨s, -, -, rfl⟩ | ⟨r, -, -, rfl⟩ <;> simp
  · exact (hagree.session.exists_step hagree.conns_le hw).imp fun w' hw' => hw'.1
  · exact (hagree.exists_client hw).imp fun j' hj' => hj'.1

/-- The request of a client started with `--file` on five bytes of memory. -/
def fiveBytes : Negotiate where
  mode := .file
  durationSecs := 10
  warmupSecs := 0
  parallel := 4
  bufferBytes := WRITE_BUF
  bidir := false
  bitrateBps := none
  packetBytes := none
  fileLen := some 5
  nullSource := some true

/-- The options it is started with. -/
def fiveByteOpts : ClientOpts := ⟨some .file, 10, 4, false, none, 1472, true, false⟩

/-- That client can get its Result; when it has, the one connection it opened,
    whatever its `--parallel`, has been accepted. -/
theorem client_server_agree_fiveBytes :
    ClientOpts.negotiate ⟨some .file, 10, 4, false, none, 1472, true, true⟩ 5 = .ok fiveBytes ∧
    ∃ j r, JointReachable ⟨fiveBytes, true, 1⟩ j ∧ j.client = .done r ∧
      j.world.ctrl.inbox = [] ∧ j.world.net.conns.length = 1 ∧ j.world.net.accepted = 1 := by
  have hinit : JointReachable ⟨fiveBytes, true, 1⟩ Joint.init := Reachable.start rfl
  obtain ⟨-, -, -, -, -, -, -, -, ⟨j, hrun, ⟨r, hr⟩, hclosed⟩, -, -⟩ :=
    client_server_agree ⟨fiveBytes, true, 1⟩ Nat.one_pos hinit
  have hreach := hinit.run hrun
  obtain ⟨-, -, -, -, -, -, -, -, -, hread, hdone⟩ :=
    client_server_agree ⟨fiveBytes, true, 1⟩ Nat.one_pos hreach
  obtain ⟨-, -, hopened, haccepted⟩ := hdone r hr
  exact ⟨rfl, j, r, hreach, hr, hread hclosed, hopened, haccepted.trans hopened⟩

end Andri

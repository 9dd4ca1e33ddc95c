/-
  Andri.Client.Exit

  What a client has said, heard and done wherever it is, against any server: the
  script is sent in order and no further than the answers allow, no data moves
  before Run, and the process exits with success only on the three answers in
  their order, the last of them printed.
-/
import Andri.Client.Contract
import Andri.Client.Main

namespace Andri

open Lib

/-! ## What a client goes on from -/

/-- A greeting reply that accepts the client, and is the answer to its Hello. -/
def Welcome.Agrees (g : Welcome) : Prop := g.accepted = true ∧ g.nonce = NONCE

/-- Inputs a client goes on from. -/
inductive Conversed : List Input → Prop
  | silent : Conversed []
  | welcomed {g : Welcome} (hg : g.Agrees) : Conversed [.ok (.welcome g)]
  | started {g : Welcome} (hg : g.Agrees) (s : Start) :
      Conversed [.ok (.welcome g), .ok (.start s)]
  | reported {g : Welcome} (hg : g.Agrees) (s : Start) (r : TestResult) :
      Conversed [.ok (.welcome g), .ok (.start s), .ok (.result r)]

/-- Inputs that end a client: they go wrong with the last. -/
def BrokenOff (read : List Input) : Prop :=
  ∃ pre x, read = pre ++ [x] ∧ Conversed pre ∧ ¬ Conversed read

/-- The messages a phase goes on from. -/
def ClientPhase.Expects : ClientPhase → Msg → Prop
  | .awaitingWelcome, .welcome g => g.Agrees
  | .awaitingStart, .start _ => True
  | .awaitingResult, .result _ => True
  | _, _ => False

/-- The reads of a client: one constructor for each way a read goes on. -/
inductive ClientRead : ClientPhase → Msg → ClientPhase → Prop
  | welcome {g : Welcome} (hg : g.Agrees) : ClientRead .awaitingWelcome (.welcome g) .negotiating
  | start (s : Start) : ClientRead .awaitingStart (.start s) (.starting s)
  | result (r : TestResult) : ClientRead .awaitingResult (.result r) (.done r)
  | refused {p : ClientPhase} {m : Msg} (hp : p.Reads) (hm : ¬ p.Expects m) (e : IoError) :
      ClientRead p m (.failed e)

theorem ClientPhase.onRead_cases {p q : ClientPhase} {m : Msg} (h : p.onRead m = some q) :
    ClientRead p m q := by
  cases p with
  | awaitingWelcome =>
      have hreads : Reads .awaitingWelcome := trivial
      cases m with
      | welcome g =>
          cases h
          by_cases hg : g.Agrees
          · obtain ⟨haccepted, hnonce⟩ := hg
            rw [if_neg (by simp [haccepted, hnonce])]
            exact .welcome ⟨haccepted, hnonce⟩
          · have hm : ¬ Expects .awaitingWelcome (.welcome g) := hg
            have hbad : (!g.accepted || g.nonce != NONCE) = true := by
              simp only [Welcome.Agrees, not_and] at hg
              cases hacc : g.accepted with
              | false => rfl
              | true => simpa using hg hacc
            rw [if_pos hbad]
            exact .refused hreads hm _
      | hello | negotiate | start | run | stop | result | error =>
          cases h
          exact .refused hreads id _
  | awaitingStart =>
      have hreads : Reads .awaitingStart := trivial
      cases m with
      | start s =>
          cases h
          exact .start s
      | hello | welcome | negotiate | run | stop | result | error =>
          cases h
          exact .refused hreads id _
  | awaitingResult =>
      have hreads : Reads .awaitingResult := trivial
      cases m with
      | result r =>
          cases h
          exact .result r
      | hello | welcome | negotiate | start | run | stop | error =>
          cases h
          exact .refused hreads id _
  | greeting | negotiating | starting | driving | stopping | done | failed => cases h

/-- A phase that reads has no Result yet. -/
theorem ClientPhase.ne_done_of_onRead {p q : ClientPhase} {m : Msg} (h : p.onRead m = some q)
    (r : TestResult) : p ≠ .done r := by
  rintro rfl
  cases h

/-- What a client in a phase has read. -/
def ClientPhase.Heard (read : List Input) : ClientPhase → Prop
  | .greeting | .awaitingWelcome => read = []
  | .negotiating | .awaitingStart => ∃ g, g.Agrees ∧ read = [.ok (.welcome g)]
  | .starting s | .driving s _ => ∃ g, g.Agrees ∧ read = [.ok (.welcome g), .ok (.start s)]
  | .stopping | .awaitingResult => ∃ g s, g.Agrees ∧ read = [.ok (.welcome g), .ok (.start s)]
  | .done r => ∃ g s, g.Agrees ∧ read = [.ok (.welcome g), .ok (.start s), .ok (.result r)]
  | .failed _ => BrokenOff read

section Heard

variable {p q : ClientPhase} {read : List Input} {m : Msg}

theorem Conversed.ok (h : Conversed read) {x : Input} (hx : x ∈ read) : ∃ m, x = .ok m := by
  cases h <;> simp at hx
  · exact ⟨_, hx⟩
  · rcases hx with rfl | rfl <;> exact ⟨_, rfl⟩
  · rcases hx with rfl | rfl | rfl <;> exact ⟨_, rfl⟩

/-- Short of a refusal, what was heard is what a client goes on from. -/
theorem ClientPhase.Heard.conversed (h : p.Heard read) (hp : ∀ e, p ≠ .failed e) :
    Conversed read := by
  cases p with
  | greeting | awaitingWelcome =>
      obtain rfl : read = [] := h
      exact .silent
  | negotiating | awaitingStart =>
      obtain ⟨g, hg, rfl⟩ := h
      exact .welcomed hg
  | starting s | driving s =>
      obtain ⟨g, hg, rfl⟩ := h
      exact .started hg s
  | stopping | awaitingResult =>
      obtain ⟨g, s, hg, rfl⟩ := h
      exact .started hg s
  | done r =>
      obtain ⟨g, s, hg, rfl⟩ := h
      exact .reported hg s r
  | failed e => exact absurd rfl (hp e)

/-- A message not expected breaks the exchange off. -/
theorem ClientPhase.Heard.refuse (h : p.Heard read) (hp : p.Reads) (hm : ¬ p.Expects m) :
    BrokenOff (read ++ [.ok m]) := by
  refine ⟨read, _, rfl, h.conversed fun e he => by simp [he, Reads] at hp, fun hall => hm ?_⟩
  -- the inputs say which answer the message is
  cases p with
  | awaitingWelcome =>
      obtain rfl : read = [] := h
      cases hall with
      | welcomed hg => exact hg
  | awaitingStart =>
      obtain ⟨g, hg, rfl⟩ := h
      cases hall with
      | started => trivial
  | awaitingResult =>
      obtain ⟨g, s, hg, rfl⟩ := h
      cases hall with
      | reported => trivial
  | greeting | negotiating | starting | driving | stopping | done | failed => exact hp.elim

/-- So does a read that fails. -/
theorem ClientPhase.Heard.fail (h : p.Heard read) (hp : p.Reads) (e : IoError) :
    BrokenOff (read ++ [.error e]) := by
  refine ⟨read, _, rfl, h.conversed fun e he => by simp [he, Reads] at hp, fun hall => ?_⟩
  obtain ⟨m, hm⟩ := hall.ok (x := .error e) (by simp)
  cases hm

theorem ClientPhase.Heard.next (h : p.Heard read) (hq : p.onRead m = some q) :
    q.Heard (read ++ [.ok m]) := by
  cases ClientPhase.onRead_cases hq with
  | welcome hg =>
      obtain rfl : read = [] := h
      exact ⟨_, hg, rfl⟩
  | start s =>
      obtain ⟨g, hg, rfl⟩ := h
      exact ⟨g, hg, rfl⟩
  | result r =>
      obtain ⟨g, s, hg, rfl⟩ := h
      exact ⟨g, s, hg, rfl⟩
  | refused hp hm e => exact h.refuse hp hm

end Heard

/-! ## The invariant -/

/-- How much of the script a phase has behind it; nothing is asked of a refusal. -/
def ClientPhase.Said (neg : Negotiate) (written : List Msg) : ClientPhase → Prop
  | .failed _ => written <+: script neg
  | p => written = (script neg).take p.sent

/-- What lies behind a program point of `connect`. -/
def Connect.History (request : Except IoError Negotiate) (read : List Input) (written : List Msg)
    (printed : Option TestResult) : Connect → Prop
  | .resolving => read = [] ∧ written = [] ∧ printed = none
  | .dialing neg => request = .ok neg ∧ read = [] ∧ written = [] ∧ printed = none
  | .talking neg p => request = .ok neg ∧ p.Heard read ∧ p.Said neg written ∧ printed = none
  | .returned (.ok ()) => ∃ neg r, request = .ok neg ∧ (ClientPhase.done r).Heard read ∧
      written = script neg ∧ printed = some r
  | .returned (.error e) => printed = none ∧
      ((request = .error e ∧ read = [] ∧ written = []) ∨
        ∃ neg, request = .ok neg ∧ written <+: script neg ∧ (Conversed read ∨ BrokenOff read))

/-- Nothing is sent ahead of the answer it follows. -/
structure InOrder (read : List Input) (written : List Msg) : Prop where
  negotiate : ∀ n, .negotiate n ∈ written → ∃ g, g.Agrees ∧ [.ok (.welcome g)] <+: read
  run : .run ∈ written → ∃ g s, g.Agrees ∧ [.ok (.welcome g), .ok (.start s)] <+: read

/-- The invariant of a client. -/
structure Process.Traced (launch : Launch) (w : Process) : Prop where
  history : w.point.History (launch.cli.request launch.fileLen) w.ctrl.read w.ctrl.written w.printed
  order : InOrder w.ctrl.read w.ctrl.written
  quiet : .run ∉ w.ctrl.written → w.net.conns = [] ∧ w.net.dgrams = []

theorem ClientPhase.Said.prefix_script {neg : Negotiate} {written : List Msg} {p : ClientPhase}
    (h : p.Said neg written) : written <+: script neg := by
  cases p with
  | failed => exact h
  | greeting | awaitingWelcome | negotiating | awaitingStart | starting | driving | stopping
  | awaitingResult | done =>
      rw [show written = _ from h]
      exact List.take_prefix _ _

theorem ClientPhase.Heard.conversed_or {p : ClientPhase} {read : List Input} (h : p.Heard read) :
    Conversed read ∨ BrokenOff read := by
  by_cases hp : ∃ e, p = .failed e
  · obtain ⟨e, rfl⟩ := hp
    exact .inr h
  · push Not at hp
    exact .inl (h.conversed hp)

/-- Wherever an error ends the exchange, the client returns with nothing printed. -/
theorem Connect.History.abort {request : Except IoError Negotiate} {read : List Input}
    {written : List Msg} {printed : Option TestResult} {neg : Negotiate} {p : ClientPhase}
    (h : (talking neg p).History request read written printed) (e : IoError) :
    (returned (.error e)).History request read written printed := by
  obtain ⟨hneg, hheard, hsaid, hprinted⟩ := h
  exact ⟨hprinted, .inr ⟨neg, hneg, hsaid.prefix_script, hheard.conversed_or⟩⟩

theorem ClientPhase.Said.next {neg : Negotiate} {written : List Msg} {p q : ClientPhase} {m : Msg}
    (h : p.Said neg written) (hq : p.onRead m = some q) : q.Said neg written := by
  cases ClientPhase.onRead_cases hq with
  | welcome | start | result => exact h
  | refused => exact h.prefix_script

/-- A write sends what comes next in the script. -/
theorem ClientPhase.Said.write {neg : Negotiate} {written : List Msg} {p q : ClientPhase} {m : Msg}
    (h : p.Said neg written) (hq : p.onWrite neg = some (m, q)) :
    q.Said neg (written ++ [m]) := by
  cases p with
  | greeting | negotiating | starting | stopping =>
      cases hq
      rw [show written = _ from h]
      rfl
  | awaitingWelcome | awaitingStart | driving | awaitingResult | done | failed => cases hq

theorem ClientPhase.Heard.write {neg : Negotiate} {read : List Input} {p q : ClientPhase} {m : Msg}
    (h : p.Heard read) (hq : p.onWrite neg = some (m, q)) : q.Heard read := by
  cases p with
  | greeting | negotiating | starting | stopping =>
      cases hq
      exact h
  | awaitingWelcome | awaitingStart | driving | awaitingResult | done | failed => cases hq

theorem InOrder.read {read : List Input} {written : List Msg} (h : InOrder read written)
    (x : Input) : InOrder (read ++ [x]) written where
  negotiate n hn := by
    obtain ⟨g, hg, hprefix⟩ := h.negotiate n hn
    exact ⟨g, hg, hprefix.trans (List.prefix_append _ _)⟩
  run hrun := by
    obtain ⟨g, s, hg, hprefix⟩ := h.run hrun
    exact ⟨g, s, hg, hprefix.trans (List.prefix_append _ _)⟩

theorem InOrder.write {neg : Negotiate} {read : List Input} {written : List Msg}
    {p q : ClientPhase} {m : Msg} (h : InOrder read written) (hheard : p.Heard read)
    (hq : p.onWrite neg = some (m, q)) : InOrder read (written ++ [m]) where
  negotiate n hn := by
    rcases List.mem_append.mp hn with hold | hnew
    · exact h.negotiate n hold
    · -- only `negotiating` sends a request, and it has heard Welcome
      cases p with
      | negotiating =>
          obtain ⟨g, hg, rfl⟩ := hheard
          exact ⟨g, hg, List.prefix_rfl⟩
      | greeting | starting | stopping =>
          cases hq
          simp at hnew
      | awaitingWelcome | awaitingStart | driving | awaitingResult | done | failed => cases hq
  run hrun := by
    rcases List.mem_append.mp hrun with hold | hnew
    · exact h.run hold
    · cases p with
      | starting s =>
          obtain ⟨g, hg, rfl⟩ := hheard
          exact ⟨g, s, hg, List.prefix_rfl⟩
      | greeting | negotiating | stopping =>
          cases hq
          simp at hnew
      | awaitingWelcome | awaitingStart | driving | awaitingResult | done | failed => cases hq

/-- A client that drives has sent Run, and has not sent Stop. -/
theorem ClientPhase.Said.driving {neg : Negotiate} {written : List Msg} {s : Start} {d : DriveState}
    (h : (ClientPhase.driving s d).Said neg written) :
    .run ∈ written ∧ .stop ∉ written := by
  rw [show written = [.hello clientHello, .negotiate neg, .run] from h]
  simp

section Steps

variable {launch : Launch} {w w' : Process}

theorem Process.Traced.init (launch : Launch) : Process.init.Traced launch where
  history := ⟨rfl, rfl, rfl⟩
  order := ⟨fun n hn => (by cases hn), fun hrun => (by cases hrun)⟩
  quiet _ := ⟨rfl, rfl⟩

theorem Process.Traced.call (h : w.Traced launch) (hstep : CallStep launch w w') :
    w'.Traced launch := by
  have hhist := h.history
  cases hstep with
  | resolve hp hneg =>
      rw [hp] at hhist
      exact ⟨⟨hneg, hhist⟩, h.order, h.quiet⟩
  | dial hp =>
      rw [hp] at hhist
      obtain ⟨hneg, hread, hwritten, hprinted⟩ := hhist
      exact ⟨⟨hneg, hread, hwritten, hprinted⟩, h.order, h.quiet⟩
  | read hp htake hq =>
      rw [hp] at hhist
      obtain ⟨hneg, hheard, hsaid, hprinted⟩ := hhist
      obtain ⟨hread, hwritten, -⟩ := Ctrl.take_frame htake
      refine ⟨⟨hneg, ?_, ?_, hprinted⟩, ?_, fun hrun => h.quiet ?_⟩
      · rw [show ({ w.goto _ with ctrl := _ } : Process).ctrl.read = _ from hread]
        exact hheard.next hq
      · rw [show ({ w.goto _ with ctrl := _ } : Process).ctrl.written = _ from hwritten]
        exact hsaid.next hq
      · rw [show ({ w.goto _ with ctrl := _ } : Process).ctrl.read = _ from hread,
          show ({ w.goto _ with ctrl := _ } : Process).ctrl.written = _ from hwritten]
        exact h.order.read _
      · rwa [← hwritten]
  | write hp hq =>
      rw [hp] at hhist
      obtain ⟨hneg, hheard, hsaid, hprinted⟩ := hhist
      refine ⟨⟨hneg, hheard.write hq, hsaid.write hq, hprinted⟩, h.order.write hheard hq,
        fun hrun => h.quiet fun hmem => ?_⟩
      exact hrun (List.mem_append_left _ hmem)
  | drive hp hd =>
      rw [hp] at hhist
      exact ⟨hhist, h.order, fun hrun => absurd hhist.2.2.1.driving.1 hrun⟩
  | disk hp hd =>
      rw [hp] at hhist
      exact ⟨hhist, h.order, fun hrun => absurd hhist.2.2.1.driving.1 hrun⟩
  | driven hp hd =>
      rw [hp] at hhist
      obtain ⟨hneg, ⟨g, hg, hread⟩, hsaid, hprinted⟩ := hhist
      exact ⟨⟨hneg, ⟨g, _, hg, hread⟩, hsaid, hprinted⟩, h.order, h.quiet⟩
  | print hp =>
      rw [hp] at hhist
      obtain ⟨hneg, hheard, hsaid, -⟩ := hhist
      exact ⟨⟨_, _, hneg, hheard, hsaid, rfl⟩, h.order, h.quiet⟩

theorem Process.Traced.error (h : w.Traced launch) (hstep : ErrorStep launch w w') :
    w'.Traced launch := by
  have hhist := h.history
  cases hstep with
  | refuse hp hreq =>
      rw [hp] at hhist
      obtain ⟨hread, hwritten, hprinted⟩ := hhist
      exact ⟨⟨hprinted, .inl ⟨hreq, hread, hwritten⟩⟩, h.order, h.quiet⟩
  | dial hp e =>
      rw [hp] at hhist
      obtain ⟨hneg, hread, hwritten, hprinted⟩ := hhist
      refine ⟨⟨hprinted, .inr ⟨_, hneg, ?_, .inl ?_⟩⟩, h.order, h.quiet⟩
      · rw [Process.goto_ctrl, hwritten]
        exact List.nil_prefix
      · rw [Process.goto_ctrl, hread]
        exact .silent
  | @read neg p e c' hp hreads htake =>
      rw [hp] at hhist
      obtain ⟨hneg, hheard, hsaid, hprinted⟩ := hhist
      obtain ⟨hread, hwritten, -⟩ := Ctrl.take_frame htake
      refine ⟨⟨hprinted, .inr ⟨neg, hneg, ?_, .inr ?_⟩⟩, ?_, fun hrun => h.quiet ?_⟩
      · rw [show ({ w.goto _ with ctrl := c' } : Process).ctrl.written = _ from hwritten]
        exact hsaid.prefix_script
      · rw [show ({ w.goto _ with ctrl := c' } : Process).ctrl.read = _ from hread]
        exact hheard.fail hreads e
      · rw [show ({ w.goto _ with ctrl := c' } : Process).ctrl.read = _ from hread,
          show ({ w.goto _ with ctrl := c' } : Process).ctrl.written = _ from hwritten]
        exact h.order.read _
      · rwa [← hwritten]
  | write hp hq e | drive hp hd e | leave hp | encode hp hjson e =>
      rw [hp] at hhist
      exact ⟨hhist.abort _, h.order, h.quiet⟩
  | stream hp =>
      rw [hp] at hhist
      exact ⟨hhist, h.order, fun hrun => absurd hhist.2.2.1.driving.1 hrun⟩

theorem Process.Traced.server (h : w.Traced launch) (hstep : ServerMove w w') :
    w'.Traced launch := by
  cases hstep with
  | send | close | reset | drop | wait => exact ⟨h.history, h.order, h.quiet⟩
  | take hc hn =>
      refine ⟨h.history, h.order, fun hrun => ?_⟩
      -- there is nothing to read from before Run
      obtain ⟨hconns, -⟩ := h.quiet hrun
      rw [hconns] at hc
      cases hc

theorem Launched.traced (h : Launched launch w) : w.Traced launch := by
  refine Reachable.invariant h (fun w hw => ?_) fun w w' hw hstep => ?_
  · rw [hw]
    exact .init launch
  · rcases hstep with (hcall | herror) | hserver
    · exact hw.call hcall
    · exact hw.error herror
    · exact hw.server hserver

/-! ## What a client does -/

theorem Launched.request_error (h : Launched launch w) {e : IoError}
    (he : launch.cli.request launch.fileLen = .error e) :
    (w.point = .resolving ∨ w.point = .returned (.error e)) ∧ w.ctrl.written = [] := by
  have hhist := h.traced.history
  rw [he] at hhist
  cases hp : w.point with
  | resolving =>
      rw [hp] at hhist
      exact ⟨.inl rfl, hhist.2.1⟩
  | dialing | talking =>
      rw [hp] at hhist
      cases hhist.1
  | returned outcome =>
      rw [hp] at hhist
      cases outcome with
      | ok u =>
          obtain ⟨neg, r, hneg, -⟩ := hhist
          cases hneg
      | error e' =>
          obtain ⟨-, ⟨hreq, -, hwritten⟩ | ⟨neg, hneg, -⟩⟩ := hhist
          · cases hreq
            exact ⟨.inr rfl, hwritten⟩
          · cases hneg

theorem Launched.request_ok (h : Launched launch w) {neg : Negotiate}
    (hneg : launch.cli.request launch.fileLen = .ok neg) : w.ctrl.written <+: script neg := by
  have hhist := h.traced.history
  rw [hneg] at hhist
  cases hp : w.point with
  | resolving =>
      rw [hp] at hhist
      rw [hhist.2.1]
      exact List.nil_prefix
  | dialing =>
      rw [hp] at hhist
      rw [hhist.2.2.1]
      exact List.nil_prefix
  | talking =>
      rw [hp] at hhist
      obtain ⟨hreq, -, hsaid, -⟩ := hhist
      cases hreq
      exact hsaid.prefix_script
  | returned outcome =>
      rw [hp] at hhist
      cases outcome with
      | ok u =>
          obtain ⟨neg', r, hreq, -, hwritten, -⟩ := hhist
          cases hreq
          rw [hwritten]
      | error e =>
          obtain ⟨-, ⟨hreq, -⟩ | ⟨neg', hreq, hwritten, -⟩⟩ := hhist
          · cases hreq
          · cases hreq
            exact hwritten

theorem Launched.printed (h : Launched launch w) {r : TestResult} (hr : w.printed = some r) :
    w.point = .returned (.ok ()) := by
  have hhist := h.traced.history
  rw [hr] at hhist
  cases hp : w.point with
  | resolving =>
      rw [hp] at hhist
      cases hhist.2.2
  | dialing | talking =>
      rw [hp] at hhist
      cases hhist.2.2.2
  | returned outcome =>
      rw [hp] at hhist
      cases outcome with
      | ok u => rfl
      | error e => cases hhist.1

/-- Exit code `SUCCESS`: the whole script was sent and answered, and the Result printed. -/
theorem Launched.success (h : Launched launch w) {o : Except IoError Unit}
    (ho : w.point = .returned o) (hcode : exitCode o = .SUCCESS) :
    ∃ neg g s r, launch.cli.request launch.fileLen = .ok neg ∧ g.Agrees ∧
      w.ctrl.written = script neg ∧
      w.ctrl.read = [.ok (.welcome g), .ok (.start s), .ok (.result r)] ∧ w.printed = some r := by
  have hhist := h.traced.history
  rw [ho] at hhist
  cases o with
  | error e => cases hcode
  | ok u =>
      obtain ⟨neg, r, hneg, ⟨g, s, hg, hread⟩, hwritten, hprinted⟩ := hhist
      exact ⟨neg, g, s, r, hneg, hg, hwritten, hread, hprinted⟩

/-- A client against any server and any I/O failure.  Without a mode, a UDP rate or the
    file's length it has not dialled: it is at its start, or has returned that error, and
    nothing is sent and no connection opened.  What is sent is the
    script, in order and never ahead of the answer it follows: the request after a Welcome
    that accepts it with its nonce, Run after Start as well, and no connection is
    opened and no datagram sent before Run, nor Stop sent while the drive runs.
    The process exits with success only on the whole script answered in order,
    and prints a result then and only then, the one it was sent. -/
theorem client_exchange (h : Launched launch w) :
    (∀ e, launch.cli.request launch.fileLen = .error e →
      (w.point = .resolving ∨ w.point = .returned (.error e)) ∧ w.ctrl.written = [] ∧
      w.net.conns = [] ∧ w.net.dgrams = []) ∧
    (∀ neg, launch.cli.request launch.fileLen = .ok neg → w.ctrl.written <+: script neg) ∧
    InOrder w.ctrl.read w.ctrl.written ∧
    (.run ∉ w.ctrl.written → w.net.conns = [] ∧ w.net.dgrams = []) ∧
    (∀ neg s d, w.point = .talking neg (.driving s d) → .stop ∉ w.ctrl.written) ∧
    (∀ o, w.point = .returned o → exitCode o = .SUCCESS →
      ∃ neg g s r, launch.cli.request launch.fileLen = .ok neg ∧ g.Agrees ∧
        w.ctrl.written = script neg ∧
        w.ctrl.read = [.ok (.welcome g), .ok (.start s), .ok (.result r)] ∧
        w.printed = some r) ∧
    ∀ r, w.printed = some r → w.point = .returned (.ok ()) := by
  have htraced := h.traced
  refine ⟨fun e he => ?_, fun neg => h.request_ok, htraced.order, htraced.quiet,
    fun neg s d hp => ?_, fun o => h.success, fun r => h.printed⟩
  · obtain ⟨hpoint, hwritten⟩ := h.request_error he
    obtain ⟨hconns, hdgrams⟩ := htraced.quiet (by simp [hwritten])
    exact ⟨hpoint, hwritten, hconns, hdgrams⟩
  · have hhist := htraced.history
    rw [hp] at hhist
    exact hhist.2.2.1.driving.2

end Steps

/-- A client started with `--file` on an empty file and `--null-source`. -/
def emptyFile : Launch where
  cli := ⟨⟨false, false, some "empty"⟩, ⟨some .file, 10, 1, false, none, 1472, true, false⟩, rfl⟩
  fileLen _ := .ok 0
  cap := 1

/-- Its request. -/
def emptyRequest : Negotiate := { fiveBytes with parallel := 1, fileLen := some 0 }

/-- The answers of a server that has received nothing in no time. -/
def emptyAnswers : List Msg :=
  [.welcome (welcomeTo clientHello), .start ⟨5202, SERVER_SEED⟩,
    .result ⟨.receive, 0, 0, 0, 0, none, none, none, none, none, []⟩]

/-- That client with its answers on the way. -/
def Process.answered : Process :=
  { Process.init with
    point := .talking emptyRequest .greeting
    ctrl := { Ctrl.init with inbox := emptyAnswers.map .ok, closed := true } }

theorem answered_launched : Launched emptyFile .answered := by
  have hinit : Launched emptyFile .init := Reachable.start rfl
  have hrequest : emptyFile.cli.request emptyFile.fileLen = .ok emptyRequest := rfl
  have hresolve := hinit.next (.inl (.inl (.resolve rfl hrequest)))
  have hdial := hresolve.next (.inl (.inl (.dial rfl)))
  have hwelcome := hdial.next (.inr (.send (.ok (.welcome (welcomeTo clientHello))) rfl))
  have hstart := hwelcome.next (.inr (.send (.ok (.start ⟨5202, SERVER_SEED⟩)) rfl))
  have hresult := hstart.next (.inr (.send
    (.ok (.result ⟨.receive, 0, 0, 0, 0, none, none, none, none, none, []⟩)) rfl))
  exact hresult.next (.inr .close)

/-- It runs to its end. -/
theorem emptyFile_returned :
    ∃ w, Launched emptyFile w ∧ w.point = .returned (.ok ()) := by
  have hello := answered_launched.next (.inl (.inl (.write rfl rfl)))
  have welcome := hello.next (.inl (.inl (.read rfl rfl rfl)))
  have request := welcome.next (.inl (.inl (.write rfl rfl)))
  have start := request.next (.inl (.inl (.read rfl rfl rfl)))
  have run := start.next (.inl (.inl (.write rfl rfl)))
  have connect := run.next (.inl (.inl (.drive rfl (.file (.connect trivial)))))
  have copied := connect.next (.inl (.inl (.drive rfl (.file (.finish (by decide) rfl)))))
  have stopping := copied.next (.inl (.inl (.driven rfl trivial)))
  have stop := stopping.next (.inl (.inl (.write rfl rfl)))
  have result := stop.next (.inl (.inl (.read rfl rfl rfl)))
  exact ⟨_, result.next (.inl (.inl (.print rfl))), rfl⟩

/-- It has sent its script and printed what it was sent. -/
theorem client_exchange_emptyFile :
    ∃ w, Launched emptyFile w ∧ w.ctrl.written = script emptyRequest ∧ w.printed.isSome := by
  obtain ⟨w, hw, hreturned⟩ := emptyFile_returned
  obtain ⟨-, -, -, -, -, hsuccess, -⟩ := client_exchange hw
  obtain ⟨neg, g, s, r, hneg, -, hwritten, -, hprinted⟩ := hsuccess _ hreturned rfl
  obtain rfl : emptyRequest = neg := Except.ok.inj hneg
  exact ⟨w, hw, hwritten, by rw [hprinted]; rfl⟩

end Andri

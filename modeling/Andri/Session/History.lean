/-
  Andri.Session.History

  What a session has read and written, at every program point and against any
  peer.  `Exchanged` lists the pairs of inputs consumed and messages written
  that a session can have behind it; `PhaseHistory` pins the pair down at each
  phase.  Both are carried over every step, and the order of the server's
  output is read off from them.
-/
import Andri.Session.Server

namespace Andri

open Lib

/-- The histories a session can have: inputs read, messages written. -/
inductive Exchanged : List Input → List Msg → Prop
  | silent (read : List Input) : Exchanged read []
  | rejectedGreeting {m : Msg} (hm : ∀ h, m ≠ .hello h) :
      Exchanged [.ok m] [.error .unexpectedMessage]
  | welcomed (h : Hello) (rest : List Input) :
      Exchanged (.ok (.hello h) :: rest) [.welcome (welcomeTo h)]
  | rejectedVersion {h : Hello} (hv : accepts h = false) :
      Exchanged [.ok (.hello h)] [.welcome (welcomeTo h), .error .versionMismatch]
  | rejectedRequest {h : Hello} {m : Msg} (hv : accepts h = true) (hm : ∀ n, m ≠ .negotiate n) :
      Exchanged [.ok (.hello h), .ok m] [.welcome (welcomeTo h), .error .unexpectedMessage]
  | started {h : Hello} (hv : accepts h = true) (n : Negotiate) (rest : List Input) (s : Start) :
      Exchanged (.ok (.hello h) :: .ok (.negotiate n) :: rest) [.welcome (welcomeTo h), .start s]
  | rejectedRun {h : Hello} {m : Msg} (hv : accepts h = true) (n : Negotiate) (s : Start)
      (hm : m ≠ .run) :
      Exchanged [.ok (.hello h), .ok (.negotiate n), .ok m]
        [.welcome (welcomeTo h), .start s, .error .unexpectedMessage]
  | reported {h : Hello} (hv : accepts h = true) (n : Negotiate) (s : Start) (x : Input)
      (r : TestResult) :
      Exchanged [.ok (.hello h), .ok (.negotiate n), .ok .run, x]
        [.welcome (welcomeTo h), .start s, .result r]

/-- Control inputs a data path has consumed as its Stop. -/
def DataPath.stopReads : DataPath → ℕ
  | .tcp (.accepting _) => 0
  | .tcp (.measuring t) => match t.main with | .awaitingStop => 0 | _ => 1
  | .tcp (.returned _) => 1
  | .udp .starting => 0
  | .udp (.selecting _) => 0
  | .udp (.stopped _) => 1
  | .udp (.returned _) => 1
  | .file _ => 0

/-- The history behind each phase. -/
def PhaseHistory (phase : Phase) (read : List Input) (written : List Msg) : Prop :=
  match phase with
  | .greeting => read = [] ∧ written = []
  | .welcoming h => read = [.ok (.hello h)] ∧ written = []
  | .rejecting err => Exchanged read (written ++ [.error err])
  | .negotiating => ∃ h, accepts h = true ∧ read = [.ok (.hello h)] ∧
      written = [.welcome (welcomeTo h)]
  | .binding n | .starting n _ => ∃ h, accepts h = true ∧
      read = [.ok (.hello h), .ok (.negotiate n)] ∧ written = [.welcome (welcomeTo h)]
  | .connecting n => ∃ h s, accepts h = true ∧
      read = [.ok (.hello h), .ok (.negotiate n)] ∧ written = [.welcome (welcomeTo h), .start s]
  | .running n path => ∃ h s rest, accepts h = true ∧
      read = .ok (.hello h) :: .ok (.negotiate n) :: .ok .run :: rest ∧
      rest.length = path.stopReads ∧ path.mode = n.mode ∧
      written = [.welcome (welcomeTo h), .start s]
  | .draining _ => ∃ h n s, accepts h = true ∧ n.mode = .file ∧
      read = [.ok (.hello h), .ok (.negotiate n), .ok .run] ∧
      written = [.welcome (welcomeTo h), .start s]
  | .reporting _ => ∃ h n s x, accepts h = true ∧
      read = [.ok (.hello h), .ok (.negotiate n), .ok .run, x] ∧
      written = [.welcome (welcomeTo h), .start s]
  | .closed => Exchanged read written
  | .panicked => False

/-- The socket of the negotiated mode is bound, and no other. -/
def Session.Bound (s : Session) (n : Negotiate) : Prop :=
  match n.mode with
  | .udp => s.tcpData = none ∧ s.udpData.isSome
  | .tcp | .file => s.tcpData.isSome ∧ s.udpData = none

/-- The request a phase works for once its socket is bound. -/
def Phase.request : Phase → Option Negotiate
  | .starting n _ => some n
  | .connecting n => some n
  | .running n _ => some n
  | _ => none

/-- The history invariant of a session. -/
structure History (w : World) : Prop where
  phase : PhaseHistory w.session.phase w.ctrl.read w.ctrl.written
  bound : ∀ n, w.session.phase.request = some n → w.session.Bound n
  socket : w.session.tcpData.isSome ∨ w.session.udpData.isSome →
    ∃ h n rest, accepts h = true ∧ w.ctrl.read = .ok (.hello h) :: .ok (.negotiate n) :: rest

theorem history_init : History World.init where
  phase := ⟨rfl, rfl⟩
  bound n h := by cases h
  socket h := by simp [World.init] at h

/-- No port is announced before it is bound. -/
theorem History.start_notMem {w : World} (h : History w) {n : Negotiate}
    (hp : w.session.phase = .binding n) (s : Start) : .start s ∉ w.ctrl.written := by
  have hphase := h.phase
  rw [hp] at hphase
  obtain ⟨g, -, -, hwritten⟩ := hphase
  rw [hwritten, List.mem_singleton]
  exact Msg.noConfusion

/-! ## Steps of the data paths keep their mode and their place in the inputs -/

theorem DataStep.mode_eq {neg : Negotiate} {net net' : Net} {path path' : DataPath}
    (h : DataStep neg net path net' path') : path'.mode = path.mode := by
  cases h <;> rfl

theorem DataStep.stopReads_eq {neg : Negotiate} {net net' : Net} {path path' : DataPath}
    (h : DataStep neg net path net' path') : path'.stopReads = path.stopReads := by
  cases h with
  | tcp h => cases h <;> simp_all [DataPath.stopReads, Tcp.Tasks.spawn]
  | udp h => cases h <;> rfl
  | file h => rfl

/-- A TCP or UDP data path returns only after it has read its Stop. -/
theorem DataPath.stopReads_of_returned {path : DataPath} {r : TestResult}
    (h : path.returned = some r) (hmode : path.mode ≠ .file) : path.stopReads = 1 := by
  cases path with
  | tcp s => cases s <;> simp_all [DataPath.returned, DataPath.stopReads]
  | udp s => cases s <;> simp_all [DataPath.returned, DataPath.stopReads]
  | file s => exact absurd rfl hmode

/-! ## One step at a time -/

section Steps

variable {w : World}

/-- With the socket bound, the dispatch enters the negotiated mode's path. -/
theorem dispatch_eq {s : Session} {n : Negotiate} (h : s.Bound n) :
    dispatch s n = .running n (.entry n.mode) := by
  unfold Session.Bound at h
  cases hmode : n.mode <;> simp only [hmode] at h <;> simp [dispatch, hmode, h, DataPath.entry]

theorem DataPath.mode_entry (m : Mode) : (DataPath.entry m).mode = m := by
  cases m <;> rfl

theorem DataPath.stopReads_entry (m : Mode) : (DataPath.entry m).stopReads = 0 := by
  cases m <;> rfl

/-- A read goes on with the request already being worked for. -/
theorem OnRead.request {s : Session} {x : Input} {p : Phase} {n : Negotiate} (h : OnRead s x p)
    (hn : p.request = some n) : s.phase.request = some n := by
  cases h with
  | run hs =>
      rw [hs]
      rcases dispatch_cases s _ with hd | hd <;> rw [hd] at hn <;> cases hn
      rfl
  | tcpStop hs | udpStop hs =>
      rw [hs]
      exact hn
  | hello | negotiate | unexpected | failed | drained => cases hn

/-- The history behind the phase a read leads to. -/
theorem OnRead.history {s : Session} {x : Input} {p : Phase} {read : List Input}
    {written : List Msg} (h : OnRead s x p) (hphase : PhaseHistory s.phase read written)
    (hbound : ∀ n, s.phase.request = some n → s.Bound n) :
    PhaseHistory p (read ++ [x]) written := by
  cases h with
  | hello hs =>
      rw [hs] at hphase
      obtain ⟨rfl, rfl⟩ := hphase
      exact ⟨rfl, rfl⟩
  | negotiate hs =>
      rw [hs] at hphase
      obtain ⟨g, hv, rfl, rfl⟩ := hphase
      exact ⟨g, hv, rfl, rfl⟩
  | @run n hs =>
      rw [dispatch_eq (hbound n (by rw [hs]; rfl))]
      rw [hs] at hphase
      obtain ⟨g, st, hv, rfl, rfl⟩ := hphase
      exact ⟨g, st, [], hv, rfl, (DataPath.stopReads_entry _).symm, DataPath.mode_entry _, rfl⟩
  -- a message out of sequence meets one of the three waits before the data path
  | @unexpected q m hs hq hm =>
      rcases Phase.wait_cases hs hq with ⟨rfl, hp⟩ | ⟨rfl, hp⟩ | ⟨rfl, n, hp⟩ <;> rw [hp] at hphase
      · obtain ⟨rfl, rfl⟩ := hphase
        exact .rejectedGreeting fun g hg => hm (by rw [hg]; trivial)
      · obtain ⟨g, hv, rfl, rfl⟩ := hphase
        exact .rejectedRequest hv fun n hn => hm (by rw [hn]; trivial)
      · obtain ⟨g, st, hv, rfl, rfl⟩ := hphase
        exact .rejectedRun hv n st fun hr => hm (by rw [hr]; trivial)
  | @failed q e hs hq =>
      rcases Phase.wait_cases hs hq with ⟨-, hp⟩ | ⟨-, hp⟩ | ⟨-, n, hp⟩ <;> rw [hp] at hphase
      · obtain ⟨rfl, rfl⟩ := hphase
        exact .silent _
      · obtain ⟨g, hv, rfl, rfl⟩ := hphase
        exact .welcomed g _
      · obtain ⟨g, st, hv, rfl, rfl⟩ := hphase
        exact .started hv n _ st
  -- the `stop` future takes one more input, whatever it is
  | tcpStop hs hmain =>
      rw [hs] at hphase
      obtain ⟨g, st, rest, hv, rfl, hlen, hmode, rfl⟩ := hphase
      refine ⟨g, st, rest ++ [x], hv, rfl, ?_, hmode, rfl⟩
      rw [List.length_append, hlen]
      simp [DataPath.stopReads, hmain]
  | udpStop hs =>
      rw [hs] at hphase
      obtain ⟨g, st, rest, hv, rfl, hlen, hmode, rfl⟩ := hphase
      refine ⟨g, st, rest ++ [x], hv, rfl, ?_, hmode, rfl⟩
      rw [List.length_append, hlen]
      rfl
  | drained hs =>
      rw [hs] at hphase
      obtain ⟨g, n, st, hv, -, rfl, rfl⟩ := hphase
      exact ⟨g, n, st, x, hv, rfl, rfl⟩

/-- The reading phases, and what each makes of an input. -/
theorem History.read (h : History w) {x : Input} {c' : Ctrl} {p : Phase}
    (htake : w.ctrl.take = some (x, c')) (hp : w.session.onRead x = some p) :
    History { w.goto p with ctrl := c' } := by
  obtain ⟨hread, hwritten, -⟩ := Ctrl.take_frame htake
  obtain ⟨hphase, hbound, hsocket⟩ := h
  have hcases := Session.onRead_cases hp
  refine ⟨?_, fun n hn => hbound n (hcases.request hn), fun hs => ?_⟩
  · show PhaseHistory p c'.read c'.written
    rw [hread, hwritten]
    exact hcases.history hphase hbound
  · obtain ⟨g, n, rest, hv, hr⟩ := hsocket hs
    exact ⟨g, n, rest ++ [x], hv, by show c'.read = _; rw [hread, hr]; rfl⟩

/-- A history cut short by a failing write is one as well. -/
theorem Exchanged.of_append {read : List Input} {written : List Msg} {m : Msg}
    (h : Exchanged read (written ++ [m])) : Exchanged read written := by
  -- each history without its last message
  generalize hall : written ++ [m] = all at h
  have hcut : written = all.dropLast := by rw [← hall, List.dropLast_concat]
  subst hcut
  cases h with
  | silent | rejectedGreeting => exact .silent _
  | welcomed h rest => exact .silent _
  | rejectedVersion hv => exact .welcomed _ _
  | rejectedRequest hv hm => exact .welcomed _ _
  | started hv n rest s => exact .welcomed _ _
  | rejectedRun hv n s hm => exact .started hv n _ s
  | reported hv n s x r => exact .started hv n _ s

/-- The writing phases, and what each has written next. -/
theorem History.write (h : History w) {m : Msg} {p : Phase}
    (hp : w.session.phase.onWrite = some (m, p)) :
    History { w.goto p with ctrl := w.ctrl.put m } := by
  obtain ⟨hphase, hbound, hsocket⟩ := h
  refine ⟨?_, fun n hn => hbound n ?_, hsocket⟩
  · show PhaseHistory p w.ctrl.read (w.ctrl.written ++ [m])
    cases Phase.onWrite_cases hp with
    | @welcome g hs hv =>
        rw [hs] at hphase
        obtain ⟨hr, hw⟩ := hphase
        rw [hr, hw]
        exact ⟨g, hv, rfl, rfl⟩
    | @turnedAway g hs hv =>
        rw [hs] at hphase
        obtain ⟨hr, hw⟩ := hphase
        rw [hr, hw]
        exact .rejectedVersion hv
    | error hs =>
        rw [hs] at hphase
        exact hphase
    | start hs =>
        rw [hs] at hphase
        obtain ⟨g, hv, hr, hw⟩ := hphase
        rw [hr, hw]
        exact ⟨g, _, hv, rfl, rfl⟩
    | @result r hs =>
        rw [hs] at hphase
        obtain ⟨g, n, s, x, hv, hr, hw⟩ := hphase
        rw [hr, hw]
        exact .reported hv n s x r
  · cases Phase.onWrite_cases hp with
    | start hs =>
        rw [hs]
        exact hn
    | welcome | turnedAway | error | result => cases hn

/-- The bind leaves the negotiated mode's socket bound. -/
theorem History.bind (h : History w) {n : Negotiate} (hp : w.session.phase = .binding n)
    (port : U16) : History { w with session := bindData n port } := by
  obtain ⟨hphase, -, -⟩ := h
  rw [hp] at hphase
  obtain ⟨g, hv, hr, hw⟩ := hphase
  refine ⟨?_, ?_, fun _ => ⟨g, n, [], hv, hr⟩⟩
  · show PhaseHistory (bindData n port).phase w.ctrl.read w.ctrl.written
    rw [bindData_phase]
    exact ⟨g, hv, hr, hw⟩
  · intro n' hn'
    have hreq : (bindData n port).phase.request = some n' := hn'
    rw [bindData_phase] at hreq
    cases hreq
    unfold Session.Bound bindData
    cases n.mode <;> exact ⟨rfl, rfl⟩

theorem History.data (h : History w) {n : Negotiate} {path path' : DataPath} {net' : Net}
    (hp : w.session.phase = .running n path) (hstep : DataStep n w.net path net' path') :
    History { w.goto (.running n path') with net := net' } := by
  obtain ⟨hphase, hbound, hsocket⟩ := h
  rw [hp] at hphase
  obtain ⟨g, s, rest, hv, hr, hlen, hmode, hw⟩ := hphase
  refine ⟨⟨g, s, rest, hv, hr, ?_, ?_, hw⟩, ?_, hsocket⟩
  · rw [hlen, hstep.stopReads_eq]
  · rw [hstep.mode_eq, hmode]
  · intro n' hn'
    exact hbound n' (by rw [hp]; exact hn')

theorem History.finish (h : History w) {n : Negotiate} {path : DataPath} {r : TestResult}
    (hp : w.session.phase = .running n path) (hr : path.returned = some r) :
    History (w.goto (afterData path r)) := by
  obtain ⟨hphase, -, hsocket⟩ := h
  rw [hp] at hphase
  obtain ⟨g, s, rest, hv, hread, hlen, hmode, hw⟩ := hphase
  -- a file has read nothing in place of Stop yet, the other modes one input
  by_cases hfile : path.mode = .file
  · cases path with
    | file f =>
        have hrest : rest = [] := List.eq_nil_of_length_eq_zero hlen
        subst hrest
        exact ⟨⟨g, n, s, hv, by rw [← hmode, hfile], hread, hw⟩, fun n' hn' => (by cases hn'),
          hsocket⟩
    | tcp | udp => cases hfile
  · rw [path.stopReads_of_returned hr hfile] at hlen
    obtain ⟨x, rfl⟩ := List.length_eq_one_iff.mp hlen
    have hafter : afterData path r = .reporting r := by
      cases path with
      | file f => exact absurd rfl hfile
      | tcp | udp => rfl
    rw [hafter]
    exact ⟨⟨g, n, s, x, hv, hread, hw⟩, fun n' hn' => (by cases hn'), hsocket⟩

/-- A failing I/O call leaves what was exchanged until then. -/
theorem History.fail (h : History w) (hf : w.session.phase.FallibleIo) :
    History (w.goto .closed) := by
  obtain ⟨hphase, -, hsocket⟩ := h
  refine ⟨?_, fun n hn => (by cases hn), hsocket⟩
  show Exchanged w.ctrl.read w.ctrl.written
  -- only the phases with I/O of their own can fail
  cases hcase : w.session.phase with
  | welcoming g =>
      rw [hcase] at hphase
      rw [hphase.2]
      exact .silent _
  | rejecting err =>
      rw [hcase] at hphase
      exact Exchanged.of_append hphase
  | binding n | starting n port =>
      rw [hcase] at hphase
      obtain ⟨g, hv, hr, hw⟩ := hphase
      rw [hr, hw]
      exact .welcomed g _
  | running n path =>
      rw [hcase] at hphase
      obtain ⟨g, s, rest, hv, hr, -, -, hw⟩ := hphase
      rw [hr, hw]
      exact .started hv n _ s
  | reporting r =>
      rw [hcase] at hphase
      obtain ⟨g, n, s, x, hv, hr, hw⟩ := hphase
      rw [hr, hw]
      exact .started hv n _ s
  | greeting | negotiating | connecting n | draining r | closed | panicked =>
      rw [hcase] at hf
      exact hf.elim

/-- The peer changes neither the session nor what was exchanged. -/
theorem PeerStep.frame {w' : World} (h : PeerStep w w') :
    w'.session = w.session ∧ w'.ctrl.read = w.ctrl.read ∧ w'.ctrl.written = w.ctrl.written := by
  cases h <;> exact ⟨rfl, rfl, rfl⟩

theorem History.peer {w' : World} (h : History w) (hstep : PeerStep w w') : History w' := by
  obtain ⟨hsession, hread, hwritten⟩ := hstep.frame
  obtain ⟨hphase, hbound, hsocket⟩ := h
  refine ⟨?_, ?_, ?_⟩
  · rw [hsession, hread, hwritten]
    exact hphase
  · rw [hsession]
    exact hbound
  · rw [hsession, hread]
    exact hsocket

end Steps

theorem History.server {w w' : World} (h : History w) (hstep : ServerStep w w') : History w' := by
  cases hstep with
  | read htake hp => exact h.read htake hp
  | write hp => exact h.write hp
  | bind hp port => exact h.bind hp port
  | data hp hstep => exact h.data hp hstep
  | finish hp hr => exact h.finish hp hr

theorem History.step {w w' : World} (h : History w) (hstep : Step w w') : History w' := by
  rcases hstep with hserver | hfail | hpeer
  · exact h.server hserver
  · cases hfail with
    | fail hf => exact h.fail hf
  · exact h.peer hpeer

/-- Every session keeps its history invariant, against any peer. -/
theorem SessionReachable.history {w : World} (h : SessionReachable w) : History w :=
  Reachable.invariant h (fun _ hinit => hinit ▸ history_init) fun _ _ hI hstep => hI.step hstep

end Andri

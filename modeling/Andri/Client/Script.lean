/-
  Andri.Client.Script

  The control exchange as the client scripts it: four messages, one for each wait
  of the session.  A session whose inputs are a part of the script has written a
  part of the three answers, and how far it is follows from its phase.
-/
import Andri.Client.Connect
import Andri.Session.Output

namespace Andri

open Lib

/-- Everything a client sends on the control connection. -/
def script (neg : Negotiate) : List Msg := [.hello clientHello, .negotiate neg, .run, .stop]

/-- The server's answers to the script. -/
inductive Answers : List Msg → Prop
  | silent : Answers []
  | welcomed : Answers [.welcome (welcomeTo clientHello)]
  | started (s : Start) : Answers [.welcome (welcomeTo clientHello), .start s]
  | reported (s : Start) (r : TestResult) :
      Answers [.welcome (welcomeTo clientHello), .start s, .result r]

/-! ## Where the session is in the script -/

/-- Messages of the script a phase has behind it. -/
def Phase.reads : Phase → ℕ
  | .greeting => 0
  | .welcoming _ | .negotiating => 1
  | .binding _ | .starting _ _ | .connecting _ => 2
  | .running _ path => 3 + path.stopReads
  | .draining _ => 3
  | .reporting _ | .closed => 4
  | .rejecting _ | .panicked => 0

/-- Messages a phase has written. -/
def Phase.writes : Phase → ℕ
  | .greeting | .welcoming _ => 0
  | .negotiating | .binding _ | .starting _ _ => 1
  | .connecting _ | .running _ _ | .draining _ | .reporting _ => 2
  | .closed => 3
  | .rejecting _ | .panicked => 0

/-- The request a phase has read. -/
def Phase.negotiated : Phase → Option Negotiate
  | .binding n | .starting n _ | .connecting n | .running n _ => some n
  | _ => none

/-- Away from its end a session has read and written what its phase says. -/
theorem PhaseHistory.lengths {p : Phase} {read : List Input} {written : List Msg}
    (h : PhaseHistory p read written) (hclosed : p ≠ .closed) (hrej : ∀ e, p ≠ .rejecting e) :
    read.length = p.reads ∧ written.length = p.writes := by
  cases p with
  | greeting | welcoming =>
      obtain ⟨rfl, rfl⟩ := h
      exact ⟨rfl, rfl⟩
  | negotiating | binding | starting =>
      obtain ⟨g, -, rfl, rfl⟩ := h
      exact ⟨rfl, rfl⟩
  | connecting =>
      obtain ⟨g, s, -, rfl, rfl⟩ := h
      exact ⟨rfl, rfl⟩
  | running n path =>
      obtain ⟨g, s, rest, -, rfl, hlen, -, rfl⟩ := h
      refine ⟨?_, rfl⟩
      simp only [List.length_cons, hlen, Phase.reads]
      omega
  | draining =>
      obtain ⟨g, n, s, -, -, rfl, rfl⟩ := h
      exact ⟨rfl, rfl⟩
  | reporting =>
      obtain ⟨g, n, s, x, -, rfl, rfl⟩ := h
      exact ⟨rfl, rfl⟩
  | rejecting err => exact absurd rfl (hrej err)
  | closed => exact absurd rfl hclosed
  | panicked => exact h.elim

/-- The request worked for was read. -/
theorem PhaseHistory.request_mem {p : Phase} {n : Negotiate} {read : List Input}
    {written : List Msg} (h : PhaseHistory p read written) (hn : p.negotiated = some n) :
    .ok (.negotiate n) ∈ read := by
  cases p with
  | binding | starting =>
      obtain ⟨g, -, rfl, -⟩ := h
      cases hn
      simp
  | connecting =>
      obtain ⟨g, s, -, rfl, -⟩ := h
      cases hn
      simp
  | running =>
      obtain ⟨g, s, rest, -, rfl, -⟩ := h
      cases hn
      simp
  | greeting | welcoming | rejecting | negotiating | draining | reporting | closed | panicked =>
      cases hn

/-- Only a file's session drains. -/
theorem PhaseHistory.draining_mem {r : TestResult} {read : List Input} {written : List Msg}
    (h : PhaseHistory (.draining r) read written) :
    ∃ n : Negotiate, n.mode = .file ∧ .ok (.negotiate n) ∈ read := by
  obtain ⟨g, n, s, -, hmode, rfl, -⟩ := h
  exact ⟨n, hmode, by simp⟩

/-! ## Along the script -/

/-- A prefix grows by the element that comes next. -/
theorem concat_prefix {α : Type*} {l all : List α} {a : α} (h : l <+: all)
    (ha : all[l.length]? = some a) : l ++ [a] <+: all := by
  obtain ⟨tail, rfl⟩ := h
  rw [List.getElem?_append_right le_rfl, Nat.sub_self] at ha
  cases tail with
  | nil => cases ha
  | cons b tail =>
      cases ha
      exact ⟨tail, by simp⟩

section Script

variable {neg : Negotiate} {read : List Input} {written : List Msg} {p : Phase}

theorem negotiate_of_mem_script {n : Negotiate} (h : .negotiate n ∈ script neg) : n = neg := by
  simpa [script] using h

/-- What was read is in the script. -/
theorem mem_script_of_read (hr : read <+: (script neg).map .ok) {m : Msg} (hm : .ok m ∈ read) :
    m ∈ script neg := by
  have hmem := hr.subset hm
  simpa using hmem

/-- Along the script nothing is rejected, and the Result answers all of it. -/
theorem Exchanged.answers (h : Exchanged read written) (hr : read <+: (script neg).map .ok) :
    Answers written ∧ (written.length = 3 → read.length = 4) := by
  -- every refusal has read what the script does not have at that place
  simp only [script, List.map_cons, List.map_nil] at hr
  cases h with
  | silent => exact ⟨.silent, fun h => by simp at h⟩
  | rejectedGreeting hm =>
      simp only [List.cons_prefix_cons, Except.ok.injEq] at hr
      exact absurd hr.1 (hm _)
  | welcomed g tail =>
      simp only [List.cons_prefix_cons, Except.ok.injEq, Msg.hello.injEq] at hr
      obtain ⟨rfl, -⟩ := hr
      exact ⟨.welcomed, fun h => by simp at h⟩
  | rejectedVersion hv =>
      simp only [List.cons_prefix_cons, Except.ok.injEq, Msg.hello.injEq] at hr
      obtain ⟨rfl, -⟩ := hr
      cases hv
  | rejectedRequest hv hm =>
      simp only [List.cons_prefix_cons, Except.ok.injEq] at hr
      exact absurd hr.2.1 (hm _)
  | started hv n tail s =>
      simp only [List.cons_prefix_cons, Except.ok.injEq, Msg.hello.injEq] at hr
      obtain ⟨rfl, -⟩ := hr
      exact ⟨.started s, fun h => by simp at h⟩
  | rejectedRun hv n s hm =>
      simp only [List.cons_prefix_cons, Except.ok.injEq] at hr
      exact absurd hr.2.2.1 hm
  | reported hv n s x r =>
      simp only [List.cons_prefix_cons, Except.ok.injEq, Msg.hello.injEq] at hr
      obtain ⟨rfl, -⟩ := hr
      exact ⟨.reported s r, fun _ => rfl⟩

/-- A session that reads the script rejects nothing. -/
theorem PhaseHistory.not_rejecting (h : PhaseHistory p read written)
    (hr : read <+: (script neg).map .ok) (err : ProtoError) : p ≠ .rejecting err := by
  rintro rfl
  obtain ⟨hall, -⟩ := Exchanged.answers h hr
  -- no Error is among the answers to the script
  generalize hw : written ++ [.error err] = all at hall
  have hmem : Msg.error err ∈ all := by simp [← hw]
  cases hall <;> simp at hmem

end Script

end Andri

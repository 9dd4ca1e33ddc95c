/-
  Andri.Session.Output

  The server's output against any client.  Whatever the peer sends, the messages
  written are a prefix of one of five sequences, tied to the inputs read:
  `Welcome` answers the first Hello, `Start` and the data socket follow an
  accepted Hello and a Negotiate, the data path follows Run and is the
  negotiated mode's.
-/
import Andri.Session.Handshake
import Andri.Session.History
import Mathlib.Data.List.Infix

namespace Andri

open Lib

/-- The complete outputs of a session. -/
inductive OutputShape : List Msg → Prop
  | rejectedGreeting : OutputShape [.error .unexpectedMessage]
  | rejectedVersion {wl : Welcome} (hw : wl.accepted = false) :
      OutputShape [.welcome wl, .error .versionMismatch]
  | rejectedRequest {wl : Welcome} (hw : wl.accepted = true) :
      OutputShape [.welcome wl, .error .unexpectedMessage]
  | rejectedRun {wl : Welcome} (hw : wl.accepted = true) (s : Start) :
      OutputShape [.welcome wl, .start s, .error .unexpectedMessage]
  | reported {wl : Welcome} (hw : wl.accepted = true) (s : Start) (r : TestResult) :
      OutputShape [.welcome wl, .start s, .result r]

/-- The messages after which a session writes nothing. -/
def Msg.Terminal : Msg → Prop
  | .error _ => True
  | .result _ => True
  | _ => False

/-! ## Reading a history -/

section Exchanged

variable {read : List Input} {written : List Msg}

theorem Exchanged.shape (h : Exchanged read written) :
    ∃ shape, OutputShape shape ∧ written <+: shape := by
  cases h with
  | silent => exact ⟨_, .rejectedGreeting, List.nil_prefix⟩
  | rejectedGreeting hm => exact ⟨_, .rejectedGreeting, List.prefix_refl _⟩
  | welcomed h rest =>
      cases hv : accepts h
      · have hw : (welcomeTo h).accepted = false := hv
        exact ⟨_, .rejectedVersion hw, [_], rfl⟩
      · have hw : (welcomeTo h).accepted = true := hv
        exact ⟨_, .rejectedRequest hw, [_], rfl⟩
  | rejectedVersion hv => exact ⟨_, .rejectedVersion hv, List.prefix_refl _⟩
  | rejectedRequest hv hm => exact ⟨_, .rejectedRequest hv, List.prefix_refl _⟩
  | started hv n rest s => exact ⟨_, .rejectedRun hv s, [_], rfl⟩
  | rejectedRun hv n s hm => exact ⟨_, .rejectedRun hv s, List.prefix_refl _⟩
  | reported hv n s x r => exact ⟨_, .reported hv s r, List.prefix_refl _⟩

/-- A Welcome written is the reply to the Hello read first. -/
theorem Exchanged.welcome (h : Exchanged read written) {wl : Welcome}
    (hw : .welcome wl ∈ written) :
    ∃ hello rest, read = .ok (.hello hello) :: rest ∧ wl = welcomeTo hello := by
  cases h with
  | silent | rejectedGreeting => simp at hw
  | welcomed | rejectedVersion | rejectedRequest | started | rejectedRun | reported =>
      simp at hw
      exact ⟨_, _, rfl, hw⟩

/-- A Start written follows an accepted Hello and a Negotiate. -/
theorem Exchanged.start (h : Exchanged read written) {s : Start} (hs : .start s ∈ written) :
    ∃ hello neg rest, accepts hello = true ∧
      read = .ok (.hello hello) :: .ok (.negotiate neg) :: rest := by
  cases h with
  | silent | rejectedGreeting | welcomed | rejectedVersion | rejectedRequest => simp at hs
  | started hv | rejectedRun hv | reported hv => exact ⟨_, _, _, hv, rfl⟩

end Exchanged

/-- In an output shape only the last message is terminal. -/
theorem OutputShape.not_terminal {shape : List Msg} {m : Msg} (h : OutputShape shape)
    (hm : m ∈ shape.dropLast) : ¬ m.Terminal := by
  cases h <;> simp at hm
  all_goals
    rcases hm with rfl | rfl
    all_goals exact fun hm => hm

theorem OutputShape.terminal_last {shape pre post : List Msg} {m : Msg} (h : OutputShape shape)
    (hm : m.Terminal) (hsplit : pre ++ m :: post <+: shape) : post = [] := by
  obtain ⟨t, rfl⟩ := hsplit
  cases post with
  | nil => rfl
  | cons a post =>
      -- a message with another behind it is not the shape's last
      have hmem : m ∈ (pre ++ m :: a :: post ++ t).dropLast := by
        rw [List.append_assoc, List.cons_append, List.dropLast_append_cons]
        simp
      exact absurd hm (h.not_terminal hmem)

/-- Every phase has one of the histories behind it. -/
theorem PhaseHistory.exchanged {p : Phase} {read : List Input} {written : List Msg}
    (h : PhaseHistory p read written) : Exchanged read written := by
  cases p with
  | greeting | welcoming =>
      obtain ⟨-, rfl⟩ := h
      exact .silent _
  | rejecting => exact Exchanged.of_append h
  | negotiating =>
      obtain ⟨g, -, rfl, rfl⟩ := h
      exact .welcomed g _
  | binding | starting =>
      obtain ⟨g, -, rfl, rfl⟩ := h
      exact .welcomed g _
  | connecting n =>
      obtain ⟨g, s, hv, rfl, rfl⟩ := h
      exact .started hv n _ s
  | running n path =>
      obtain ⟨g, s, rest, hv, rfl, -, -, rfl⟩ := h
      exact .started hv n _ s
  | draining =>
      obtain ⟨g, n, s, hv, -, rfl, rfl⟩ := h
      exact .started hv n _ s
  | reporting =>
      obtain ⟨g, n, s, x, hv, rfl, rfl⟩ := h
      exact .started hv n _ s
  | closed => exact h
  | panicked => exact h.elim

/-! ## The output contract -/

/-- Whatever the client does: the output is a prefix of one of the five
    sequences; Welcome echoes the nonce and is accepted exactly on a matching
    version; Start and a bound socket come after an accepted Hello and a
    Negotiate; the data path is the negotiated mode's, follows Run, and neither
    `unwrap` fails; nothing follows an Error or a Result. -/
theorem output_order_safe {w : World} (h : SessionReachable w) :
    (∃ shape, OutputShape shape ∧ w.ctrl.written <+: shape) ∧
    (∀ wl, .welcome wl ∈ w.ctrl.written → ∃ hello rest,
      w.ctrl.read = .ok (.hello hello) :: rest ∧ wl.nonce = hello.nonce ∧
      (wl.accepted = true ↔ hello.protocolVersion = PROTOCOL_VERSION)) ∧
    ((∃ s, .start s ∈ w.ctrl.written) ∨ w.session.tcpData.isSome ∨ w.session.udpData.isSome →
      ∃ hello neg rest, hello.protocolVersion = PROTOCOL_VERSION ∧
        w.ctrl.read = .ok (.hello hello) :: .ok (.negotiate neg) :: rest) ∧
    (∀ neg path, w.session.phase = .running neg path → path.mode = neg.mode ∧
      ∃ hello rest, hello.protocolVersion = PROTOCOL_VERSION ∧
        w.ctrl.read = .ok (.hello hello) :: .ok (.negotiate neg) :: .ok .run :: rest) ∧
    w.session.phase ≠ .panicked ∧
    (∀ pre m post, w.ctrl.written = pre ++ m :: post → m.Terminal → post = []) := by
  obtain ⟨hphase, -, hsocket⟩ := h.history
  have hexchanged := hphase.exchanged
  refine ⟨hexchanged.shape, ?_, ?_, ?_, ?_, ?_⟩
  -- Welcome
  · intro wl hw
    obtain ⟨hello, rest, hread, rfl⟩ := hexchanged.welcome hw
    exact ⟨hello, rest, hread, rfl, by simp [welcomeTo, accepts]⟩
  -- Start and the data socket
  · intro hs
    have hnegotiated : ∃ hello neg rest, accepts hello = true ∧
        w.ctrl.read = .ok (.hello hello) :: .ok (.negotiate neg) :: rest := by
      rcases hs with ⟨s, hs⟩ | hs
      · exact hexchanged.start hs
      · exact hsocket hs
    obtain ⟨hello, neg, rest, hv, hread⟩ := hnegotiated
    exact ⟨hello, neg, rest, by simpa [accepts] using hv, hread⟩
  -- the data path
  · intro neg path hp
    rw [hp] at hphase
    obtain ⟨hello, s, rest, hv, hread, -, hmode, -⟩ := hphase
    exact ⟨hmode, hello, rest, by simpa [accepts] using hv, hread⟩
  -- the `unwrap`s
  · intro hp
    rw [hp] at hphase
    exact hphase
  -- nothing after the last message
  · intro pre m post hw hm
    obtain ⟨shape, hshape, hprefix⟩ := hexchanged.shape
    rw [hw] at hprefix
    exact hshape.terminal_last hm hprefix

/-- The contract where a two-stream TCP session enters its data path. -/
theorem output_order_safe_twoStreams :
    (World.entered currentHello twoStreams 5000).session.phase ≠ .panicked ∧
    ∃ shape, OutputShape shape ∧
      [.welcome (welcomeTo currentHello), .start ⟨5000, SERVER_SEED⟩] <+: shape :=
  have h := output_order_safe (entered_reachable currentHello rfl twoStreams 5000)
  ⟨h.2.2.2.2.1, h.1⟩

end Andri

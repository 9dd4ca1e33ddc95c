/-
  Andri.File.Over

  What is left of a file transfer once its receive loop is over.  The loop ends
  with all bytes in, with a peer that closed early, or with the error of a
  read, which returns from `file::serve` and leaves `sample_until_done` to run on
  its own.

  The sampler stops at a tick that finds the negotiated length on the counter, and
  the counter does not move any more.  So it stops at its next tick if all
  bytes came in, and never if the loop ended any other way.
-/
import Andri.File.Accounting

namespace Andri.File

open Lib

/-- `file::serve` under way, or the sampler it has left behind when a read failed. -/
inductive Serving
  | running (s : Serve)
  | failed (t : Transfer)

/-- Steps of the tasks themselves. -/
inductive Serving.Own (neg : Negotiate) : Net × Serving → Net × Serving → Prop
  | serve {net net' : Net} {s s' : Serve} (h : Step neg net s net' s') :
      Own neg (net, .running s) (net', .running s')
  | orphan {net : Net} {t : Transfer} {clock' : ℕ} {s' : Sampler}
      (h : Sampler.Step t.t0 (expected neg) t.counter net.clock t.sampler clock' s') :
      Own neg (net, .failed t) ({ net with clock := clock' }, .failed { t with sampler := s' })

/-- Steps of the tasks, of a peer that does what it wants to the connections, and the
    read that fails. -/
inductive Serving.Move (neg : Negotiate) : Net × Serving → Net × Serving → Prop
  | own {x y : Net × Serving} (h : Own neg x y) : Move neg x y
  | readError {net : Net} {t : Transfer} {now : ℕ} (hmore : t.received < expected neg)
      (hnow : net.clock ≤ now) :
      Move neg (net, .running (.receiving t)) ({ net with clock := now }, .failed t)
  | peer {net net' : Net} {s : Serving} (h : net.Grows net') (hle : net.clock ≤ net'.clock) :
      Move neg (net, s) (net', s)

/-- A listener nothing has come to yet, and `serve` at its start. -/
def Serving.Init (x : Net × Serving) : Prop := x.1.Untouched ∧ x.2 = .running .accepting

/-- The transfer, once its receive loop is over. -/
def Serving.over : Serving → Option Transfer
  | .running (.joining t _) | .failed t => some t
  | .running _ => none

/-- The sampler has returned, and `serve` with the bytes received unless a read had
    failed. -/
def Serving.Ended (received : ℕ) : Serving → Prop
  | .running (.returned r) => r.bytes.toNat = received
  | .failed t => ∃ samples, t.sampler = .returned samples
  | .running _ => False

/-- A transfer whose loop is over finishes: the sampler's next tick is its last, and the
    tasks can come to their end. -/
structure Finishes (neg : Negotiate) (net : Net) (s : Serving) (t : Transfer) : Prop where
  tick : ∀ {l clock clock' s'}, t.sampler = .waiting l →
    Sampler.Step t.t0 (expected neg) t.counter clock t.sampler clock' s' →
    ∃ samples, s' = .returned samples
  ends : CanReach (Serving.Own neg) (fun x => x.2.Ended t.received) (net, s)

/-! ## Invariants -/

/-- The invariant of every state: a read that failed was for bytes still missing. -/
def Serving.Sound (neg : Negotiate) (net : Net) : Serving → Prop
  | .running s => s.Placed neg net ∧ s.Accounts neg
  | .failed t => t.Accounts neg ∧ t.received < expected neg

section Sound

variable {neg : Negotiate} {x y : Net × Serving}

theorem Serving.Own.sound (h : Own neg x y) (hx : x.2.Sound neg x.1) : y.2.Sound neg y.1 := by
  cases h with
  | serve h => exact ⟨h.placed hx.1, h.accounts hx.2⟩
  | orphan h => exact ⟨hx.1.sampler h, hx.2⟩

theorem Serving.Move.sound (h : Move neg x y) (hx : x.2.Sound neg x.1) :
    y.2.Sound neg y.1 := by
  cases h with
  | own h => exact h.sound hx
  | readError hmore hnow => exact ⟨hx.2, hmore⟩
  | @peer net net' s h hle =>
      cases s with
      | running s => exact ⟨Serve.Placed.grows hx.1 h, hx.2⟩
      | failed t => exact hx

theorem Serving.sound_of_reachable (h : Reachable Serving.Init (Move neg) x) :
    x.2.Sound neg x.1 := by
  refine h.invariant (I := fun x => x.2.Sound neg x.1) ?_ fun _ _ hx hm => hm.sound hx
  rintro ⟨net, s⟩ ⟨hnet, rfl⟩
  exact ⟨hnet, trivial⟩

end Sound

/-! ## A loop that ended short -/

/-- The loop is over with bytes missing. -/
def Serving.Short (neg : Negotiate) (s : Serving) : Prop :=
  ∃ t, s.over = some t ∧ t.Accounts neg ∧ t.received < expected neg

section Short

variable {neg : Negotiate} {net : Net} {s : Serving} {x y : Net × Serving} {t : Transfer}

/-- A sampler that is short of bytes has not returned. -/
theorem Transfer.Accounts.sampler_ne {samples : List Sample} (h : t.Accounts neg)
    (hshort : t.received < expected neg) : t.sampler ≠ .returned samples := by
  intro hret
  have hseries := h.series
  have hcounter := h.counter
  rw [hret] at hseries
  have hfull := hseries.1
  omega

/-- The tasks cannot bring in what is missing. -/
theorem Serving.Own.short (h : Own neg x y) (hx : x.2.Short neg) : y.2.Short neg := by
  obtain ⟨t, hover, ht, hshort⟩ := hx
  cases h with
  | serve h =>
      cases h with
      | accept | read | eof | done | samplerReceiving => cases hover
      | samplerJoining h =>
          cases hover
          exact ⟨_, rfl, ht.sampler h, hshort⟩
      | join hret =>
          cases hover
          exact absurd hret (ht.sampler_ne hshort)
  | orphan h =>
      cases hover
      exact ⟨_, rfl, ht.sampler h, hshort⟩

theorem Serving.Short.not_ended {received : ℕ} (hs : s.Short neg) : ¬ s.Ended received := by
  obtain ⟨t, hover, ht, hshort⟩ := hs
  cases s with
  | running s =>
      cases s with
      | accepting | receiving t' | returned r => cases hover
      | joining t' secs => exact id
  | failed t' =>
      cases hover
      rintro ⟨samples, hret⟩
      exact ht.sampler_ne hshort hret

/-- With bytes missing, no run of the tasks comes to an end. -/
theorem Serving.Short.not_finishes (hs : s.Short neg) : ¬ Finishes neg net s t := by
  intro h
  refine not_canReach_of_invariant (I := fun x : Net × Serving => x.2.Short neg) ?_ ?_ hs h.ends
  · exact fun _ _ hx hstep => hstep.short hx
  · exact fun _ hx => hx.not_ended

end Short

/-! ## A loop that ended with all bytes in -/

/-- `serve` on its own, as part of the tasks. -/
theorem Serving.run_of_run {neg : Negotiate} {x y : Net × Serve} (h : Run (Serve.Own neg) x y) :
    Run (Serving.Own neg) (x.1, .running x.2) (y.1, .running y.2) := by
  induction h with
  | refl => exact .refl
  | tail _ hstep ih => exact ih.tail (.serve hstep)

/-- With all bytes in, the sampler's next tick is its last, and `serve` returns. -/
theorem finishes_of_complete {neg : Negotiate} {net : Net} {t : Transfer} {secs : ℚ}
    (hplaced : (Serve.joining t secs).Placed neg net) (ht : t.Accounts neg)
    (hsupplied : Supplied neg net) : Finishes neg net (.running (.joining t secs)) t := by
  obtain ⟨c, hc, hlen⟩ := id hsupplied
  have hall : t.received = expected neg := by
    rw [hplaced.received_eq ht hc]
    exact min_eq_right hlen
  refine ⟨fun hwait hstep => ?_, ?_⟩
  · have hcounter : expected neg ≤ t.counter := by rw [ht.counter, hall]
    rw [hwait] at hstep
    cases hstep with
    | tick hnow hdue =>
        rw [if_pos hcounter]
        exact ⟨_, rfl⟩
  · obtain ⟨⟨net', s'⟩, hrun, r, hret⟩ := canReach_returned hplaced hsupplied
    have haccounts : s'.Accounts neg :=
      run_invariant (I := fun x : Net × Serve => x.2.Accounts neg)
        (fun _ _ hx hstep => Step.accounts hstep hx) hrun ht
    refine ⟨_, Serving.run_of_run hrun, ?_⟩
    cases hret
    rw [hall]
    exact haccounts.result_eq.1

/-! ## When a transfer finishes -/

/-- In every state of every run, whatever the length, the reads and the peer: a transfer
    whose receive loop is over finishes exactly when no read failed and the peer
    had sent the whole length. -/
theorem finishes_iff (neg : Negotiate) (net : Net) (s : Serving) (t : Transfer)
    (h : Reachable Serving.Init (Serving.Move neg) (net, s)) (hover : s.over = some t) :
    Finishes neg net s t ↔ (∀ t', s ≠ .failed t') ∧ Supplied neg net := by
  have hsound : s.Sound neg net := Serving.sound_of_reachable h
  cases s with
  | failed t' =>
      cases hover
      obtain ⟨haccounts, hshort⟩ := hsound
      have hs : (Serving.failed t).Short neg := ⟨t, rfl, haccounts, hshort⟩
      exact ⟨fun hfin => absurd hfin hs.not_finishes, fun hcond => absurd rfl (hcond.1 t)⟩
  | running s =>
      cases s with
      | accepting | receiving t' | returned r => cases hover
      | joining t' secs =>
          cases hover
          obtain ⟨hplaced, haccounts⟩ := hsound
          constructor
          · intro hfin
            refine ⟨by simp, ?_⟩
            obtain ⟨c, hc, ht, hcomplete⟩ := id hplaced
            -- short of the length, the loop ended early
            by_contra hnot
            have hlen : c.sent < expected neg := by
              by_contra hge
              exact hnot ⟨c, hc, by omega⟩
            have hreceived := ht.received
            have hs : (Serving.running (.joining t secs)).Short neg :=
              ⟨t, rfl, haccounts, by omega⟩
            exact hs.not_finishes hfin
          · rintro ⟨-, hsupplied⟩
            exact finishes_of_complete hplaced haccounts hsupplied

/-- A request for a file of five bytes. -/
def fiveByteFile : Negotiate where
  mode := .file
  durationSecs := 10
  warmupSecs := 0
  parallel := 1
  bufferBytes := 65536
  bidir := false
  bitrateBps := none
  packetBytes := none
  fileLen := some 5
  nullSource := some true

/-- A peer that has sent three bytes and closed, and how much of it the server has
    accepted and read. -/
def threeOfFive (accepted taken : ℕ) : Net := ⟨0, [⟨3, taken, true⟩], accepted, []⟩

/-- The transfer at the end of its loop. -/
def shortTransfer : Transfer := (Transfer.start 0).read 3

theorem reachable_shortTransfer :
    Reachable Serving.Init (Serving.Move fiveByteFile)
      (threeOfFive 1 3, .running (.joining shortTransfer (asSecsF64 (0 - 0)))) := by
  have h : Reachable Serving.Init (Serving.Move fiveByteFile)
      (threeOfFive 0 0, .running .accepting) := .start ⟨⟨rfl, by simp [threeOfFive]⟩, rfl⟩
  have h := h.next (.own (.serve (.accept (by decide) le_rfl)))
  have hread : 3 ≤ min (want fiveByteFile (.start 0)) (Conn.unread ⟨3, 0, true⟩) := by decide
  have h := h.next (.own (.serve (.read (by decide) rfl (by decide) hread)))
  exact h.next (.own (.serve (.eof (by decide) rfl rfl rfl le_rfl)))

/-- The peer closed early: `serve` waits for a sampler that goes on for ever. -/
theorem shortTransfer_stuck :
    (Serving.running (.joining shortTransfer (asSecsF64 (0 - 0)))).over = some shortTransfer ∧
    shortTransfer.received = 3 ∧
    ¬ ∀ (neg : Negotiate) (net : Net) (s : Serving) (t : Transfer),
      Reachable Serving.Init (Serving.Move neg) (net, s) → s.over = some t →
      Finishes neg net s t := by
  refine ⟨rfl, rfl, fun hall => ?_⟩
  have haccounts : shortTransfer.Accounts fiveByteFile := ⟨rfl, by decide, trivial⟩
  have hshort : (Serving.running (.joining shortTransfer (asSecsF64 (0 - 0)))).Short
      fiveByteFile := ⟨shortTransfer, rfl, haccounts, by decide⟩
  exact hshort.not_finishes (hall _ _ _ shortTransfer reachable_shortTransfer rfl)

theorem finishes_iff_shortTransfer :
    Finishes fiveByteFile (threeOfFive 1 3)
        (.running (.joining shortTransfer (asSecsF64 (0 - 0)))) shortTransfer ↔
      (∀ t', Serving.running (.joining shortTransfer (asSecsF64 (0 - 0))) ≠ .failed t') ∧
        Supplied fiveByteFile (threeOfFive 1 3) :=
  finishes_iff fiveByteFile (threeOfFive 1 3) _ shortTransfer reachable_shortTransfer rfl

end Andri.File

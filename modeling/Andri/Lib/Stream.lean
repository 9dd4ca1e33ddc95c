/-
  Andri.Lib.Stream

  Fallible I/O over a finite stream of symbols.  A computation in
  `StreamM ε β` threads the stream and may stop with an error; the stream it
  leaves is observed in both cases, so how much a failing read has consumed can
  be stated.

  For a reader the state is the unread input; for a writer it is the output
  written so far.  The library result is `readMany_flatMap`: a reader that
  takes back one encoded value from in front of any remainder takes back a
  whole list of them, in order, and leaves the remainder untouched.
-/
import Mathlib.Data.List.Basic

namespace Andri.Lib

/-- Fallible computations over a stream of `β`. -/
abbrev StreamM (ε β : Type) := ExceptT ε (StateM (List β))

namespace StreamM

variable {ε β α γ : Type}

/-- Run a computation on a stream: its outcome and the stream it leaves. -/
def on (m : StreamM ε β α) (s : List β) : Except ε α × List β := StateT.run (ExceptT.run m) s

@[simp] theorem on_pure (a : α) (s : List β) :
    (pure a : StreamM ε β α).on s = (.ok a, s) := rfl

@[simp] theorem on_throw (e : ε) (s : List β) :
    (throw e : StreamM ε β α).on s = (.error e, s) := rfl

/-- What a sequence does: the continuation runs on the stream the first part
    leaves, and an error skips it. -/
theorem on_bind (m : StreamM ε β α) (f : α → StreamM ε β γ) (s : List β) :
    (m >>= f).on s = match m.on s with
      | (.ok a, s') => (f a).on s'
      | (.error e, s') => (.error e, s') := by
  show StateT.run (ExceptT.run (m >>= f)) s = _
  rcases h : m.on s with ⟨r, s'⟩
  have h' : StateT.run (ExceptT.run m) s = (r, s') := h
  -- an error of the first part passes through the transformer as it is
  rw [ExceptT.run_bind]
  cases r <;> simp [StateT.run_bind, h'] <;> rfl

theorem on_bind_ok {m : StreamM ε β α} {f : α → StreamM ε β γ} {s s' : List β} {a : α}
    (h : m.on s = (.ok a, s')) : (m >>= f).on s = (f a).on s' := by
  rw [on_bind, h]

/-- A pure result enters the stream monad unchanged. -/
@[simp] theorem on_ofExcept (r : Except ε α) (s : List β) :
    (liftM (n := StreamM ε β) r).on s = (r, s) := by
  cases r <;> rfl

end StreamM

open StreamM

variable {ε β α : Type}

/-! ## Exact reads -/

/-- Read exactly `n` symbols; a stream that ends first is drained and the read
    fails with `eof`. -/
def readExact (eof : ε) (n : Nat) : StreamM ε β (List β) := fun s =>
  if s.length < n then (.error eof, []) else (.ok (s.take n), s.drop n)

theorem readExact_on (eof : ε) (n : Nat) (s : List β) :
    (readExact eof n).on s =
      if s.length < n then (.error eof, []) else (.ok (s.take n), s.drop n) := rfl

theorem readExact_of_lt {eof : ε} {n : Nat} {s : List β} (h : s.length < n) :
    (readExact eof n).on s = (.error eof, []) := by
  rw [readExact_on, if_pos h]

theorem readExact_of_le {eof : ε} {n : Nat} {s : List β} (h : n ≤ s.length) :
    (readExact eof n).on s = (.ok (s.take n), s.drop n) := by
  rw [readExact_on, if_neg (by omega)]

/-! ## Complete writes -/

/-- Append symbols to the output. -/
def writeAll (p : List β) : StreamM ε β Unit := fun out => (.ok (), out ++ p)

@[simp] theorem writeAll_on (p out : List β) :
    (writeAll p : StreamM ε β Unit).on out = (.ok (), out ++ p) := rfl

/-! ## Repeated reads -/

/-- Read `n` values one after the other. -/
def readMany (r : StreamM ε β α) : Nat → StreamM ε β (List α)
  | 0 => pure []
  | n + 1 => do
      let a ← r
      let as ← readMany r n
      return a :: as

/-- A reader that recovers each encoded value from in front of any remainder
    recovers the whole list from the concatenated encodings. -/
theorem readMany_flatMap {r : StreamM ε β α} {enc : α → List β} {as : List α} (t : List β)
    (h : ∀ a ∈ as, ∀ t, r.on (enc a ++ t) = (.ok a, t)) :
    (readMany r as.length).on (as.flatMap enc ++ t) = (.ok as, t) := by
  induction as with
  | nil => simp [readMany]
  | cons a as ih =>
      have hhead := h a List.mem_cons_self (as.flatMap enc ++ t)
      have htail := ih (fun b hb => h b (List.mem_cons_of_mem _ hb))
      rw [List.flatMap_cons, List.append_assoc, List.length_cons, readMany, on_bind_ok hhead,
        on_bind_ok htail, on_pure]

end Andri.Lib

/-
  Andri.Lib.Reader

  Readers that ask for their input piece by piece, and what they make of a byte
  stream that arrives in arbitrary segments.

  A `Reader` is a program of exact reads.  `poll` runs it against what has
  arrived so far and gives nothing while a read would have to wait;
  `toStream` runs it against a stream that has ended.  A `Framing` is a reader
  that never returns without input: `decode` takes values off the front for as
  long as they are whole.  The library result is `decode_append`: decoding goes
  on where it stopped, so where the segments were cut does not matter.
-/
import Andri.Lib.Stream

namespace Andri.Lib

open StreamM

/-- A program of exact reads: finished, or waiting for `n` symbols. -/
inductive Reader (ε β α : Type)
  | done (r : Except ε α)
  | need (n : ℕ) (k : List β → Reader ε β α)

namespace Reader

variable {ε β α : Type}

/-- Run against what has arrived: `none` while a read has to wait. -/
def poll : Reader ε β α → List β → Option (Except ε α × List β)
  | done r, s => some (r, s)
  | need n k, s => if s.length < n then none else (k (s.take n)).poll (s.drop n)

/-- Run against a stream that ends: a read past the end fails with `eof`. -/
def toStream (eof : ε) : Reader ε β α → StreamM ε β α
  | done r => liftM r
  | need n k => do
      let piece ← readExact eof n
      (k piece).toStream eof

variable {r : Reader ε β α} {s t rest : List β} {x : Except ε α}

/-- What has arrived later does not change the value read. -/
theorem poll_append (h : r.poll s = some (x, rest)) (t : List β) :
    r.poll (s ++ t) = some (x, rest ++ t) := by
  induction r generalizing s with
  | done y =>
      cases h
      rfl
  | need n k ih =>
      rw [poll] at h ⊢
      split at h
      · cases h
      · next hle =>
          have hle' : n ≤ s.length := Nat.le_of_not_lt hle
          rw [if_neg (by rw [List.length_append]; omega), List.take_append_of_le_length hle',
            List.drop_append_of_le_length hle']
          exact ih _ h

/-- A read that has to wait fails at the end of the stream, and drains it. -/
theorem toStream_of_poll_none (eof : ε) (h : r.poll s = none) :
    (r.toStream eof).on s = (.error eof, []) := by
  induction r generalizing s with
  | done y => cases h
  | need n k ih =>
      rw [poll] at h
      split at h
      · next hlt => rw [toStream, on_bind, readExact_of_lt hlt]
      · next hle =>
          rw [toStream, on_bind_ok (readExact_of_le (Nat.le_of_not_lt hle))]
          exact ih _ h

/-- What a value was read from: a first part, which alone is enough. -/
theorem poll_consumed (h : r.poll s = some (x, rest)) :
    ∃ p, s = p ++ rest ∧ r.poll p = some (x, []) := by
  induction r generalizing s with
  | done y =>
      cases h
      exact ⟨[], rfl, rfl⟩
  | need n k ih =>
      rw [poll] at h
      split at h
      · cases h
      · next hle =>
          obtain ⟨p, hp, hpoll⟩ := ih _ h
          have htake : (s.take n).length = n := by rw [List.length_take]; omega
          refine ⟨s.take n ++ p, ?_, ?_⟩
          · rw [List.append_assoc, ← hp, List.take_append_drop]
          · rw [poll, if_neg (by rw [List.length_append]; omega), List.take_left' htake,
              List.drop_left' htake]
            exact hpoll

end Reader

/-- A reader that needs input before it returns. -/
structure Framing (ε β α : Type) where
  reader : Reader ε β α
  hungry : reader.poll [] = none

namespace Framing

variable {ε β α : Type} (f : Framing ε β α)

variable {f} in
/-- Every value takes something off the stream. -/
theorem length_lt_of_poll {s rest : List β} {x : Except ε α}
    (h : f.reader.poll s = some (x, rest)) : rest.length < s.length := by
  obtain ⟨p, rfl, hp⟩ := Reader.poll_consumed h
  cases p with
  | nil =>
      rw [f.hungry] at hp
      cases hp
  | cons b p =>
      rw [List.length_append, List.length_cons]
      omega

/-- The values whole in what has arrived, and what is left of it. -/
def decode (s : List β) : List (Except ε α) × List β :=
  match h : f.reader.poll s with
  | none => ([], s)
  | some (x, rest) =>
      have := length_lt_of_poll h
      (x :: (decode rest).1, (decode rest).2)
termination_by s.length

variable {f} {s t rest : List β} {x : Except ε α}

theorem decode_of_none (h : f.reader.poll s = none) : f.decode s = ([], s) := by
  rw [decode]
  split
  · rfl
  · next heq =>
      rw [h] at heq
      cases heq

theorem decode_of_some (h : f.reader.poll s = some (x, rest)) :
    f.decode s = (x :: (f.decode rest).1, (f.decode rest).2) := by
  rw [decode]
  split
  · next heq =>
      rw [h] at heq
      cases heq
  · next heq =>
      rw [h] at heq
      cases heq
      rfl

/-- Nothing has arrived, nothing is read. -/
@[simp] theorem decode_nil : f.decode ([] : List β) = ([], []) := decode_of_none f.hungry

/-- A stream decodes to nothing, or to a first value and what its rest decodes to. -/
theorem decode_induction {P : List β → Prop} (hnone : ∀ s, f.reader.poll s = none → P s)
    (hsome : ∀ s x rest, f.reader.poll s = some (x, rest) → P rest → P s) (s : List β) : P s := by
  induction hlen : s.length using Nat.strongRecOn generalizing s with
  | _ n ih =>
      cases h : f.reader.poll s with
      | none => exact hnone s h
      | some p => exact hsome s p.1 p.2 h (ih _ (hlen ▸ length_lt_of_poll h) p.2 rfl)

/-- Decoding goes on where it stopped: the cuts between segments do not show. -/
theorem decode_append (s t : List β) :
    f.decode (s ++ t) =
      ((f.decode s).1 ++ (f.decode ((f.decode s).2 ++ t)).1,
        (f.decode ((f.decode s).2 ++ t)).2) := by
  induction s using decode_induction (f := f) with
  | hnone s h => simp [decode_of_none h]
  | hsome s x rest h ih =>
      rw [decode_of_some h, decode_of_some (Reader.poll_append h t), ih]
      simp

/-- Values encoded one after the other are read one after the other, each as a value it
    may be read as. -/
theorem decode_flatMap {R : α → α → Prop} {enc : α → List β} {as : List α} (t : List β)
    (h : ∀ a ∈ as, ∃ b, R a b ∧ ∀ t, f.reader.poll (enc a ++ t) = some (.ok b, t)) :
    ∃ bs, f.decode (as.flatMap enc ++ t) = (bs.map .ok ++ (f.decode t).1, (f.decode t).2) ∧
      List.Forall₂ R as bs := by
  induction as with
  | nil => exact ⟨[], rfl, .nil⟩
  | cons a as ih =>
      obtain ⟨b, hread, hpoll⟩ := h a List.mem_cons_self
      obtain ⟨bs, htail, hall⟩ := ih fun c hc => h c (List.mem_cons_of_mem _ hc)
      refine ⟨b :: bs, ?_, .cons hread hall⟩
      rw [List.flatMap_cons, List.append_assoc, decode_of_some (hpoll _), htail]
      rfl

end Framing

end Andri.Lib

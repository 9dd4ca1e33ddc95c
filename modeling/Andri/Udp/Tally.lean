/-
  Andri.Udp.Tally

  The order of arrival does not enter the counts.  The bytes, the packets and the
  extreme sequence numbers of `LossJitter` are a tally of the in-window
  (sequence number, length) pairs, and adding two pairs to a tally in either
  order gives the same tally; so the fold over all of them depends on their
  multiset alone.  Every count a snapshot or a result reports is read off the
  tally; the order shows in the jitter only.
-/
import Andri.Udp.LossJitter

namespace Andri.Udp

open Lib LossJitter

/-- The accumulator without its jitter state. -/
@[ext] structure Tally where
  bytes : ℕ
  received : ℕ
  minSeq : Option U64
  maxSeq : U64

/-- Nothing counted. -/
def Tally.zero : Tally := ⟨0, 0, none, 0⟩

/-- One in-window datagram. -/
def Tally.add (t : Tally) (p : U64 × ℕ) : Tally where
  bytes := t.bytes + p.2
  received := t.received + 1
  minSeq := some (match t.minSeq with | none => p.1 | some m => umin m p.1)
  maxSeq := umax t.maxSeq p.1

/-- The tally part of the accumulator. -/
def LossJitter.tally (acc : LossJitter) : Tally where
  bytes := acc.bytes
  received := acc.received
  minSeq := acc.minSeq
  maxSeq := acc.maxSeq

/-- What is counted of an arrival sequence. -/
def counted (W : U64) (ds : List Datagram) : List (U64 × ℕ) :=
  (inWindow W ds).map fun d => (d.seq, d.n)

/-! ## Two datagrams in either order -/

theorem umin_right_comm (m a b : U64) : umin (umin m a) b = umin (umin m b) a := by
  apply BitVec.eq_of_toNat_eq
  simp only [toNat_umin]
  omega

theorem umin_comm (a b : U64) : umin a b = umin b a := by
  apply BitVec.eq_of_toNat_eq
  simp only [toNat_umin]
  omega

theorem umax_right_comm (m a b : U64) : umax (umax m a) b = umax (umax m b) a := by
  apply BitVec.eq_of_toNat_eq
  simp only [toNat_umax]
  omega

theorem Tally.add_right_comm (t : Tally) (p q : U64 × ℕ) :
    (t.add p).add q = (t.add q).add p := by
  have hmin : ((t.add p).add q).minSeq = ((t.add q).add p).minSeq := by
    simp only [Tally.add]
    -- the first of the two may be the first of all
    cases t.minSeq with
    | none => rw [umin_comm]
    | some m => rw [umin_right_comm]
  ext1
  · simp only [Tally.add]
    omega
  · rfl
  · exact hmin
  · exact umax_right_comm _ _ _

/-! ## The accumulator's tally -/

theorem tally_observe {acc : LossJitter} {d : Datagram} (h : acc.warmupPackets ≤ d.seq) :
    (acc.observe d).tally = acc.tally.add (d.seq, d.n) := by
  obtain ⟨hbytes, hreceived, hmin, hmax⟩ := observe_of_le acc d h
  ext1
  · exact hbytes
  · exact hreceived
  · exact hmin
  · exact hmax

theorem tally_foldl_observe {acc : LossJitter} {ds : List Datagram}
    (h : ∀ d ∈ ds, acc.warmupPackets ≤ d.seq) :
    (ds.foldl observe acc).tally = (ds.map fun d => (d.seq, d.n)).foldl Tally.add acc.tally := by
  induction ds generalizing acc with
  | nil => rfl
  | cons d ds ih =>
      rw [List.foldl_cons, ih fun x hx => by
        rw [observe_warmupPackets]
        exact h x (List.mem_cons_of_mem d hx)]
      rw [tally_observe (h d List.mem_cons_self), List.map_cons, List.foldl_cons]

theorem tally_observeAll (W : U64) (ds : List Datagram) :
    (observeAll W ds).tally = (counted W ds).foldl Tally.add .zero := by
  have hin : ∀ d ∈ inWindow W ds, (new W).warmupPackets ≤ d.seq :=
    fun d hd => (mem_inWindow.mp hd).2
  rw [observeAll_inWindow, tally_foldl_observe hin]
  rfl

/-- The order of the in-window datagrams does not enter the tally. -/
theorem tally_eq_of_perm {W : U64} {ds ds' : List Datagram}
    (h : (counted W ds).Perm (counted W ds')) :
    (observeAll W ds).tally = (observeAll W ds').tally := by
  rw [tally_observeAll, tally_observeAll]
  exact h.foldl_eq' (fun p _ q _ t => t.add_right_comm p q) _

section Reports

variable {acc acc' : LossJitter}

/-- The span and the loss are read off the tally. -/
theorem expected_eq_of_tally (h : acc.tally = acc'.tally) : acc.expected = acc'.expected := by
  have hmin : acc.minSeq = acc'.minSeq := congrArg Tally.minSeq h
  have hmax : acc.maxSeq = acc'.maxSeq := congrArg Tally.maxSeq h
  rw [expected, expected, hmin, hmax]

theorem lost_eq_of_tally (h : acc.tally = acc'.tally) : acc.lost = acc'.lost := by
  have hreceived : acc.received = acc'.received := congrArg Tally.received h
  rw [lost, lost, expected_eq_of_tally h, hreceived]

end Reports

/-- Arrival sequences with the same in-window datagrams, in any order, among any
    warm-up datagrams and with any time stamps, give the same counts in the
    result and in the last snapshot. -/
theorem counts_eq_of_perm (W : U64) (ds ds' : List Datagram) (secs secs' : ℚ)
    (h : (counted W ds).Perm (counted W ds')) :
    let result := (observeAll W ds).intoResult secs
    let result' := (observeAll W ds').intoResult secs'
    let snap := (observeAll W ds).snapshot
    let snap' := (observeAll W ds').snapshot
    result.bytes = result'.bytes ∧ result.packetsReceived = result'.packetsReceived ∧
    result.packetsExpected = result'.packetsExpected ∧
    result.packetsLost = result'.packetsLost ∧ result.lossRatio = result'.lossRatio ∧
    snap.bytes = snap'.bytes ∧ snap.lost = snap'.lost := by
  intro result result' snap snap'
  have htally := tally_eq_of_perm h
  have hbytes : (observeAll W ds).bytes = (observeAll W ds').bytes := congrArg Tally.bytes htally
  have hreceived : (observeAll W ds).received = (observeAll W ds').received :=
    congrArg Tally.received htally
  have hexpected := expected_eq_of_tally htally
  have hlost := lost_eq_of_tally htally
  simp only [result, result', snap, snap', intoResult, snapshot, hbytes, hreceived, hexpected,
    hlost, and_self]

/-- Three datagrams of the window, in order and reversed among warm-up traffic. -/
theorem counts_eq_of_perm_reversed :
    ((observeAll 2 [⟨2, 0, 9, 100⟩, ⟨3, 1, 9, 80⟩, ⟨5, 2, 9, 60⟩]).intoResult 1).packetsLost =
      ((observeAll 2 [⟨0, 7, 8, 40⟩, ⟨5, 9, 20, 60⟩, ⟨3, 8, 30, 80⟩, ⟨1, 0, 40, 40⟩,
        ⟨2, 6, 50, 100⟩]).intoResult 2).packetsLost := by
  obtain ⟨-, -, -, hlost, -⟩ := counts_eq_of_perm 2
    [⟨2, 0, 9, 100⟩, ⟨3, 1, 9, 80⟩, ⟨5, 2, 9, 60⟩]
    [⟨0, 7, 8, 40⟩, ⟨5, 9, 20, 60⟩, ⟨3, 8, 30, 80⟩, ⟨1, 0, 40, 40⟩, ⟨2, 6, 50, 100⟩] 1 2 (by decide)
  exact hlost

end Andri.Udp

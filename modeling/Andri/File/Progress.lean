/-
  Andri.File.Progress

  What keeps `file::serve` going.  `Placed` ties the bytes received and the
  sampler's counter to the first data connection.  The sampler ends only when
  the counter has reached the negotiated length, so `serve` returns exactly
  when the peer has sent that many bytes.
-/
import Andri.File.Serve
import Andri.Lib.Transition

namespace Andri.File

open Lib

/-- The transfer against the connection it reads. -/
structure Transfer.Holds (neg : Negotiate) (c : Conn) (t : Transfer) : Prop where
  taken : c.taken = t.received
  received : t.received ≤ c.sent
  counter : t.counter = t.received
  sampled : ∀ samples, t.sampler = .returned samples → expected neg ≤ t.counter

/-- All bytes are in, or the peer closed short of them and all it sent is. -/
def Transfer.Complete (neg : Negotiate) (c : Conn) (t : Transfer) : Prop :=
  expected neg ≤ t.received ∨ (c.closed = true ∧ c.sent = t.received)

/-- The peer has sent the negotiated length on the first data connection. -/
def Supplied (neg : Negotiate) (net : Net) : Prop :=
  ∃ c, net.conns.head? = some c ∧ expected neg ≤ c.sent

/-- The invariant of `serve`'s program points. -/
def Serve.Placed (neg : Negotiate) (net : Net) : Serve → Prop
  | .accepting => net.Untouched
  | .receiving t => ∃ c, net.conns.head? = some c ∧ t.Holds neg c
  | .joining t _ => ∃ c, net.conns.head? = some c ∧ t.Holds neg c ∧ t.Complete neg c
  | .returned _ => Supplied neg net

/-- The sampler ends only once all bytes are in. -/
theorem Sampler.Step.le_of_returned {t0 len counter clock clock' : ℕ} {s s' : Sampler}
    {samples : List Sample} (h : Step t0 len counter clock s clock' s')
    (hs' : s' = .returned samples) : len ≤ counter := by
  cases h with
  | poll => cases hs'
  | tick hnow hdue =>
      by_cases hall : len ≤ counter
      · exact hall
      · rw [if_neg hall] at hs'
        cases hs'

theorem Transfer.Holds.sampler {neg : Negotiate} {c : Conn} {t : Transfer} {clock clock' : ℕ}
    {s' : Sampler} (ht : t.Holds neg c)
    (h : Sampler.Step t.t0 (expected neg) t.counter clock t.sampler clock' s') :
    ({ t with sampler := s' } : Transfer).Holds neg c :=
  ⟨ht.taken, ht.received, ht.counter, fun _ hs => h.le_of_returned hs⟩

theorem Transfer.Holds.grows {neg : Negotiate} {c c' : Conn} {t : Transfer} (ht : t.Holds neg c)
    (h : c.Grows c') : t.Holds neg c' :=
  ⟨by rw [h.taken, ht.taken], ht.received.trans h.sent, ht.counter, ht.sampled⟩

/-- A read takes bytes that were sent and not taken. -/
theorem Transfer.Holds.read {neg : Negotiate} {c : Conn} {t : Transfer} {n : ℕ}
    (ht : t.Holds neg c) (hle : n ≤ c.unread) :
    (t.read n).Holds neg { c with taken := c.taken + n } := by
  have htaken := ht.taken
  have hreceived := ht.received
  rw [Conn.unread] at hle
  constructor
  · show c.taken + n = t.received + n
    rw [ht.taken]
  · show t.received + n ≤ c.sent
    omega
  · show t.counter + n = t.received + n
    rw [ht.counter]
  · intro samples hret
    exact (ht.sampled samples hret).trans (Nat.le_add_right _ _)

theorem Transfer.Complete.grows {neg : Negotiate} {c c' : Conn} {t : Transfer}
    (ht : t.Complete neg c) (h : c.Grows c') : t.Complete neg c' := by
  rcases ht with hall | ⟨hclosed, hsent⟩
  · exact .inl hall
  · obtain ⟨hclosed', hsent'⟩ := h.closed hclosed
    exact .inr ⟨hclosed', hsent'.trans hsent⟩

theorem Supplied.grows {neg : Negotiate} {net net' : Net} (hs : Supplied neg net)
    (h : net.Grows net') : Supplied neg net' := by
  obtain ⟨c, hc, hlen⟩ := hs
  obtain ⟨c', hc', hg⟩ := h.head hc
  exact ⟨c', hc', hlen.trans hg.sent⟩

variable {neg : Negotiate} {net net' : Net} {s s' : Serve}

/-- Every step keeps the transfer and its connection together. -/
theorem Step.placed (h : Step neg net s net' s') (hs : s.Placed neg net) :
    s'.Placed neg net' := by
  cases h with
  | accept hpending hnow =>
      -- nothing has been accepted, so the connection pending is the first
      have hne : net.conns ≠ [] := by
        intro he
        simp [he] at hpending
      obtain ⟨c, rest, hc⟩ := List.exists_cons_of_ne_nil hne
      have htaken : c.taken = 0 := hs.taken c (by simp [hc])
      exact ⟨c, by simp [hc], htaken, Nat.zero_le _, rfl, fun _ h => by cases h⟩
  | @read t n c rest hmore hc hn hle =>
      obtain ⟨d, hd, ht⟩ := hs
      rw [hc, List.head?_cons] at hd
      cases hd
      exact ⟨_, rfl, ht.read (hle.trans (min_le_right _ _))⟩
  | @eof t now c rest hmore hc hunread hclosed hnow =>
      obtain ⟨d, hd, ht⟩ := hs
      have htaken := ht.taken
      have hreceived := ht.received
      rw [hc, List.head?_cons] at hd
      cases hd
      -- end of file: all the peer has sent is in
      simp only [Conn.unread] at hunread
      exact ⟨c, by rw [hc, List.head?_cons], ht, .inr ⟨hclosed, by omega⟩⟩
  | done hall hnow =>
      obtain ⟨c, hc, ht⟩ := hs
      exact ⟨c, hc, ht, .inl hall⟩
  | samplerReceiving h =>
      obtain ⟨c, hc, ht⟩ := hs
      exact ⟨c, hc, ht.sampler h⟩
  | samplerJoining h =>
      obtain ⟨c, hc, ht, hcomplete⟩ := hs
      exact ⟨c, hc, ht.sampler h, hcomplete⟩
  | join hret =>
      obtain ⟨c, hc, ht, -⟩ := hs
      -- the sampler has seen the length on the counter
      refine ⟨c, hc, (ht.sampled _ hret).trans ?_⟩
      rw [ht.counter]
      exact ht.received

theorem Serve.Placed.grows (hs : s.Placed neg net) (h : net.Grows net') :
    s.Placed neg net' := by
  cases s with
  | accepting => exact Net.Untouched.grows hs h
  | receiving t =>
      obtain ⟨c, hc, ht⟩ := hs
      obtain ⟨c', hc', hg⟩ := h.head hc
      exact ⟨c', hc', ht.grows hg⟩
  | joining t secs =>
      obtain ⟨c, hc, ht, hcomplete⟩ := hs
      obtain ⟨c', hc', hg⟩ := h.head hc
      exact ⟨c', hc', ht.grows hg, hcomplete.grows hg⟩
  | returned r => exact Supplied.grows hs h

/-- Reading leaves the peer's side of the connection. -/
theorem Step.peerSide_eq (h : Step neg net s net' s') :
    net'.conns.map Conn.peerSide = net.conns.map Conn.peerSide := by
  cases h with
  | read hmore hc hn hle => rw [hc, List.map_cons, List.map_cons, Conn.peerSide, Conn.peerSide]
  | accept | eof | done | samplerReceiving | samplerJoining | join => rfl

/-- Whether the length has been sent does not depend on what has been read. -/
theorem supplied_congr (h : net'.conns.map Conn.sent = net.conns.map Conn.sent) :
    Supplied neg net' ↔ Supplied neg net := by
  -- a statement about what has been sent only
  have key : ∀ net : Net,
      Supplied neg net ↔ ∃ sent, (net.conns.map Conn.sent).head? = some sent ∧
        expected neg ≤ sent := by
    intro net
    rw [Supplied, List.head?_map]
    constructor
    · rintro ⟨c, hc, hlen⟩
      exact ⟨c.sent, by rw [hc]; rfl, hlen⟩
    · rintro ⟨sent, hsent, hlen⟩
      obtain ⟨c, hc, rfl⟩ := Option.map_eq_some_iff.mp hsent
      exact ⟨c, hc, hlen⟩
  rw [key, key, h]

/-! ## The transfer ends -/

/-- Ticks the sampler needs once all bytes are in. -/
def Sampler.rank : Sampler → ℕ
  | .spawned => 2
  | .waiting _ => 1
  | .returned _ => 0

/-- Once all bytes are in, the sampler's next tick is its last. -/
theorem Sampler.exists_step {len counter : ℕ} {s : Sampler} (t0 clock : ℕ) (hall : len ≤ counter)
    (hs : ∀ samples, s ≠ .returned samples) :
    ∃ clock' s', Step t0 len counter clock s clock' s' ∧ s'.rank < s.rank := by
  cases s with
  | spawned => exact ⟨clock, _, .poll le_rfl, by simp [rank]⟩
  | waiting l =>
      refine ⟨max clock l.next, _, .tick (by omega) (by omega), ?_⟩
      simp [hall, rank]
  | returned samples => exact absurd rfl (hs samples)

/-- Steps until the sampler is joined. -/
def Serve.rank (neg : Negotiate) : Serve → ℕ
  | .accepting => expected neg + 6
  | .receiving t => (expected neg - t.received) + 5
  | .joining t _ => t.sampler.rank + 1
  | .returned _ => 0

/-- Nothing to do but wait for the other end: no connection to accept, nothing to
    read, or a sampler that the bytes missing keep going. -/
def Serve.Idle (neg : Negotiate) (net : Net) : Serve → Prop
  | .accepting => net.conns.length ≤ net.accepted
  | .receiving t => t.received < expected neg ∧
      ∀ c, net.conns.head? = some c → c.unread = 0 ∧ c.closed = false
  | .joining t _ => (∀ samples, t.sampler ≠ .returned samples) ∧ t.counter < expected neg
  | .returned _ => False

/-- Reading only takes bytes off. -/
theorem Step.unread_le (h : Step neg net s net' s') : net'.unread ≤ net.unread := by
  cases h with
  | read hmore hc hn hle =>
      simp only [Net.unread, hc, List.map_cons, List.sum_cons, Conn.unread]
      omega
  | accept | eof | done | samplerReceiving | samplerJoining | join => exact le_rfl

/-- Unless it is idle, the receive loop reads on or leaves. -/
theorem Serve.exists_receive {c : Conn} {t : Transfer} (hc : net.conns.head? = some c)
    (hidle : ¬ (Serve.receiving t).Idle neg net) :
    ∃ net' s', Step neg net (.receiving t) net' s' ∧
      s'.rank neg < (Serve.receiving t).rank neg := by
  obtain ⟨rest, hconns⟩ := List.head?_eq_some_iff.mp hc
  have hsampler : t.sampler.rank ≤ 2 := by cases t.sampler <;> simp [Sampler.rank]
  by_cases hmore : t.received < expected neg
  · by_cases hunread : c.unread = 0
    -- an open connection with nothing to read would leave the loop idle
    · have hclosed : c.closed = true := by
        by_contra hopen
        refine hidle ⟨hmore, fun d hd => ?_⟩
        cases hc.symm.trans hd
        exact ⟨hunread, by simpa using hopen⟩
      refine ⟨_, _, .eof hmore hconns hunread hclosed le_rfl, ?_⟩
      simp only [rank]
      omega
    · have hbuf : 0 < BUF := by decide
      have hpos : 0 < min (want neg t) c.unread := by
        simp only [want]
        omega
      have hwant : min (want neg t) c.unread ≤ expected neg - t.received :=
        (min_le_left _ _).trans (min_le_left _ _)
      refine ⟨_, _, .read hmore hconns hpos le_rfl, ?_⟩
      simp only [rank, Transfer.read]
      omega
  · refine ⟨_, _, .done (by omega) le_rfl, ?_⟩
    simp only [rank]
    omega

/-- Unless it is idle, the join returns or its sampler ticks on. -/
theorem Serve.exists_join {t : Transfer} {secs : ℚ}
    (hidle : ¬ (Serve.joining t secs).Idle neg net) :
    ∃ net' s', Step neg net (.joining t secs) net' s' ∧
      s'.rank neg < (Serve.joining t secs).rank neg := by
  by_cases hret : ∃ samples, t.sampler = .returned samples
  · obtain ⟨samples, hret⟩ := hret
    exact ⟨net, _, .join hret, by simp [rank]⟩
  · push Not at hret
    -- a sampler that goes on would leave the join idle
    have hall : expected neg ≤ t.counter := by
      by_contra hshort
      exact hidle ⟨hret, by omega⟩
    obtain ⟨clock', t', hstep, hrank⟩ := Sampler.exists_step t.t0 net.clock hall hret
    refine ⟨_, _, .samplerJoining hstep, ?_⟩
    simp only [rank]
    omega

/-- Unless it is idle or has returned, `serve` has a step towards its return. -/
theorem Serve.Placed.exists_step (hs : s.Placed neg net) (hidle : ¬ s.Idle neg net)
    (hr : ∀ r, s ≠ .returned r) :
    ∃ net' s', Step neg net s net' s' ∧ s'.rank neg < s.rank neg := by
  cases s with
  | accepting =>
      refine ⟨_, _, .accept (not_le.mp hidle) le_rfl, ?_⟩
      simp only [rank, Transfer.start]
      omega
  | receiving t =>
      obtain ⟨c, hc, -⟩ := hs
      exact Serve.exists_receive hc hidle
  | joining t secs => exact Serve.exists_join hidle
  | returned r => exact absurd rfl (hr r)

/-- With the bytes sent, nothing keeps `serve` waiting. -/
theorem Serve.Placed.not_idle (hs : s.Placed neg net) (hsupplied : Supplied neg net) :
    ¬ s.Idle neg net := by
  obtain ⟨d, hd, hlen⟩ := hsupplied
  obtain ⟨rest, hconns⟩ := List.head?_eq_some_iff.mp hd
  intro hidle
  cases s with
  | accepting =>
      have hnone : net.conns.length ≤ net.accepted := hidle
      rw [hs.accepted, hconns, List.length_cons] at hnone
      omega
  | receiving t =>
      obtain ⟨c, hc, ht⟩ := hs
      cases hd.symm.trans hc
      obtain ⟨hmore, hwait⟩ := hidle
      have hunread := (hwait d hd).1
      have htaken := ht.taken
      simp only [Conn.unread] at hunread
      omega
  | joining t secs =>
      obtain ⟨c, hc, ht, hcomplete⟩ := hs
      cases hd.symm.trans hc
      have hcounter := ht.counter
      have hshort := hidle.2
      rcases hcomplete with hall | ⟨-, hsent⟩ <;> omega
  | returned r => exact hidle

/-- Neither does anything with bytes to read and a peer that goes on. -/
theorem Serve.Placed.not_idle_of_unread {c : Conn} (hs : s.Placed neg net)
    (hc : net.conns.head? = some c) (hunread : 0 < c.unread) (hopen : c.closed = false) :
    ¬ s.Idle neg net := by
  obtain ⟨rest, hconns⟩ := List.head?_eq_some_iff.mp hc
  intro hidle
  cases s with
  | accepting =>
      have hnone : net.conns.length ≤ net.accepted := hidle
      rw [hs.accepted, hconns, List.length_cons] at hnone
      omega
  | receiving t =>
      have hempty := (hidle.2 c hc).1
      omega
  | joining t secs =>
      obtain ⟨d, hd, ht, hcomplete⟩ := hs
      cases hc.symm.trans hd
      have hcounter := ht.counter
      have hshort := hidle.2
      -- an open stream left the loop with all bytes in
      rcases hcomplete with hall | ⟨hclosed, -⟩
      · omega
      · rw [hopen] at hclosed
        cases hclosed
  | returned r => exact hidle

/-- Once the peer has sent the negotiated length, `serve` can return. -/
theorem canReach_returned (hs : s.Placed neg net) (hsupplied : Supplied neg net) :
    CanReach (fun c c' : Net × Serve => Step neg c.1 c.2 c'.1 c'.2)
      (fun c => ∃ r, c.2 = .returned r) (net, s) := by
  refine canReach_of_measure (I := fun c => c.2.Placed neg c.1 ∧ Supplied neg c.1)
    (fun c => c.2.rank neg) ?_ ⟨hs, hsupplied⟩
  rintro ⟨net, s⟩ ⟨hs, hsupplied⟩ hgoal
  obtain ⟨net', s', hstep, hrank⟩ :=
    hs.exists_step (hs.not_idle hsupplied) fun r h => hgoal ⟨r, h⟩
  have hsent := sent_eq_of_peerSide_eq hstep.peerSide_eq
  exact ⟨(net', s'), hstep, ⟨hstep.placed hs, (supplied_congr hsent).mpr hsupplied⟩, hrank⟩

end Andri.File

/-
  Andri.Tcp.Progress

  What keeps `tcp::serve` going.  `Placed` is the invariant of its program
  points over the net it runs on: the streams accepted are there, and no sum
  reads past the counters.  Once Stop has been read, nothing the peer does or
  leaves undone keeps the tasks from returning: each is a timer or a join of
  one.
-/
import Andri.Lib.Transition
import Andri.Tcp.Serve

namespace Andri.Tcp

open Lib

/-- Of `n` counters, those the snapshot has still to read are there. -/
def WarmupSnap.InBounds (n : ℕ) : WarmupSnap → Prop
  | .reading k _ => k ≤ n
  | _ => True

/-- Of `n` counters, those the final sum has still to read are there. -/
def Main.InBounds (n : ℕ) : Main → Prop
  | .reading k _ => k ≤ n
  | _ => True

/-- No sum reads past the counters. -/
structure Tasks.InBounds (t : Tasks) : Prop where
  sampler : t.sampler.InBounds t.counters.length
  warmup : t.warmup.InBounds t.counters.length
  main : t.main.InBounds t.counters.length

/-- The invariant of `serve`'s program points. -/
def Serve.Placed (neg : Negotiate) (net : Net) : Serve → Prop
  | .accepting k => k = net.accepted ∧ k ≤ net.conns.length ∧ k ≤ neg.parallel.toNat
  | .measuring t => neg.parallel.toNat ≤ net.conns.length ∧
      t.counters.length = neg.parallel.toNat ∧ t.InBounds
  | .returned _ => neg.parallel.toNat ≤ net.conns.length

theorem Tasks.spawn_inBounds (t0 n : ℕ) : (Tasks.spawn t0 n).InBounds :=
  ⟨trivial, trivial, trivial⟩

theorem WarmupSnap.Step.inBounds {warmup clock clock' : ℕ} {counters : List ℕ}
    {s s' : WarmupSnap} (h : Step warmup counters clock s clock' s') :
    s'.InBounds counters.length := by
  cases h with
  | load hk => exact (List.getElem?_eq_some_iff.mp hk).1
  | wake => exact Nat.zero_le _
  | poll | done => trivial

variable {neg : Negotiate} {net net' : Net} {s s' : Serve}

/-- Every step keeps the streams and the bounds. -/
theorem Step.placed (h : Step neg net s net' s') (hs : s.Placed neg net) :
    s'.Placed neg net' := by
  cases h with
  | accept hk hpending =>
      obtain ⟨rfl, -, -⟩ := hs
      exact ⟨rfl, hpending, hk⟩
  | spawn hk hnow => exact ⟨hk ▸ hs.2.1, by simp [Tasks.spawn, hk], Tasks.spawn_inBounds _ _⟩
  | recv hc hb hn hle =>
      obtain ⟨hconns, hcounters, hsampler, hwarmup, hmain⟩ := hs
      refine ⟨by simpa [takeBytes] using hconns, by simpa using hcounters, ?_, ?_, ?_⟩ <;> simpa
  | sampler h =>
      obtain ⟨hconns, hcounters, -, hwarmup, hmain⟩ := hs
      exact ⟨hconns, hcounters, h.inBounds, hwarmup, hmain⟩
  | warmup h =>
      obtain ⟨hconns, hcounters, hsampler, -, hmain⟩ := hs
      exact ⟨hconns, hcounters, hsampler, h.inBounds, hmain⟩
  | finalLoad hmain hk =>
      obtain ⟨hconns, hcounters, hsampler, hwarmup, -⟩ := hs
      exact ⟨hconns, hcounters, hsampler, hwarmup, (List.getElem?_eq_some_iff.mp hk).1⟩
  | finalDone | joinSampler =>
      obtain ⟨hconns, hcounters, hsampler, hwarmup, -⟩ := hs
      exact ⟨hconns, hcounters, hsampler, hwarmup, trivial⟩
  | joinWarmup => exact hs.1

/-- The peer can only add streams. -/
theorem Serve.Placed.grows (hs : s.Placed neg net) (h : net.Grows net') :
    s.Placed neg net' := by
  have hlen := h.length_le
  cases s with
  | accepting k =>
      obtain ⟨hk, hle, hparallel⟩ := hs
      exact ⟨by rw [h.accepted, hk], hle.trans hlen, hparallel⟩
  | measuring t => exact ⟨hs.1.trans hlen, hs.2⟩
  | returned r => exact le_trans hs hlen

/-- The `stop` future resolves into the final snapshot. -/
theorem Serve.Placed.onStop (hs : s.Placed neg net) (h : s.onStop = some s') :
    s'.Placed neg net := by
  cases s with
  | measuring t =>
      obtain ⟨hconns, hcounters, hsampler, hwarmup, -⟩ := hs
      simp only [Serve.onStop] at h
      split at h <;> cases h
      exact ⟨hconns, hcounters, hsampler, hwarmup, Nat.zero_le _⟩
  | accepting | returned => cases h

/-- Reading leaves the peer's side of each stream. -/
theorem Step.peerSide_eq (h : Step neg net s net' s') :
    net'.conns.map Conn.peerSide = net.conns.map Conn.peerSide := by
  cases h with
  | recv hc hb hn hle => exact peerSide_set hc rfl
  | accept | spawn | sampler | warmup | finalLoad | finalDone | joinSampler | joinWarmup => rfl

/-- Reading only takes bytes off. -/
theorem Step.unread_le (h : Step neg net s net' s') : net'.unread ≤ net.unread := by
  cases h with
  | @recv t i n b c hc hb hn hle =>
      have hunread := Net.unread_set hc { c with taken := c.taken + n }
      simp only [Conn.unread] at hunread
      show (takeBytes net i n c).unread ≤ net.unread
      simp only [takeBytes]
      omega
  | accept | spawn | sampler | warmup | finalLoad | finalDone | joinSampler | joinWarmup =>
      exact le_rfl

/-! ## The tasks end -/

/-- Steps the snapshot over `n` counters needs to return. -/
def WarmupSnap.rank (n : ℕ) : WarmupSnap → ℕ
  | .spawned => n + 4
  | .sleeping _ => n + 3
  | .reading k _ => 1 + (n - k)
  | .returned _ _ => 0

theorem WarmupSnap.exists_step {counters : List ℕ} {s : WarmupSnap} (warmup clock : ℕ)
    (hb : s.InBounds counters.length) (hs : ∀ bytes at_, s ≠ .returned bytes at_) :
    ∃ clock' s', Step warmup counters clock s clock' s' ∧
      s'.rank counters.length < s.rank counters.length := by
  cases s with
  | spawned => exact ⟨clock, _, .poll le_rfl, by simp [rank]⟩
  | sleeping wake =>
      refine ⟨max clock wake, _, .wake (by omega) (by omega), ?_⟩
      simp only [rank]
      omega
  | reading k sum =>
      have hk : k ≤ counters.length := hb
      rcases Nat.lt_or_eq_of_le hk with hlt | heq
      · refine ⟨clock, _, .load (List.getElem?_eq_getElem hlt), ?_⟩
        simp only [rank]
        omega
      · exact ⟨clock, _, .done le_rfl heq, by simp [rank]⟩
  | returned bytes at_ => exact absurd rfl (hs bytes at_)

/-- Steps the main task needs to return, its joins aside. -/
def Main.rank (n : ℕ) : Main → ℕ
  | .awaitingStop => n + 4
  | .reading k _ => 3 + (n - k)
  | .joiningSampler _ _ => 2
  | .joiningWarmup _ _ _ => 1

/-- Steps until the tasks are all joined. -/
def Serve.rank (neg : Negotiate) : Serve → ℕ
  | .accepting k => (neg.parallel.toNat - k) + 4 * neg.parallel.toNat + 15
  | .measuring t =>
      t.sampler.rank t.t0 (window neg) t.counters.length + t.warmup.rank t.counters.length +
        t.main.rank t.counters.length
  | .returned _ => 0

/-! ## The accept loop ends -/

/-- The tasks run and Stop has not been read. -/
def Serve.Measuring : Serve → Prop
  | .measuring t => t.main = .awaitingStop
  | _ => False

/-- With a stream pending, or all accepted, the accept loop has a step. -/
theorem Serve.exists_accept {k : ℕ} (hk : k ≤ neg.parallel.toNat)
    (hpending : k < neg.parallel.toNat → net.accepted < net.conns.length) :
    ∃ net' s', Step neg net (.accepting k) net' s' ∧ net'.conns = net.conns ∧
      (s'.Measuring ∨ ∃ k', s' = .accepting k') ∧ s'.rank neg < (Serve.accepting k).rank neg := by
  rcases Nat.lt_or_eq_of_le hk with hlt | heq
  · refine ⟨_, _, .accept hlt (hpending hlt), rfl, .inr ⟨_, rfl⟩, ?_⟩
    simp only [rank]
    omega
  · refine ⟨_, _, .spawn heq (le_refl net.clock), rfl, .inl rfl, ?_⟩
    simp only [rank, Tasks.spawn, Sampler.rank, WarmupSnap.rank, Main.rank, List.length_replicate]
    omega

/-- With `parallel` streams opened, the accept loop ends. -/
theorem canReach_measuring {k : ℕ} (hs : (Serve.accepting k).Placed neg net)
    (hopened : neg.parallel.toNat ≤ net.conns.length) :
    CanReach (fun c c' : Net × Serve => Step neg c.1 c.2 c'.1 c'.2)
      (fun c => c.2.Measuring) (net, .accepting k) := by
  refine canReach_of_measure
    (I := fun c => c.2.Placed neg c.1 ∧ neg.parallel.toNat ≤ c.1.conns.length ∧
      (c.2.Measuring ∨ ∃ k, c.2 = .accepting k))
    (fun c => c.2.rank neg) ?_ ⟨hs, hopened, .inr ⟨k, rfl⟩⟩
  rintro ⟨net, s⟩ ⟨hs, hopened, hphase⟩ hgoal
  obtain ⟨k, rfl⟩ : ∃ k, s = .accepting k := hphase.resolve_left hgoal
  -- as long as streams are missing, one is pending
  obtain ⟨hk, hle, hparallel⟩ := id hs
  dsimp only at hk hle hopened
  have hpending : k < neg.parallel.toNat → net.accepted < net.conns.length := by omega
  obtain ⟨net', s', hstep, hconns, hphase', hrank⟩ := Serve.exists_accept hparallel hpending
  exact ⟨(net', s'), hstep, ⟨hstep.placed hs, by rw [hconns]; exact hopened, hphase'⟩, hrank⟩

/-! ## Past Stop -/

/-- The measurement has read its Stop, and its sums are in bounds. -/
def Serve.Stopped : Serve → Prop
  | .accepting _ => False
  | .measuring t => t.main ≠ .awaitingStop ∧ t.InBounds
  | .returned _ => True

/-- Past Stop some task has a step towards the return. -/
theorem Serve.Stopped.exists_step (neg : Negotiate) (hs : s.Stopped) (hr : ∀ r, s ≠ .returned r)
    (net : Net) :
    ∃ net' s', Step neg net s net' s' ∧ s'.Stopped ∧ s'.rank neg < s.rank neg := by
  cases s with
  | accepting k => exact hs.elim
  | returned r => exact absurd rfl (hr r)
  | measuring t =>
      obtain ⟨hstop, hb⟩ := hs
      cases hmain : t.main with
      | awaitingStop => exact absurd hmain hstop
      | reading k sum =>
          have hk : (Main.reading k sum).InBounds t.counters.length := hmain ▸ hb.main
          rcases Nat.lt_or_eq_of_le hk with hlt | heq
          · refine ⟨net, _, .finalLoad hmain (List.getElem?_eq_getElem hlt),
              ⟨by simp, hb.sampler, hb.warmup, hlt⟩, ?_⟩
            simp only [rank, Main.rank, hmain]
            omega
          · refine ⟨_, _, .finalDone hmain heq le_rfl,
              ⟨by simp, hb.sampler, hb.warmup, trivial⟩, ?_⟩
            simp only [rank, Main.rank, hmain]
            omega
      | joiningSampler bytes at_ =>
          -- join the sampler, or let it go on
          by_cases hret : ∃ samples, t.sampler = .returned samples
          · obtain ⟨samples, hret⟩ := hret
            refine ⟨net, _, .joinSampler hmain hret,
              ⟨by simp, hb.sampler, hb.warmup, trivial⟩, ?_⟩
            simp only [rank, Main.rank, hmain]
            omega
          · obtain ⟨clock', t', hstep, hrank⟩ := Sampler.exists_step t.t0 (window neg)
              net.clock hb.sampler fun samples h => hret ⟨samples, h⟩
            refine ⟨_, _, .sampler hstep, ⟨hstop, hstep.inBounds, hb.warmup, hb.main⟩, ?_⟩
            simp only [rank]
            omega
      | joiningWarmup bytes at_ samples =>
          -- join the snapshot, or let it go on
          by_cases hret : ∃ wbytes wat, t.warmup = .returned wbytes wat
          · obtain ⟨wbytes, wat, hret⟩ := hret
            refine ⟨net, _, .joinWarmup hmain hret, trivial, ?_⟩
            simp only [rank, Main.rank, hmain]
            omega
          · obtain ⟨clock', t', hstep, hrank⟩ := WarmupSnap.exists_step
              (fromSecs neg.warmupSecs) net.clock hb.warmup
              fun wbytes wat h => hret ⟨wbytes, wat, h⟩
            refine ⟨_, _, .warmup hstep, ⟨hstop, hb.sampler, hstep.inBounds, hb.main⟩, ?_⟩
            simp only [rank]
            omega

/-- Nothing to do but wait for the other end: no stream to accept, or nothing to
    receive and Stop not read. -/
def Serve.Idle (neg : Negotiate) (net : Net) : Serve → Prop
  | .accepting k => k < neg.parallel.toNat ∧ net.conns.length ≤ net.accepted
  | .measuring t => t.main = .awaitingStop ∧ ∀ c ∈ net.conns, c.unread = 0
  | .returned _ => False

/-- With something to receive, a receive loop has a step. -/
theorem Serve.Placed.exists_recv {t : Tasks} (hs : (Serve.measuring t).Placed neg net)
    (hlen : net.conns.length ≤ neg.parallel.toNat) {c : Conn} (hc : c ∈ net.conns)
    (hunread : c.unread ≠ 0) :
    ∃ net' s', Step neg net (.measuring t) net' s' ∧
      s'.rank neg + net'.unread < (Serve.measuring t).rank neg + net.unread := by
  obtain ⟨-, hcounters, -⟩ := hs
  obtain ⟨i, hi⟩ := List.mem_iff_getElem?.mp hc
  -- every stream opened has its counter
  have hlt : i < t.counters.length := by
    have hi := (List.getElem?_eq_some_iff.mp hi).1
    omega
  have hbuf : 0 < READ_BUF := by decide
  refine ⟨_, _, .recv hi (List.getElem?_eq_getElem hlt) (n := 1) Nat.one_pos (by omega), ?_⟩
  have hset := Net.unread_set hi { c with taken := c.taken + 1 }
  simp only [Conn.unread] at hset hunread
  simp only [rank, takeBytes, List.length_set]
  omega

/-- Unless it is idle or has returned, `serve` has a step towards its return. -/
theorem Serve.Placed.exists_step (hs : s.Placed neg net)
    (hlen : net.conns.length ≤ neg.parallel.toNat) (hidle : ¬ s.Idle neg net)
    (hr : ∀ r, s ≠ .returned r) :
    ∃ net' s', Step neg net s net' s' ∧ s'.rank neg + net'.unread < s.rank neg + net.unread := by
  cases s with
  | accepting k =>
      obtain ⟨rfl, -, hparallel⟩ := hs
      have hpending : net.accepted < neg.parallel.toNat → net.accepted < net.conns.length := by
        intro hlt
        by_contra hnone
        exact hidle ⟨hlt, by omega⟩
      obtain ⟨net', s', hstep, hconns, -, hrank⟩ := Serve.exists_accept hparallel hpending
      refine ⟨net', s', hstep, ?_⟩
      simp only [Net.unread, hconns]
      omega
  | measuring t =>
      -- before Stop only the receive loops are sure to go on
      by_cases hmain : t.main = .awaitingStop
      · have hsome : ∃ c ∈ net.conns, c.unread ≠ 0 := by
          by_contra hnone
          push Not at hnone
          exact hidle ⟨hmain, hnone⟩
        obtain ⟨c, hc, hunread⟩ := hsome
        exact hs.exists_recv hlen hc hunread
      · obtain ⟨net', s', hstep, -, hrank⟩ :=
          Serve.Stopped.exists_step neg (s := .measuring t) ⟨hmain, hs.2.2⟩ hr net
        have hunread := hstep.unread_le
        exact ⟨net', s', hstep, by omega⟩
  | returned r => exact absurd rfl (hr r)

/-- With all streams open and bytes to receive on one, nothing keeps `serve` waiting. -/
theorem Serve.Placed.not_idle_of_unread (hs : s.Placed neg net)
    (hconns : net.conns.length = neg.parallel.toNat) {c : Conn} (hc : c ∈ net.conns)
    (hunread : 0 < c.unread) : ¬ s.Idle neg net := by
  intro hidle
  cases s with
  | accepting k =>
      obtain ⟨rfl, -, -⟩ := hs
      obtain ⟨hmore, hnone⟩ := hidle
      omega
  | measuring t =>
      have hempty := hidle.2 c hc
      omega
  | returned r => exact hidle

/-- Once Stop has been read, `serve` can return, whatever the net. -/
theorem canReach_returned (neg : Negotiate) (hs : s.Stopped) (net : Net) :
    CanReach (fun c c' : Net × Serve => Step neg c.1 c.2 c'.1 c'.2)
      (fun c => ∃ r, c.2 = .returned r) (net, s) := by
  refine canReach_of_measure (I := fun c => c.2.Stopped) (fun c => c.2.rank neg) ?_ hs
  rintro ⟨net, s⟩ hs hgoal
  obtain ⟨net', s', hstep, hs', hrank⟩ :=
    Serve.Stopped.exists_step neg hs (fun r h => hgoal ⟨r, h⟩) net
  exact ⟨(net', s'), hstep, hs', hrank⟩

end Andri.Tcp

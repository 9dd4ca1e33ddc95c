/-
  Andri.Tcp.Drive

  `tcp::drive` of `src/modes/tcp.rs`: connect `parallel` times, then one send loop
  per stream writes the buffer until the deadline while the sampler shows the
  progress, and the main task joins them.  A write waits while the connection
  holds `cap` unread bytes.
-/
import Andri.Meter
import Andri.Net
import Andri.Tcp.Params

namespace Andri.Tcp

open Lib

/-- Program points of `send_loop`: its deadline check, a `write_all` with bytes left
    to write, returned. -/
inductive SendLoop
  | checking
  | writing (left : ℕ)
  | returned

/-- The tasks of a sending client.  No sampler runs when `quiet`. -/
structure Senders where
  t0 : ℕ
  deadline : ℕ
  loops : List SendLoop
  counters : List ℕ
  sampler : Option Sampler

/-- Program points of `drive`. -/
inductive Drive
  | connecting (k : ℕ)
  | sending (t : Senders)
  | returned

/-- `Duration::from_secs(neg.duration_secs + neg.warmup_secs)`. -/
def total (neg : Negotiate) : ℕ := fromSecs (windowSecs neg)

/-- The tasks just spawned. -/
def Senders.spawn (neg : Negotiate) (quiet : Bool) (t0 n : ℕ) : Senders where
  t0
  deadline := t0 + total neg
  loops := List.replicate n .checking
  counters := List.replicate n 0
  sampler := if quiet then none else some .spawned

/-- All send loops have been joined, and the sampler if there is one. -/
def Senders.Joined (t : Senders) : Prop :=
  (∀ l ∈ t.loops, l = .returned) ∧
  ∀ s, t.sampler = some s → ∃ samples, s = .returned samples

/-- A stream fed or closed by its owner. -/
def setConn (net : Net) (i : ℕ) (c : Conn) : Net := { net with conns := net.conns.set i c }

/-- Steps of `drive`, with the net before and after; `listening` says that the
    announced port accepts connections. -/
inductive Drive.Step (neg : Negotiate) (quiet : Bool) (cap : ℕ) (listening : Prop) :
    Net → Drive → Net → Drive → Prop
  | connect {net : Net} {k : ℕ} (hk : k < neg.parallel.toNat) (hl : listening) :
      Step neg quiet cap listening net (.connecting k)
        { net with conns := net.conns ++ [.fresh] } (.connecting (k + 1))
  | spawn {net : Net} {k now : ℕ} (hk : k = neg.parallel.toNat) (hnow : net.clock ≤ now) :
      Step neg quiet cap listening net (.connecting k) { net with clock := now }
        (.sending (.spawn neg quiet now k))
  | check {net : Net} {t : Senders} {i now : ℕ} (hl : t.loops[i]? = some .checking)
      (hnow : net.clock ≤ now) (hbefore : now < t.deadline) :
      Step neg quiet cap listening net (.sending t) { net with clock := now }
        (.sending { t with loops := t.loops.set i (.writing neg.bufferBytes.toNat) })
  /-- Past the deadline the loop returns and drops its stream. -/
  | finish {net : Net} {t : Senders} {i now : ℕ} {c : Conn} (hl : t.loops[i]? = some .checking)
      (hc : net.conns[i]? = some c) (hnow : net.clock ≤ now) (hpast : t.deadline ≤ now) :
      Step neg quiet cap listening net (.sending t)
        { setConn net i { c with closed := true } with clock := now }
        (.sending { t with loops := t.loops.set i .returned })
  | write {net : Net} {t : Senders} {i left n : ℕ} {c : Conn}
      (hl : t.loops[i]? = some (.writing left)) (hc : net.conns[i]? = some c)
      (hopen : c.closed = false) (hn : 0 < n) (hleft : n ≤ left) (hroom : c.unread + n ≤ cap) :
      Step neg quiet cap listening net (.sending t) (setConn net i { c with sent := c.sent + n })
        (.sending { t with loops := t.loops.set i (.writing (left - n)) })
  | wrote {net : Net} {t : Senders} {i b : ℕ} (hl : t.loops[i]? = some (.writing 0))
      (hb : t.counters[i]? = some b) :
      Step neg quiet cap listening net (.sending t) net
        (.sending { t with
          loops := t.loops.set i .checking
          counters := t.counters.set i (b + neg.bufferBytes.toNat) })
  | sampler {net : Net} {t : Senders} {clock' : ℕ} {s s' : Sampler} (hs : t.sampler = some s)
      (h : Sampler.Step t.t0 (total neg) t.counters net.clock s clock' s') :
      Step neg quiet cap listening net (.sending t) { net with clock := clock' }
        (.sending { t with sampler := some s' })
  | join {net : Net} {t : Senders} (hj : t.Joined) :
      Step neg quiet cap listening net (.sending t) net .returned

/-- The unfinished send loops all wait for room, and there is one. -/
def Senders.Blocked (cap : ℕ) (conns : List Conn) (t : Senders) : Prop :=
  (∃ l ∈ t.loops, l ≠ .returned) ∧
  ∀ (i : ℕ) (l : SendLoop), t.loops[i]? = some l → l ≠ .returned →
    ∃ left c, l = .writing left ∧ 0 < left ∧ conns[i]? = some c ∧ cap ≤ c.unread

/-! ## The streams a drive owns -/

/-- The tasks against the streams opened. -/
structure Senders.Placed (neg : Negotiate) (net : Net) (t : Senders) : Prop where
  conns : net.conns.length = neg.parallel.toNat
  loops : t.loops.length = neg.parallel.toNat
  counters : t.counters.length = neg.parallel.toNat
  opened : ∀ (i : ℕ) (c : Conn), net.conns[i]? = some c → t.loops[i]? ≠ some .returned →
    c.closed = false
  sampler : ∀ s, t.sampler = some s → s.InBounds t.counters.length

/-- The invariant of `drive`'s program points. -/
def Drive.Placed (neg : Negotiate) (net : Net) : Drive → Prop
  | .connecting k => net.conns.length = k ∧ k ≤ neg.parallel.toNat ∧
      ∀ c ∈ net.conns, c.closed = false
  | .sending t => t.Placed neg net
  | .returned => net.conns.length = neg.parallel.toNat

variable {neg : Negotiate} {quiet : Bool} {cap : ℕ} {listening : Prop} {net net' : Net}
  {d d' : Drive}

/-- A loop that goes on keeps its stream open. -/
theorem Senders.Placed.setLoop {t : Senders} (h : t.Placed neg net) {i : ℕ} {l : SendLoop}
    (hl : t.loops[i]? = some l) (hne : l ≠ .returned) (l' : SendLoop) (now : ℕ) :
    ({ t with loops := t.loops.set i l' } : Senders).Placed neg { net with clock := now } := by
  refine ⟨h.conns, by simpa using h.loops, h.counters, fun j c hc hj => ?_, h.sampler⟩
  apply h.opened j c hc
  intro hret
  -- the loop replaced had not returned, and the others are as they were
  by_cases hij : i = j
  · subst hij
    rw [hl] at hret
    exact hne (Option.some.inj hret)
  · exact hj (by rw [List.getElem?_set_ne hij, hret])

/-- Every step keeps the tasks and their streams together. -/
theorem Drive.Step.placed (h : Step neg quiet cap listening net d net' d')
    (hd : d.Placed neg net) : d'.Placed neg net' := by
  cases h with
  | connect hk hl =>
      obtain ⟨hlen, -, hopen⟩ := hd
      refine ⟨by simp [hlen], hk, fun c hc => ?_⟩
      rcases List.mem_append.mp hc with hold | hnew
      · exact hopen c hold
      · rw [List.mem_singleton.mp hnew, Conn.fresh]
  | spawn hk hnow =>
      obtain ⟨hlen, -, hopen⟩ := hd
      refine ⟨hlen.trans hk, by simp [Senders.spawn, hk], by simp [Senders.spawn, hk],
        fun i c hc _ => hopen c (List.mem_of_getElem? hc), fun s hs => ?_⟩
      cases quiet <;> cases hs
      trivial
  | check hl hnow hbefore => exact Senders.Placed.setLoop hd hl (by simp) _ _
  | @finish t i now c hl hc hnow hpast =>
      refine ⟨by simpa [setConn] using hd.conns, by simpa using hd.loops, hd.counters,
        fun j c' hc' hj => ?_, hd.sampler⟩
      -- the loop of the stream closed has returned
      by_cases hij : i = j
      · subst hij
        have hlt := (List.getElem?_eq_some_iff.mp hl).1
        exact absurd (List.getElem?_set_self hlt) hj
      · simp only [setConn, List.getElem?_set_ne hij] at hc'
        exact hd.opened j c' hc' (by rwa [List.getElem?_set_ne hij] at hj)
  | @write t i left n c hl hc hopen hn hleft hroom =>
      refine ⟨by simpa [setConn] using hd.conns, by simpa using hd.loops, hd.counters,
        fun j c' hc' hj => ?_, hd.sampler⟩
      by_cases hij : i = j
      · subst hij
        simp only [setConn, List.getElem?_set_self (List.getElem?_eq_some_iff.mp hc).1] at hc'
        cases hc'
        exact hopen
      · simp only [setConn, List.getElem?_set_ne hij] at hc'
        exact hd.opened j c' hc' (by rwa [List.getElem?_set_ne hij] at hj)
  | @wrote t i b hl hb =>
      have hset := Senders.Placed.setLoop hd hl (by simp) .checking net.clock
      exact ⟨hset.conns, hset.loops, by simpa using hset.counters, hset.opened,
        fun s hs => by simpa using hset.sampler s hs⟩
  | sampler hs h =>
      exact ⟨hd.conns, hd.loops, hd.counters, hd.opened, fun s hs' => by
        cases hs'
        exact h.inBounds⟩
  | join hj => exact hd.conns

/-- The server's reads leave the drive's streams as they are. -/
theorem Drive.Placed.congr (hd : d.Placed neg net)
    (h : net'.conns.map Conn.peerSide = net.conns.map Conn.peerSide) : d.Placed neg net' := by
  have hlen := length_eq_of_peerSide_eq h
  cases d with
  | connecting k =>
      obtain ⟨hk, hle, hopen⟩ := hd
      refine ⟨hlen.trans hk, hle, fun c' hc' => ?_⟩
      obtain ⟨i, hi⟩ := List.mem_iff_getElem?.mp hc'
      obtain ⟨c, hc, -, hclosed⟩ := getElem?_of_peerSide_eq h hi
      rw [hclosed]
      exact hopen c (List.mem_of_getElem? hc)
  | sending t =>
      refine ⟨hlen.trans hd.conns, hd.loops, hd.counters, fun i c' hc' hi => ?_, hd.sampler⟩
      obtain ⟨c, hc, -, hclosed⟩ := getElem?_of_peerSide_eq h hc'
      rw [hclosed]
      exact hd.opened i c hc hi
  | returned => exact hlen.trans hd

/-! ## The drive ends -/

/-- Steps a send loop needs past its deadline; a byte written counts twice, as it
    is still to be read. -/
def SendLoop.rank : SendLoop → ℕ
  | .checking => 1
  | .writing left => 2 * left + 2
  | .returned => 0

/-- Steps a sampler needs, if there is one. -/
def Senders.samplerRank (neg : Negotiate) (t : Senders) : ℕ :=
  match t.sampler with
  | some s => s.rank t.t0 (total neg) t.counters.length
  | none => 0

/-- Steps until the tasks are joined. -/
def Drive.rank (neg : Negotiate) : Drive → ℕ
  | .connecting k => (neg.parallel.toNat - k) + 3 * neg.parallel.toNat + 8
  | .sending t => (t.loops.map SendLoop.rank).sum + t.samplerRank neg + 1
  | .returned => 0

theorem Senders.rank_spawn_lt (neg : Negotiate) (quiet : Bool) (t0 : ℕ) :
    (Drive.sending (.spawn neg quiet t0 neg.parallel.toNat)).rank neg <
      (Drive.connecting neg.parallel.toNat).rank neg := by
  have hsampler : (Senders.spawn neg quiet t0 neg.parallel.toNat).samplerRank neg ≤
      2 * neg.parallel.toNat + 6 := by
    cases quiet <;> simp [Senders.samplerRank, Senders.spawn, Sampler.rank]
  have hloops : ((Senders.spawn neg quiet t0 neg.parallel.toNat).loops.map SendLoop.rank).sum =
      neg.parallel.toNat := by
    simp [Senders.spawn, SendLoop.rank]
  simp only [Drive.rank, hloops]
  omega

/-- With all its loops done, the drive has a step: the sampler's or the join. -/
theorem Senders.Placed.exists_join {t : Senders} (ht : t.Placed neg net)
    (hall : ∀ l ∈ t.loops, l = .returned) :
    ∃ net' d', Drive.Step neg quiet cap listening net (.sending t) net' d' ∧
      d'.rank neg + net'.unread < (Drive.sending t).rank neg + net.unread := by
  -- the sampler has returned, is not there, or has a step
  by_cases hdone : ∀ s, t.sampler = some s → ∃ samples, s = .returned samples
  · refine ⟨net, _, .join ⟨hall, hdone⟩, ?_⟩
    simp only [Drive.rank]
    omega
  · push Not at hdone
    obtain ⟨s, hs, hret⟩ := hdone
    obtain ⟨clock', s', hstep, hrank⟩ :=
      Sampler.exists_step t.t0 (total neg) net.clock (ht.sampler s hs) hret
    refine ⟨_, _, .sampler hs hstep, ?_⟩
    simp only [Drive.rank, Senders.samplerRank, hs, Net.unread]
    omega

/-- A loop that is neither done nor waiting for room has a step. -/
theorem Senders.Placed.exists_send {t : Senders} (ht : t.Placed neg net) {i : ℕ} {l : SendLoop}
    (hl : t.loops[i]? = some l) (hne : l ≠ .returned)
    (hroom : ∀ left c, l = .writing left → 0 < left → net.conns[i]? = some c → c.unread < cap) :
    ∃ net' d', Drive.Step neg quiet cap listening net (.sending t) net' d' ∧
      d'.rank neg + net'.unread < (Drive.sending t).rank neg + net.unread := by
  have hi : i < neg.parallel.toNat := ht.loops ▸ (List.getElem?_eq_some_iff.mp hl).1
  have hlt : i < net.conns.length := by rw [ht.conns]; exact hi
  have hconn : net.conns[i]? = some net.conns[i] := List.getElem?_eq_getElem hlt
  have hopen : net.conns[i].closed = false :=
    ht.opened i _ hconn (by rw [hl]; simpa using hne)
  have hsum := sum_map_set SendLoop.rank hl
  cases l with
  | returned => exact absurd rfl hne
  | checking =>
      -- the check is made past the deadline, so that the loop ends
      refine ⟨_, _, .finish hl hconn (le_max_left net.clock t.deadline) (le_max_right _ _), ?_⟩
      have hunread := Net.unread_set hconn { net.conns[i] with closed := true }
      have hsum := hsum .returned
      simp only [Conn.unread] at hunread
      simp only [SendLoop.rank] at hsum
      simp only [Drive.rank, Senders.samplerRank, setConn, Net.unread] at hunread ⊢
      omega
  | writing left =>
      cases left with
      | zero =>
          have hcounter : i < t.counters.length := by rw [ht.counters]; exact hi
          refine ⟨net, _, .wrote hl (List.getElem?_eq_getElem hcounter), ?_⟩
          have hsum := hsum .checking
          simp only [SendLoop.rank] at hsum
          simp only [Drive.rank, Senders.samplerRank, List.length_set]
          omega
      | succ left =>
          have hcap := hroom _ _ rfl (Nat.succ_pos left) hconn
          refine ⟨_, _, .write hl hconn hopen Nat.one_pos (by omega) hcap, ?_⟩
          have hunread := Net.unread_set hconn { net.conns[i] with sent := net.conns[i].sent + 1 }
          have hsum := hsum (.writing (left + 1 - 1))
          simp only [Conn.unread] at hunread
          simp only [SendLoop.rank] at hsum
          simp only [Drive.rank, Senders.samplerRank, setConn, Net.unread] at hunread ⊢
          omega

/-- A drive that is not over and not blocked has a step towards its end. -/
theorem Drive.Placed.exists_step (hd : d.Placed neg net) (hl : listening) (hr : d ≠ .returned)
    (hb : ∀ t, d = .sending t → ¬ t.Blocked cap net.conns) :
    ∃ net' d', Step neg quiet cap listening net d net' d' ∧
      d'.rank neg + net'.unread < d.rank neg + net.unread := by
  cases d with
  | returned => exact absurd rfl hr
  | connecting k =>
      obtain ⟨hlen, hk, -⟩ := hd
      rcases Nat.lt_or_eq_of_le hk with hlt | heq
      · refine ⟨_, _, .connect hlt hl, ?_⟩
        simp only [rank, Net.unread_connect]
        omega
      · subst heq
        refine ⟨_, _, .spawn rfl (le_refl net.clock), ?_⟩
        have hspawn := Senders.rank_spawn_lt neg quiet net.clock
        simp only [Net.unread]
        omega
  | sending t =>
      by_cases hall : ∀ l ∈ t.loops, l = .returned
      · exact Senders.Placed.exists_join hd hall
      · push Not at hall
        have hunblocked := hb t rfl
        rw [Senders.Blocked, not_and] at hunblocked
        have hsome := hunblocked hall
        push Not at hsome
        -- some loop is neither done nor waiting for room
        obtain ⟨i, l, hi, hne, hroom⟩ := hsome
        exact Senders.Placed.exists_send hd hi hne hroom

end Andri.Tcp

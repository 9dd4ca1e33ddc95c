/-
  Andri.Client.Recv

  A TCP test at both ends with `recv_loop` in its two steps: a read takes bytes off
  a connection, and `counter.add` counts them later, while everything else goes
  on.  With the bytes in hand put back on their connections this is the test in
  which a read counts at once, over connections that hold a receive buffer more.
-/
import Andri.Client.Flow

namespace Andri

open Lib

/-- A TCP test and the bytes that each `recv_loop` has read and not yet counted. -/
structure Receiving where
  joint : Joint
  hand : ℕ → ℕ

/-- A step of it: one half of a pass of a `recv_loop`, or anything else either end or the
    network may do. -/
inductive RecvStep (su : Setup) : Receiving → Receiving → Prop
  | read {x : Receiving} {n : Negotiate} {t : Tcp.Tasks} {i k : ℕ} {c : Conn}
      (hp : x.joint.world.session.phase = .running n (.tcp (.measuring t)))
      (hi : i < t.counters.length) (hc : x.joint.world.net.conns[i]? = some c)
      (hfree : x.hand i = 0) (hk : 0 < k) (hle : k ≤ min c.unread Tcp.READ_BUF) :
      RecvStep su x
        { joint := { x.joint with
            world := { x.joint.world with net := Tcp.takeBytes x.joint.world.net i k c } }
          hand := Function.update x.hand i k }
  | add {x : Receiving} {n : Negotiate} {t : Tcp.Tasks} {i b : ℕ}
      (hp : x.joint.world.session.phase = .running n (.tcp (.measuring t)))
      (hb : t.counters[i]? = some b) (hheld : 0 < x.hand i) :
      RecvStep su x
        { joint := { x.joint with
            world := x.joint.world.goto (.running n (.tcp (.measuring
              { t with counters := t.counters.set i (b + x.hand i) }))) }
          hand := Function.update x.hand i 0 }
  -- no data connection is read
  | other {x : Receiving} {j' : Joint} (h : JointStep su x.joint j')
      (hnone : ∀ (i : ℕ) (c c' : Conn), x.joint.world.net.conns[i]? = some c →
        j'.world.net.conns[i]? = some c' → c'.taken = c.taken) :
      RecvStep su x { x with joint := j' }

/-- The states of a TCP test, before the greeting with nothing in hand. -/
def ReceivingReachable (su : Setup) : Receiving → Prop :=
  Reachable (· = ⟨Joint.init, fun _ => 0⟩) (RecvStep su)

/-! ## The bytes in hand put back -/

/-- The net with the bytes in hand back on their connections. -/
def Net.settle (hand : ℕ → ℕ) (net : Net) : Net :=
  { net with conns := net.conns.mapIdx fun i c => { c with taken := c.taken - hand i } }

/-- The test in which nothing is in hand. -/
def Receiving.settled (x : Receiving) : Joint :=
  { x.joint with world := { x.joint.world with net := x.joint.world.net.settle x.hand } }

/-- What is in hand has been read, and fits the buffer; no more is read than was sent. -/
structure Net.Holding (hand : ℕ → ℕ) (net : Net) : Prop where
  buffer : ∀ i, hand i ≤ Tcp.READ_BUF
  read : ∀ i, 0 < hand i → ∃ c, net.conns[i]? = some c ∧ hand i ≤ c.taken
  sane : ∀ c ∈ net.conns, c.taken ≤ c.sent

section Settle

variable {hand : ℕ → ℕ} {net net' : Net} {i : ℕ} {c : Conn}

theorem Net.settle_getElem? (hand : ℕ → ℕ) (hc : net.conns[i]? = some c) :
    (net.settle hand).conns[i]? = some { c with taken := c.taken - hand i } := by
  simp [settle, hc]

@[simp] theorem Net.settle_length : (net.settle hand).conns.length = net.conns.length := by
  simp [settle]

/-- Nothing of a connection just opened is in hand. -/
theorem Net.settle_connect : Net.settle hand { net with conns := net.conns ++ [.fresh] } =
    { net.settle hand with conns := (net.settle hand).conns ++ [.fresh] } := by
  simp [settle, Conn.fresh]

/-- A connection replaced. -/
theorem Net.settle_set (net : Net) (hand : ℕ → ℕ) (i : ℕ) (c' : Conn) :
    Net.settle hand { net with conns := net.conns.set i c' } =
    { net.settle hand with conns :=
      (net.settle hand).conns.set i { c' with taken := c'.taken - hand i } } := by
  simp [settle]

/-- Bytes read and put back. -/
theorem Net.settle_read (hc : net.conns[i]? = some c) (hfree : hand i = 0) (k : ℕ) :
    (Tcp.takeBytes net i k c).settle (Function.update hand i k) = net.settle hand := by
  simp only [settle, Tcp.takeBytes, mk.injEq, true_and, and_true]
  apply List.ext_getElem?
  intro j
  rw [List.getElem?_mapIdx, List.getElem?_mapIdx]
  by_cases hj : i = j
  · subst hj
    rw [List.getElem?_set_self (List.getElem?_eq_some_iff.mp hc).1, hc]
    simp [hfree]
  · rw [List.getElem?_set_ne hj, Function.update_of_ne (Ne.symm hj)]

/-- Bytes counted are those put back, read again. -/
theorem Net.settle_add (hc : net.conns[i]? = some c) (hle : hand i ≤ c.taken) :
    net.settle (Function.update hand i 0) =
      Tcp.takeBytes (net.settle hand) i (hand i) { c with taken := c.taken - hand i } := by
  simp only [settle, Tcp.takeBytes, mk.injEq, true_and, and_true]
  apply List.ext_getElem?
  intro j
  by_cases hj : i = j
  · subst hj
    rw [List.getElem?_mapIdx, hc, List.getElem?_set_self]
    · simp only [Option.map_some, Function.update_self, Nat.sub_zero, Nat.sub_add_cancel hle]
    · rw [List.length_mapIdx]
      exact (List.getElem?_eq_some_iff.mp hc).1
  · rw [List.getElem?_mapIdx, List.getElem?_set_ne hj, List.getElem?_mapIdx,
      Function.update_of_ne (Ne.symm hj)]

/-- What the peer sent is there with the bytes in hand or without. -/
theorem Net.settle_sent : (net.settle hand).conns.map Conn.sent = net.conns.map Conn.sent := by
  apply List.ext_getElem?
  intro i
  simp only [settle, List.getElem?_map, List.getElem?_mapIdx, Option.map_map]
  rfl

/-- The peer takes nothing off a connection. -/
theorem Net.Holding.grows (h : net.Holding hand) (hgrows : net.Grows net') :
    net'.Holding hand where
  buffer := h.buffer
  read i hi := by
    obtain ⟨c, hc, hle⟩ := h.read i hi
    obtain ⟨c', hc', hg⟩ := hgrows.kept hc
    exact ⟨c', hc', by rwa [hg.taken]⟩
  sane c' hc' := by
    obtain ⟨i, hi⟩ := List.mem_iff_getElem?.mp hc'
    cases hold : net.conns[i]? with
    | none =>
        rw [hgrows.opened hi hold]
        exact Nat.zero_le _
    | some c =>
        obtain ⟨d, hd, hg⟩ := hgrows.kept hold
        rw [hi] at hd
        cases hd
        rw [hg.taken]
        exact (h.sane c (List.mem_of_getElem? hold)).trans hg.sent

/-- What one loop has in hand changes. -/
theorem Net.Holding.update (h : net.Holding hand) {k : ℕ} (hbuf : k ≤ Tcp.READ_BUF)
    (hread : 0 < k → ∃ c, net.conns[i]? = some c ∧ k ≤ c.taken) :
    net.Holding (Function.update hand i k) where
  buffer j := by
    by_cases hj : j = i
    · subst hj
      rwa [Function.update_self]
    · rw [Function.update_of_ne hj]
      exact h.buffer j
  read j hj := by
    by_cases hij : j = i
    · subst hij
      rw [Function.update_self] at hj ⊢
      exact hread hj
    · rw [Function.update_of_ne hij] at hj ⊢
      exact h.read j hj
  sane := h.sane

/-- A read takes at most a buffer of what is there. -/
theorem Net.Holding.take (h : net.Holding hand) {k : ℕ} (hc : net.conns[i]? = some c)
    (hle : k ≤ min c.unread Tcp.READ_BUF) :
    (Tcp.takeBytes net i k c).Holding (Function.update hand i k) := by
  have hset : (net.conns.set i { c with taken := c.taken + k })[i]? =
      some { c with taken := c.taken + k } :=
    List.getElem?_set_self (List.getElem?_eq_some_iff.mp hc).1
  have hsane := h.sane c (List.mem_of_getElem? hc)
  have hnet : (Tcp.takeBytes net i k c).Holding hand := by
    refine ⟨h.buffer, fun j hj => ?_, fun d hd => ?_⟩
    · obtain ⟨d, hd, hread⟩ := h.read j hj
      by_cases hij : i = j
      · subst hij
        rw [hc] at hd
        cases hd
        exact ⟨_, hset, hread.trans (Nat.le_add_right c.taken k)⟩
      · exact ⟨d, (List.getElem?_set_ne hij).trans hd, hread⟩
    · rcases List.mem_or_eq_of_mem_set hd with hold | rfl
      · exact h.sane d hold
      · simp only [Conn.unread] at hle
        show c.taken + k ≤ c.sent
        omega
  exact hnet.update (hle.trans (min_le_right _ _)) fun _ => ⟨_, hset, Nat.le_add_left k c.taken⟩

theorem Net.Holding.congr (h : net.Holding hand) (hconns : net'.conns = net.conns) :
    net'.Holding hand where
  buffer := h.buffer
  read := by rw [hconns]; exact h.read
  sane := by rw [hconns]; exact h.sane

/-- With its bytes in hand put back a connection holds a buffer more at most. -/
theorem Net.Holding.unread_le (h : net.Holding hand) (c : Conn) :
    ({ c with taken := c.taken - hand i } : Conn).unread ≤ c.unread + Tcp.READ_BUF := by
  have hbuf := h.buffer i
  simp only [Conn.unread]
  omega

/-- What a drive does to its connections a peer can do. -/
theorem Tcp.Drive.Step.grows {neg : Negotiate} {quiet : Bool} {cap : ℕ} {listening : Prop}
    {d d' : Tcp.Drive} (h : Tcp.Drive.Step neg quiet cap listening net d net' d') :
    net.Grows net' := by
  cases h with
  | connect => exact .connect net
  | spawn | check | wrote | sampler | join => exact .of_eq rfl rfl
  | @finish t i now c hl hc =>
      have hgrows : c.Grows { c with closed := true } := ⟨rfl, le_rfl, fun _ => ⟨rfl, rfl⟩⟩
      have hclose := Net.Grows.set hc hgrows
      exact ⟨rfl, hclose.kept, hclose.opened⟩
  | write hl hc hopen =>
      exact .set hc ⟨rfl, Nat.le_add_right _ _, fun h => absurd h (by simp [hopen])⟩

/-- A drive's step, over connections that hold a buffer more. -/
theorem Tcp.Drive.Step.settle {neg : Negotiate} {quiet : Bool} {cap : ℕ} {listening : Prop}
    {d d' : Tcp.Drive} (h : Tcp.Drive.Step neg quiet cap listening net d net' d')
    (hholding : net.Holding hand) :
    Tcp.Drive.Step neg quiet (cap + Tcp.READ_BUF) listening (net.settle hand) d
      (net'.settle hand) d' := by
  cases h with
  | connect hk hl =>
      rw [Net.settle_connect]
      exact .connect hk hl
  | spawn hk hnow => exact .spawn hk hnow
  | check hl hnow hbefore => exact .check hl hnow hbefore
  | @finish t i now c hl hc hnow hpast =>
      have hset := Net.settle_set { net with clock := now } hand i { c with closed := true }
      have hstep : Tcp.Drive.Step neg quiet (cap + Tcp.READ_BUF) listening
          (net.settle hand) _ _ _ :=
        .finish hl (Net.settle_getElem? hand hc) hnow hpast
      exact hset ▸ hstep
  | @write t i left n c hl hc hopen hn hleft hroom =>
      have hmore := hholding.unread_le (i := i) c
      have hset := Net.settle_set net hand i { c with sent := c.sent + n }
      have hstep : Tcp.Drive.Step neg quiet (cap + Tcp.READ_BUF) listening
          (net.settle hand) _ _ _ :=
        .write hl (Net.settle_getElem? hand hc) hopen hn hleft (by omega)
      exact hset ▸ hstep
  | wrote hl hb => exact .wrote hl hb
  | sampler hs h => exact .sampler hs h
  | join hj => exact .join hj

/-- A step of `tcp::serve` that reads no connection leaves them as they are. -/
theorem Tcp.Step.conns_eq {neg : Negotiate} {s s' : Tcp.Serve} (h : Tcp.Step neg net s net' s')
    (hnone : ∀ (i : ℕ) (c c' : Conn), net.conns[i]? = some c → net'.conns[i]? = some c' →
      c'.taken = c.taken) : net'.conns = net.conns := by
  cases h with
  | @recv t i n b c hc hb hn hle =>
      have hset : (Tcp.takeBytes net i n c).conns[i]? = some { c with taken := c.taken + n } :=
        List.getElem?_set_self (List.getElem?_eq_some_iff.mp hc).1
      have hsame : c.taken + n = c.taken := hnone i c _ hc hset
      omega
  | accept | spawn | sampler | warmup | finalLoad | finalDone | joinSampler | joinWarmup => rfl

/-- Such a step does not see where the bytes in hand are. -/
theorem Tcp.Step.settle {neg : Negotiate} {s s' : Tcp.Serve} (h : Tcp.Step neg net s net' s')
    (hconns : net'.conns = net.conns) :
    Tcp.Step neg (net.settle hand) s (net'.settle hand) s' := by
  cases h with
  | @recv t i n b c hc hb hn hle =>
      have hset : (Tcp.takeBytes net i n c).conns[i]? = some { c with taken := c.taken + n } :=
        List.getElem?_set_self (List.getElem?_eq_some_iff.mp hc).1
      rw [hconns, hc] at hset
      have htaken : c.taken = c.taken + n := congrArg Conn.taken (Option.some.inj hset)
      omega
  | accept hk hpending => exact .accept hk (by rwa [Net.settle_length])
  | spawn hk hnow => exact .spawn hk hnow
  | sampler h => exact .sampler h
  | warmup h => exact .warmup h
  | finalLoad hmain hk => exact .finalLoad hmain hk
  | finalDone hmain hk hnow => exact .finalDone hmain hk hnow
  | joinSampler hmain hs => exact .joinSampler hmain hs
  | joinWarmup hmain hw => exact .joinWarmup hmain hw

end Settle

/-! ## The test in which nothing is in hand -/

section Settled

variable {su : Setup} {x x' : Receiving}

/-- The connections of the test over which nothing is in hand hold a buffer more. -/
def Setup.buffered (su : Setup) : Setup := { su with cap := su.cap + Tcp.READ_BUF }

/-- A read leaves it as it is, an add is a read that counts at once, and anything else is
    the same step. -/
theorem RecvStep.settled (htcp : su.neg.mode = .tcp) (hstep : RecvStep su x x')
    (hholding : x.joint.world.net.Holding x.hand)
    (hreach : JointReachable su.buffered x.settled) :
    Run (JointStep su.buffered) x.settled x'.settled ∧
      x'.joint.world.net.Holding x'.hand := by
  have hagree := hreach.agree
  cases hstep with
  | @read n t i k c hp hi hc hfree hk hle =>
      have hsame := Net.settle_read hc hfree k
      refine ⟨?_, hholding.take hc hle⟩
      simp only [Receiving.settled, hsame]
      exact .refl
  | @add n t i b hp hb hheld =>
      obtain ⟨c, hc, hle⟩ := hholding.read i hheld
      have hsane := hholding.sane c (List.mem_of_getElem? hc)
      have hbuf := hholding.buffer i
      have hfits : x.hand i ≤ min ({ c with taken := c.taken - x.hand i } : Conn).unread
          Tcp.READ_BUF := by
        simp only [Conn.unread]
        omega
      have hrecv : DataStep n _ _ _ _ :=
        .tcp (.recv (Net.settle_getElem? x.hand hc) hb hheld hfits)
      rw [← Net.settle_add hc hle] at hrecv
      -- the hand is empty again
      exact ⟨.single (.server (.data hp hrecv)),
        hholding.update (Nat.zero_le _) fun hpos => absurd hpos (lt_irrefl 0)⟩
  | @other j' h hnone =>
      cases h with
      | network buf => exact ⟨.single (.network buf), hholding.congr rfl⟩
      | server h =>
          cases h with
          | read htake hp => exact ⟨.single (.server (.read htake hp)), hholding⟩
          | write hp => exact ⟨.single (.server (.write hp)), hholding⟩
          | bind hp port =>
              have hbind := ServerStep.bind (w := x.settled.world) hp port
              exact ⟨.single (.server hbind), hholding⟩
          | finish hp hr => exact ⟨.single (.server (.finish hp hr)), hholding⟩
          | @data n path path' net' hp h =>
              have hmode : path.mode = su.neg.mode := (hagree.session.mode_eq hp).symm
              cases h with
              | udp | file => cases hmode.trans htcp
              | tcp h =>
                  have hconns := h.conns_eq hnone
                  exact ⟨.single (.server (.data hp (.tcp (h.settle hconns)))),
                    hholding.congr hconns⟩
      | client h =>
          cases h with
          | read hm hp => exact ⟨.single (.client (.read hm hp)), hholding⟩
          | write hp => exact ⟨.single (.client (.write hp)), hholding⟩
          | driven hp hd => exact ⟨.single (.client (.driven hp hd)), hholding⟩
          | close hp => exact ⟨.single (.client (.close hp)), hholding⟩
          | @drive start d d' net' hp h =>
              have hplaced := hagree.placed
              rw [show x.settled.client = _ from hp] at hplaced
              obtain ⟨hmode, -⟩ := hplaced
              cases h with
              | udp | file => cases hmode.trans htcp
              | tcp h =>
                  exact ⟨.single (.client (.drive hp (.tcp (h.settle hholding)))),
                    hholding.grows h.grows⟩

theorem ReceivingReachable.settled (htcp : su.neg.mode = .tcp) (h : ReceivingReachable su x) :
    JointReachable su.buffered x.settled ∧ x.joint.world.net.Holding x.hand := by
  refine Reachable.invariant h (I := fun x => JointReachable su.buffered x.settled ∧
    x.joint.world.net.Holding x.hand) ?_ ?_
  · rintro x rfl
    exact ⟨Reachable.start rfl, fun i => Nat.zero_le _, fun i hi => absurd hi (lt_irrefl 0),
      fun c hc => by cases hc⟩
  · rintro x x' ⟨hreach, hholding⟩ hstep
    obtain ⟨hrun, hholding'⟩ := hstep.settled htcp hholding hreach
    exact ⟨hreach.run hrun, hholding'⟩

end Settled

/-! ## The two ends of a TCP test -/

/-- A TCP test at both ends, in any interleaving, with the reads of the receive loops and
    their adds apart.  While both run, the server's counter of a stream is no more
    than one buffer past the client's, and the client's no more than a full
    connection and a receive buffer past the server's.  A drive that is over has
    put whole buffers on every stream.  The final snapshot counts nothing that was
    not sent, and misses no more than the connections and the loops hold. -/
theorem tcp_flow {su : Setup} (htcp : su.neg.mode = .tcp) {x : Receiving}
    (h : ReceivingReachable su x) :
    (∀ start t n s, x.joint.client = .driving start (.tcp (.sending t)) →
      x.joint.world.session.phase = .running n (.tcp (.measuring s)) →
      ∀ (i b : ℕ), t.counters[i]? = some b → ∃ b', s.counters[i]? = some b' ∧
        b' ≤ b + su.neg.bufferBytes.toNat ∧ b ≤ b' + (su.cap + Tcp.READ_BUF)) ∧
    (x.joint.client = .stopping ∨ x.joint.client = .awaitingResult ∨
      (∃ r, x.joint.client = .done r) →
      ∀ c ∈ x.joint.world.net.conns, su.neg.bufferBytes.toNat ∣ c.sent) ∧
    ∀ n s bytes at_, x.joint.world.session.phase = .running n (.tcp (.measuring s)) →
      s.main = .joiningSampler bytes at_ ∨
        (∃ samples, s.main = .joiningWarmup bytes at_ samples) →
      bytes ≤ (x.joint.world.net.conns.map Conn.sent).sum ∧
      (x.joint.world.net.conns.map Conn.sent).sum ≤
        bytes + su.neg.parallel.toNat * (su.cap + Tcp.READ_BUF) := by
  obtain ⟨hreach, -⟩ := h.settled htcp
  have hbuffered : su.buffered.neg.mode = .tcp := htcp
  obtain ⟨hcounters, hwhole, hsnapshot⟩ := hreach.counted hbuffered
  have hsent : (x.settled.world.net.conns.map Conn.sent) = _ := Net.settle_sent
  refine ⟨hcounters, fun hdone c hc => ?_, fun n s bytes at_ hp hmain => ?_⟩
  · have hmem : c.sent ∈ x.settled.world.net.conns.map Conn.sent :=
      hsent ▸ List.mem_map_of_mem hc
    obtain ⟨c', hc', hsame⟩ := List.mem_map.mp hmem
    rw [← hsame]
    exact hwhole hdone c' hc'
  · rw [← hsent]
    exact hsnapshot n s bytes at_ hp hmain

/-- A step that leaves the connections as they are. -/
theorem RecvStep.of_conns_eq {su : Setup} {x : Receiving} {j' : Joint} (h : JointStep su x.joint j')
    (hconns : j'.world.net.conns = x.joint.world.net.conns) :
    RecvStep su x { x with joint := j' } := by
  refine .other h fun i c c' hc hc' => ?_
  rw [hconns, hc] at hc'
  cases hc'
  rfl

/-- A step of the drive. -/
theorem RecvStep.of_grows {su : Setup} {x : Receiving} {j' : Joint} (h : JointStep su x.joint j')
    (hgrows : x.joint.world.net.Grows j'.world.net) : RecvStep su x { x with joint := j' } := by
  refine .other h fun i c c' hc hc' => ?_
  obtain ⟨d, hd, hg⟩ := hgrows.kept hc
  rw [hc'] at hd
  cases hd
  exact hg.taken

/-- Two streams over connections of four bytes: three bytes of the first stream are
    written, two of them read and not counted. -/
theorem twoStreams_receiving :
    ∃ x start t s, ReceivingReachable ⟨twoStreams, true, 4⟩ x ∧
      x.joint.client = .driving start (.tcp (.sending t)) ∧
      x.joint.world.session.phase = .running twoStreams (.tcp (.measuring s)) ∧
      t.counters = [0, 0] ∧ s.counters = [0, 0] ∧ x.hand 0 = 2 := by
  have h : ReceivingReachable ⟨twoStreams, true, 4⟩ ⟨Joint.init, fun _ => 0⟩ := .start rfl
  have h := h.next (.of_conns_eq (.client (.write rfl)) rfl)
  have h := h.next (.of_conns_eq (.server (.read rfl rfl)) rfl)
  have h := h.next (.of_conns_eq (.server (.write rfl)) rfl)
  have h := h.next (.of_conns_eq (.client (.read rfl rfl)) rfl)
  have h := h.next (.of_conns_eq (.client (.write rfl)) rfl)
  have h := h.next (.of_conns_eq (.server (.read rfl rfl)) rfl)
  have h := h.next (.of_conns_eq (.server (.bind rfl 5202)) rfl)
  have h := h.next (.of_conns_eq (.server (.write rfl)) rfl)
  have h := h.next (.of_conns_eq (.client (.read rfl rfl)) rfl)
  have h := h.next (.of_conns_eq (.client (.write rfl)) rfl)
  have h := h.next (.of_conns_eq (.server (.read rfl rfl)) rfl)
  -- both streams are opened and accepted
  have h := h.next (.of_grows (.client (.drive rfl (.tcp (.connect (by decide) rfl)))) (.connect _))
  have h := h.next (.of_grows (.client (.drive rfl (.tcp (.connect (by decide) rfl)))) (.connect _))
  have h := h.next (.of_conns_eq (.client (.drive rfl (.tcp (.spawn rfl (Nat.le_refl 0))))) rfl)
  have h := h.next (.of_conns_eq (.server (.data rfl (.tcp (.accept (by decide) (by decide))))) rfl)
  have h := h.next (.of_conns_eq (.server (.data rfl (.tcp (.accept (by decide) (by decide))))) rfl)
  have h := h.next (.of_conns_eq (.server (.data rfl (.tcp (.spawn rfl (Nat.le_refl 0))))) rfl)
  -- one buffer is begun, and part of it read
  have h := h.next (.of_conns_eq (.client (.drive rfl
    (.tcp (.check (i := 0) rfl (Nat.le_refl 0) (by decide))))) rfl)
  have h := h.next (.of_grows (.client (.drive rfl (.tcp (.write (i := 0) (n := 3) rfl rfl rfl
    (by decide) (by decide) (by decide))))) (.set rfl ⟨rfl, by decide, fun hc => by cases hc⟩))
  have h := h.next (.read (i := 0) (k := 2) rfl (by decide) rfl rfl (by decide) (by decide))
  exact ⟨_, _, _, _, h, rfl, rfl, rfl, rfl, rfl⟩

theorem tcp_flow_twoStreams :
    ∃ x start t s b', ReceivingReachable ⟨twoStreams, true, 4⟩ x ∧
      x.joint.client = .driving start (.tcp (.sending t)) ∧
      x.joint.world.session.phase = .running twoStreams (.tcp (.measuring s)) ∧
      t.counters[0]? = some 0 ∧ s.counters[0]? = some b' ∧ b' ≤ 65536 := by
  obtain ⟨x, start, t, s, h, hclient, hphase, ht, -, -⟩ := twoStreams_receiving
  have hzero : t.counters[0]? = some 0 := by rw [ht]; rfl
  obtain ⟨hboth, -, -⟩ := tcp_flow (by rfl) h
  obtain ⟨b', hb', hle, -⟩ := hboth start t _ s hclient hphase 0 0 hzero
  exact ⟨x, start, t, s, b', h, hclient, hphase, hzero, hb', hle⟩

end Andri

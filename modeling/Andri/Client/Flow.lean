/-
  Andri.Client.Flow

  The bytes of a TCP test from the client's writes to the server's counters.  A
  stream holds what its counter says and the write begun, and the server is never
  more than a full connection behind, so the two ends' counters of a stream stay
  close, and the final snapshot misses no more than the connections hold.
-/
import Andri.Client.Progress
import Andri.Session.Backed
import Andri.Tcp.Fed

namespace Andri

open Lib

/-! ## A client's session is a session -/

/-- A step of the joint system is steps of the session against some peer. -/
theorem JointStep.session_run {su : Setup} {j j' : Joint}
    (hgone : j.world.ctrl.closed = true → ∃ r, j.client = .done r) (hstep : JointStep su j j') :
    Run Step j.world j'.world := by
  cases hstep with
  | server hstep => exact .single (.inl hstep)
  | network buf => exact .single (.inr (.inr (.datagram buf)))
  | client hstep =>
      cases hstep with
      | read | driven => exact .refl
      | close => exact .single (.inr (.inr .close))
      | drive hp hstep =>
          have hpeer : ∀ w w', PeerStep w w' → Step w w' := fun w w' h => .inr (.inr h)
          exact Relation.ReflTransGen.mono hpeer _ _ hstep.peer_run
      | write hp =>
          obtain ⟨-, -, -, -, hnotDone, -⟩ := ClientPhase.onWrite_cases hp
          -- a client that still writes has not dropped the connection
          have hopen : j.world.ctrl.closed = false := by
            by_contra hc
            obtain ⟨r, hr⟩ := hgone (by simpa using hc)
            exact hnotDone r hr
          exact .single (.inr (.inr (.send _ hopen)))

theorem JointReachable.session {su : Setup} {j : Joint} (h : JointReachable su j) :
    SessionReachable j.world := by
  have hinv : Agree su j ∧ SessionReachable j.world := by
    refine Reachable.invariant h (I := fun j => Agree su j ∧ SessionReachable j.world) ?_ ?_
    · rintro j rfl
      exact ⟨agree_init su, Reachable.start rfl⟩
    · rintro j j' ⟨hagree, hsession⟩ hstep
      exact ⟨hagree.step hstep, hsession.run (hstep.session_run hagree.gone)⟩
  exact hinv.2

/-! ## Connections hold no more than their capacity -/

/-- No connection holds more than `cap` unread bytes. -/
def Net.Room (cap : ℕ) (net : Net) : Prop := ∀ c ∈ net.conns, c.sent ≤ c.taken + cap

/-- The server only takes bytes off. -/
theorem ServerStep.taken_le {w w' : World} (h : ServerStep w w') {i : ℕ} {c' : Conn}
    (hc' : w'.net.conns[i]? = some c') :
    ∃ c, w.net.conns[i]? = some c ∧ c'.sent = c.sent ∧ c.taken ≤ c'.taken := by
  -- a connection read from, or the same one
  have hset : ∀ {conns : List Conn} {k n : ℕ} {c : Conn}, conns[k]? = some c →
      (conns.set k { c with taken := c.taken + n })[i]? = some c' →
      ∃ d, conns[i]? = some d ∧ c'.sent = d.sent ∧ d.taken ≤ c'.taken := by
    intro conns k n c hc hi
    by_cases hk : k = i
    · subst hk
      rw [List.getElem?_set_self (List.getElem?_eq_some_iff.mp hc).1] at hi
      cases hi
      exact ⟨c, hc, rfl, Nat.le_add_right _ _⟩
    · rw [List.getElem?_set_ne hk] at hi
      exact ⟨c', hi, rfl, le_rfl⟩
  cases h with
  | read | write | bind | finish => exact ⟨c', hc', rfl, le_rfl⟩
  | data hp h =>
      cases h with
      | tcp h =>
          cases h with
          | recv hc hb hn hle => exact hset hc hc'
          | accept | spawn | sampler | warmup | finalLoad | finalDone | joinSampler
          | joinWarmup => exact ⟨c', hc', rfl, le_rfl⟩
      | udp h => cases h <;> exact ⟨c', hc', rfl, le_rfl⟩
      | file h =>
          cases h with
          | @read t n c rest hmore hc hn hle =>
              have hhead : _ = some c := congrArg (fun l : List Conn => l[0]?) hc
              refine hset (n := n) hhead ?_
              rw [hc]
              exact hc'
          | accept | eof | done | samplerReceiving | samplerJoining | join =>
              exact ⟨c', hc', rfl, le_rfl⟩

section Room

variable {su : Setup} {net net' : Net}

theorem Net.Room.set {cap i : ℕ} {c' : Conn} (h : net.Room cap)
    (hc' : c'.sent ≤ c'.taken + cap) :
    ({ net with conns := net.conns.set i c' } : Net).Room cap := by
  intro d hd
  rcases List.mem_or_eq_of_mem_set hd with hold | rfl
  · exact h d hold
  · exact hc'

theorem Net.Room.connect {cap : ℕ} (h : net.Room cap) :
    ({ net with conns := net.conns ++ [.fresh] } : Net).Room cap := by
  intro c hc
  rcases List.mem_append.mp hc with hold | hnew
  · exact h c hold
  · rw [List.mem_singleton.mp hnew, Conn.fresh]
    exact Nat.zero_le _

/-- A write waits for room, whatever the mode. -/
theorem DriveStep.room {listening : Prop} {d d' : DriveState}
    (h : DriveStep su listening net d net' d') (hroom : net.Room su.cap) : net'.Room su.cap := by
  have hmem : ∀ {i : ℕ} {c : Conn}, net.conns[i]? = some c → c.sent ≤ c.taken + su.cap :=
    fun hc => hroom _ (List.mem_of_getElem? hc)
  cases h with
  | udp h =>
      unfold Net.Room
      rw [h.conns_eq]
      exact hroom
  | tcp h =>
      cases h with
      | connect => exact hroom.connect
      | spawn | check | wrote | sampler | join => exact hroom
      | finish hl hc =>
          have hold := hmem hc
          exact hroom.set hold
      | write hl hc hopen hn hleft hfree =>
          have hold := hmem hc
          unfold Conn.unread at hfree
          exact hroom.set (by dsimp only; omega)
  | file h =>
      cases h with
      | connect => exact hroom.connect
      | chunk | wrote => exact hroom
      | finish hall hc =>
          have hold := hmem hc
          exact hroom.set hold
      | write hc hopen hn hleft hfree =>
          have hold := hmem hc
          unfold Conn.unread at hfree
          exact hroom.set (by dsimp only; omega)

theorem ServerStep.room {cap : ℕ} {w w' : World} (h : ServerStep w w') (hroom : w.net.Room cap) :
    w'.net.Room cap := by
  intro c' hc'
  obtain ⟨i, hi⟩ := List.mem_iff_getElem?.mp hc'
  obtain ⟨c, hc, hsent, htaken⟩ := h.taken_le hi
  have hold := hroom c (List.mem_of_getElem? hc)
  omega

/-- No connection ever holds more than its capacity. -/
theorem JointReachable.room {j : Joint} (h : JointReachable su j) : j.world.net.Room su.cap := by
  refine Reachable.invariant h (I := fun j => j.world.net.Room su.cap) ?_ fun j j' hj hstep => ?_
  · rintro j rfl c hc
    cases hc
  · cases hstep with
    | server hstep => exact hstep.room hj
    | network buf => exact hj
    | client hstep =>
        cases hstep with
        | read | write | driven | close => exact hj
        | drive hp hstep => exact hstep.room hj

end Room

/-! ## The counters along a run -/

/-- What a client has put on its data connections. -/
def ClientPhase.Fed (neg : Negotiate) (net : Net) : ClientPhase → Prop
  | .driving _ (.tcp d) => d.Fed neg net
  | .stopping | .awaitingResult | .done _ => ∀ c ∈ net.conns, neg.bufferBytes.toNat ∣ c.sent
  | _ => True

/-- The final sum of a session misses no more than the connections summed hold. -/
def Tcp.Main.Misses (cap : ℕ) (net : Net) : Tcp.Main → Prop
  | .awaitingStop => True
  | .reading k sum => net.sentOn k ≤ sum + k * cap
  | .joiningSampler bytes _ | .joiningWarmup bytes _ _ =>
      (net.conns.map Conn.sent).sum ≤ bytes + net.conns.length * cap

/-- The bytes of a TCP test at both ends. -/
structure Flow (su : Setup) (j : Joint) : Prop where
  fed : j.client.Fed su.neg j.world.net
  misses : ∀ n t, j.world.session.phase = .running n (.tcp (.measuring t)) →
    t.main.Misses su.cap j.world.net

section Flow

variable {su : Setup} {j j' : Joint} {net net' : Net}

theorem Tcp.Drive.Fed.congr {neg : Negotiate} {d : Tcp.Drive} (h : d.Fed neg net)
    (hside : net'.conns.map Conn.peerSide = net.conns.map Conn.peerSide) : d.Fed neg net' := by
  have hmem : ∀ c' ∈ net'.conns, ∃ c ∈ net.conns, c'.sent = c.sent := by
    intro c' hc'
    obtain ⟨i, hi⟩ := List.mem_iff_getElem?.mp hc'
    obtain ⟨c, hc, hsent, -⟩ := getElem?_of_peerSide_eq hside hi
    exact ⟨c, List.mem_of_getElem? hc, hsent⟩
  cases d with
  | connecting k =>
      intro c' hc'
      obtain ⟨c, hc, hsent⟩ := hmem c' hc'
      rw [hsent, h c hc]
  | sending t =>
      intro i c' hc'
      obtain ⟨c, hc, hsent, -⟩ := getElem?_of_peerSide_eq hside hc'
      rw [hsent]
      exact h i c hc
  | returned =>
      intro c' hc'
      obtain ⟨c, hc, hsent⟩ := hmem c' hc'
      rw [hsent]
      exact h c hc

/-- The server's reads leave what the client has sent. -/
theorem ClientPhase.Fed.congr {neg : Negotiate} {p : ClientPhase} (h : p.Fed neg net)
    (hside : net'.conns.map Conn.peerSide = net.conns.map Conn.peerSide) : p.Fed neg net' := by
  have hover : Tcp.Drive.Fed neg net .returned → Tcp.Drive.Fed neg net' .returned :=
    fun h => h.congr hside
  cases p with
  | driving s d =>
      cases d with
      | tcp d => exact Tcp.Drive.Fed.congr h hside
      | udp | file => trivial
  | stopping | awaitingResult | done => exact hover h
  | greeting | awaitingWelcome | negotiating | awaitingStart | starting | failed => trivial

/-- The client's part of the flow: its own writes, and its reads of answers. -/
theorem Flow.fed_client (htcp : su.neg.mode = .tcp) (h : Flow su j) (hagree : Agree su j)
    (hstep : ClientStep su j j') : j'.client.Fed su.neg j'.world.net := by
  have hfed := h.fed
  have hplaced := hagree.placed
  cases hstep with
  | @read m p hm hp =>
      rcases hagree.onRead hm hp with ⟨hc, rfl⟩ | ⟨s, hc, -, rfl⟩ | ⟨r, hc, -, rfl⟩
      · trivial
      · trivial
      · rw [hc] at hfed
        exact hfed
  | @write m p hp =>
      cases hc : j.client with
      | greeting | negotiating =>
          rw [hc] at hp
          cases hp
          trivial
      | starting s =>
          rw [hc] at hp hplaced
          cases hp
          have hconns : j.world.net.conns = [] := hplaced
          show (ClientPhase.driving s (.entry su.neg.mode)).Fed su.neg _
          rw [htcp]
          intro c hmem
          rw [show j.world.net.conns = [] from hconns] at hmem
          cases hmem
      | stopping =>
          rw [hc] at hp hfed
          cases hp
          exact hfed
      | awaitingWelcome | awaitingStart | driving | awaitingResult | done | failed =>
          rw [hc] at hp
          cases hp
  | drive hp hstep =>
      rw [hp] at hfed hplaced
      obtain ⟨hmode, hd⟩ := hplaced
      cases hstep with
      | tcp hstep => exact hstep.fed hd hfed
      | udp | file => trivial
  | @driven start d hp hd =>
      rw [hp] at hfed hplaced
      obtain ⟨hmode, -⟩ := hplaced
      cases d with
      | tcp d =>
          cases d with
          | returned => exact hfed
          | connecting | sending => exact hd.elim
      | udp | file => cases hmode.trans htcp
  | close => exact hfed

/-! ## The final sum -/

theorem Net.sentOn_congr (hside : net'.conns.map Conn.peerSide = net.conns.map Conn.peerSide)
    (k : ℕ) : net'.sentOn k = net.sentOn k := by
  unfold Net.sentOn
  rw [List.map_take, List.map_take, sent_eq_of_peerSide_eq hside]

theorem Net.sentOn_succ {k : ℕ} {c : Conn} (hc : net.conns[k]? = some c) :
    net.sentOn (k + 1) = net.sentOn k + c.sent := by
  unfold Net.sentOn
  rw [List.take_add_one, hc, List.map_append, List.sum_append]
  simp

theorem Tcp.Main.Misses.congr {cap : ℕ} {m : Tcp.Main} (h : m.Misses cap net)
    (hside : net'.conns.map Conn.peerSide = net.conns.map Conn.peerSide) : m.Misses cap net' := by
  cases m with
  | awaitingStop => trivial
  | reading k sum =>
      show net'.sentOn k ≤ _
      rw [Net.sentOn_congr hside]
      exact h
  | joiningSampler bytes at_ | joiningWarmup bytes at_ =>
      show (net'.conns.map Conn.sent).sum ≤ bytes + net'.conns.length * cap
      rw [sent_eq_of_peerSide_eq hside, length_eq_of_peerSide_eq hside]
      exact h

/-- A step of the measurement keeps what the final sum misses. -/
theorem Tcp.Step.misses {neg : Negotiate} {cap : ℕ} {s : Tcp.Serve} {t' : Tcp.Tasks}
    (h : Tcp.Step neg net s net' (.measuring t')) (hplaced : s.Placed neg net)
    (hbacked : s.Backed neg net) (hroom : net.Room cap)
    (hlen : net.conns.length ≤ neg.parallel.toNat)
    (hmisses : ∀ t, s = .measuring t → t.main.Misses cap net) : t'.main.Misses cap net' := by
  have hside := h.peerSide_eq
  cases h with
  | spawn => trivial
  | recv hc hb hn hle => exact (hmisses _ rfl).congr hside
  | sampler | warmup => exact (hmisses _ rfl).congr hside
  | @finalLoad t k sum b hmain hk =>
      have hold : net.sentOn k ≤ sum + k * cap := by
        have hold := hmisses _ rfl
        rwa [hmain] at hold
      -- the counter loaded is what has been taken off the connection
      obtain ⟨c, hc, htaken⟩ : ∃ c, net.conns[k]? = some c ∧ c.taken = b := by
        have hlt := (List.getElem?_eq_some_iff.mp hk).1
        rw [hplaced.2.1] at hlt
        rw [hbacked.1, List.getElem?_take_of_lt hlt, List.getElem?_map] at hk
        exact Option.map_eq_some_iff.mp hk
      have hheld := hroom c (List.mem_of_getElem? hc)
      show net.sentOn (k + 1) ≤ sum + b + (k + 1) * cap
      rw [Net.sentOn_succ hc, Nat.add_mul]
      omega
  | @finalDone t k sum now hmain hk hnow =>
      have hold : net.sentOn k ≤ sum + k * cap := by
        have hold := hmisses _ rfl
        rwa [hmain] at hold
      -- all connections have been summed
      have hall : k = net.conns.length := by
        have hparallel := hplaced.2.1
        have hopened := hplaced.1
        omega
      show (net.conns.map Conn.sent).sum ≤ sum + net.conns.length * cap
      rw [← hall]
      rwa [Net.sentOn, hall, List.take_length, ← hall] at hold
  | @joinSampler t bytes at_ samples hmain hs =>
      have hold := hmisses _ rfl
      rw [hmain] at hold
      exact hold

/-- A client whose Stop has been read does nothing to the data connections. -/
theorem ClientStep.net_eq_of_sent (h : ClientStep su j j') (hsent : j.client.sent = 4) :
    j'.world.net = j.world.net := by
  cases h with
  | read | write | driven | close => rfl
  | drive hp hstep =>
      rw [hp] at hsent
      cases hsent

/-- Past `stop.await` all the client has to say has been read. -/
theorem Agree.sent_of_stopped (h : Agree su j) {n : Negotiate} {t : Tcp.Tasks}
    (hp : j.world.session.phase = .running n (.tcp (.measuring t)))
    (hmain : t.main ≠ .awaitingStop) : j.client.sent = 4 := by
  have hopen : ¬ j.world.Closed := by
    rw [World.Closed, hp]
    exact Phase.noConfusion
  have hreads : j.world.ctrl.read.length = 4 := by
    rw [(h.session.lengths hopen).1, hp]
    cases hm : t.main with
    | awaitingStop => exact absurd hm hmain
    | reading | joiningSampler | joiningWarmup =>
        simp [Phase.reads, DataPath.stopReads, hm]
  have hsent := h.sent
  rw [List.length_append, hreads] at hsent
  have hle : j.client.sent ≤ 4 := by
    cases j.client <;> simp [ClientPhase.sent]
  omega

/-- The session's part of the flow: its loads of the counters. -/
theorem Flow.misses_server (h : Flow su j) (hreach : JointReachable su j) {w' : World}
    (hstep : ServerStep j.world w') (n : Negotiate) (t : Tcp.Tasks)
    (hp' : w'.session.phase = .running n (.tcp (.measuring t))) : t.main.Misses su.cap w'.net := by
  have hagree := hreach.agree
  have hsound := hagree.session.sound
  cases hstep with
  | read htake hq =>
      cases Session.onRead_cases hq with
      | @run m hs =>
          change dispatch _ _ = _ at hp'
          rw [dispatch_eq (hsound.history.bound m (by rw [hs]; rfl))] at hp'
          cases hm : m.mode <;> rw [hm] at hp' <;> cases hp'
      | tcpStop hs hmain =>
          cases hp'
          exact Nat.zero_le _
      | hello | negotiate | unexpected | failed | udpStop | drained => cases hp'
  | write hq =>
      change _ = _ at hp'
      cases Phase.onWrite_cases hq <;> cases hp'
  | bind hp port =>
      change (bindData _ _).phase = _ at hp'
      rw [bindData_phase] at hp'
      cases hp'
  | finish hp hr =>
      change afterData _ _ = _ at hp'
      exact absurd hp' (afterData_ne_running _ _ _ _)
  | @data m path path' net' hp hdata =>
      cases hp'
      obtain rfl : n = su.neg := hagree.session.request_eq (by rw [hp]; rfl)
      cases hdata with
      | tcp hdata =>
          have hmode : su.neg.mode = .tcp := hagree.session.mode_eq hp
          have hlen : j.world.net.conns.length ≤ su.neg.parallel.toNat := by
            have hle := hagree.conns_le
            rwa [streams, hmode] at hle
          have hbacked := ((carries_backed.carried hreach.session).running _ _ hp).2
          exact hdata.misses (hsound.data.during _ _ hp) hbacked hreach.room hlen
            fun t ht => h.misses _ t (by rw [hp, ht])

/-- Every step keeps the flow. -/
theorem Flow.step (htcp : su.neg.mode = .tcp) (h : Flow su j) (hreach : JointReachable su j)
    (hstep : JointStep su j j') : Flow su j' := by
  have hagree := hreach.agree
  cases hstep with
  | server hstep =>
      exact ⟨h.fed.congr hstep.peerSide_eq, fun n t hp => h.misses_server hreach hstep n t hp⟩
  | network buf => exact ⟨h.fed.congr rfl, fun n t hp => (h.misses n t hp).congr rfl⟩
  | client hstep =>
      refine ⟨h.fed_client htcp hagree hstep, fun n t hp => ?_⟩
      have hsession : j'.world.session = j.world.session := by cases hstep <;> rfl
      rw [hsession] at hp
      -- a sum is read only once the client has nothing left to write
      by_cases hmain : t.main = .awaitingStop
      · rw [hmain]
        trivial
      · rw [hstep.net_eq_of_sent (hagree.sent_of_stopped hp hmain)]
        exact h.misses n t hp

theorem JointReachable.flow (htcp : su.neg.mode = .tcp) (h : JointReachable su j) :
    Flow su j := by
  have hinv : JointReachable su j ∧ Flow su j := by
    refine Reachable.invariant h (I := fun j => JointReachable su j ∧ Flow su j) ?_ ?_
    · rintro j rfl
      exact ⟨Reachable.start rfl, trivial, fun n t hp => by cases hp⟩
    · rintro j j' ⟨hreach, hflow⟩ hstep
      exact ⟨hreach.next hstep, hflow.step htcp hreach hstep⟩
  exact hinv.2

end Flow

/-! ## The two ends of a TCP test -/

/-- The counters of the two ends while each read counts at once: the server's of a stream
    is no more than one buffer past the client's, and the client's no more than a
    full connection past the server's.  A drive that is over has put whole buffers
    on every stream.  The final snapshot counts nothing that was not sent, and misses
    no more than the connections hold. -/
theorem JointReachable.counted {su : Setup} (htcp : su.neg.mode = .tcp) {j : Joint}
    (h : JointReachable su j) :
    (∀ start t n s, j.client = .driving start (.tcp (.sending t)) →
      j.world.session.phase = .running n (.tcp (.measuring s)) →
      ∀ (i b : ℕ), t.counters[i]? = some b → ∃ b', s.counters[i]? = some b' ∧
        b' ≤ b + su.neg.bufferBytes.toNat ∧ b ≤ b' + su.cap) ∧
    (j.client = .stopping ∨ j.client = .awaitingResult ∨ (∃ r, j.client = .done r) →
      ∀ c ∈ j.world.net.conns, su.neg.bufferBytes.toNat ∣ c.sent) ∧
    ∀ n s bytes at_, j.world.session.phase = .running n (.tcp (.measuring s)) →
      s.main = .joiningSampler bytes at_ ∨
        (∃ samples, s.main = .joiningWarmup bytes at_ samples) →
      bytes ≤ (j.world.net.conns.map Conn.sent).sum ∧
      (j.world.net.conns.map Conn.sent).sum ≤ bytes + su.neg.parallel.toNat * su.cap := by
  have hagree := h.agree
  have hflow := h.flow htcp
  have hfed := hflow.fed
  have hplaced := hagree.placed
  -- what the session's counters say
  have hrunning : ∀ n s, j.world.session.phase = .running n (.tcp (.measuring s)) →
      n = su.neg ∧ su.neg.parallel.toNat ≤ j.world.net.conns.length ∧ j.world.net.Sane ∧
      (Tcp.Serve.measuring s).Backed su.neg j.world.net := by
    intro n s hp
    obtain rfl : n = su.neg := hagree.session.request_eq (by rw [hp]; rfl)
    obtain ⟨hsane, hbacked⟩ := (carries_backed.carried h.session).running _ _ hp
    have hserve : (Tcp.Serve.measuring s).Placed su.neg j.world.net :=
      hagree.session.sound.data.during _ _ hp
    exact ⟨rfl, hserve.1, hsane, hbacked⟩
  have hopened : j.world.net.conns.length ≤ su.neg.parallel.toNat := by
    have hle := hagree.conns_le
    rwa [streams, htcp] at hle
  refine ⟨fun start t n s hc hp i b hb => ?_, fun hdone => ?_, fun n s bytes at_ hp hmain => ?_⟩
  · obtain ⟨rfl, hlen, hsane, hcounters, -⟩ := hrunning n s hp
    rw [hc] at hfed hplaced
    have hsenders : t.Placed su.neg j.world.net := hplaced.2
    have hi : i < su.neg.parallel.toNat := by
      rw [← hsenders.counters]
      exact (List.getElem?_eq_some_iff.mp hb).1
    have hlt : i < j.world.net.conns.length := hi.trans_le hlen
    have hconn : j.world.net.conns[i]? = some j.world.net.conns[i] := List.getElem?_eq_getElem hlt
    obtain ⟨l, b', -, hb', hstream⟩ := hfed i _ hconn
    rw [hb] at hb'
    cases hb'
    have hmem := List.mem_of_getElem? hconn
    refine ⟨j.world.net.conns[i].taken, ?_, ?_, ?_⟩
    · rw [hcounters, List.getElem?_take_of_lt hi, List.getElem?_map, hconn]
      rfl
    · calc j.world.net.conns[i].taken
          ≤ j.world.net.conns[i].sent := hsane _ hmem
        _ = b + l.begun su.neg.bufferBytes.toNat := hstream.sent
        _ ≤ b + su.neg.bufferBytes.toNat := Nat.add_le_add_left (l.begun_le _) b
    · calc b ≤ b + l.begun su.neg.bufferBytes.toNat := Nat.le_add_right _ _
        _ = j.world.net.conns[i].sent := hstream.sent.symm
        _ ≤ j.world.net.conns[i].taken + su.cap := h.room _ hmem
  · rcases hdone with hc | hc | ⟨r, hc⟩ <;> rw [hc] at hfed <;> exact hfed
  · obtain ⟨rfl, hlen, hsane, hcounters, hwithin⟩ := hrunning n s hp
    have hall : j.world.net.conns.length = su.neg.parallel.toNat := le_antisymm hopened hlen
    have hmisses := hflow.misses _ _ hp
    have hsum := hsane.sum_taken_le su.neg.parallel.toNat
    rw [← hcounters, Net.sentOn, List.take_of_length_le hopened] at hsum
    -- either way the sum is the snapshot, read in full
    have hsnapshot : bytes ≤ s.counters.sum ∧
        (j.world.net.conns.map Conn.sent).sum ≤ bytes + j.world.net.conns.length * su.cap := by
      rcases hmain with hmain | ⟨samples, hmain⟩ <;> rw [hmain] at hwithin hmisses <;>
        exact ⟨hwithin, hmisses⟩
    rw [hall] at hsnapshot
    exact ⟨hsnapshot.1.trans hsum, hsnapshot.2⟩

/-- The handshake leads both ends to the data path. -/
theorem JointReachable.entered (su : Setup) (port : U16) :
    JointReachable su ⟨.driving ⟨port, SERVER_SEED⟩ (.entry su.neg.mode), 2,
      World.entered clientHello su.neg port⟩ := by
  have hinit : JointReachable su Joint.init := Reachable.start rfl
  have hello := (hinit.next (.client (.write rfl))).next (.server (.read rfl rfl))
  have welcome := (hello.next (.server (.write rfl))).next (.client (.read rfl rfl))
  have request := (welcome.next (.client (.write rfl))).next (.server (.read rfl rfl))
  have bound := request.next (.server (.bind rfl port))
  obtain ⟨⟨mode, _⟩, _⟩ := su
  cases mode <;>
    exact (((bound.next (.server (.write rfl))).next (.client (.read rfl rfl))).next
      (.client (.write rfl))).next (.server (.read rfl rfl))

end Andri

/-
  Andri.Udp.Link

  `udp::drive` and `udp::serve` of `src/modes/udp.rs` with the network between them.
  The two hosts have clocks of their own.  A datagram that left the sender may be
  lost, delayed, reordered or delivered more than once; the receiver hears what
  was delivered in the order it came in.

  The sender stamps increasing sequence numbers, so the receiver's totals can be
  read against the datagrams sent: no loss is reported that did not happen, and
  nothing sent is counted in two ways.
-/
import Andri.Lib.Channel
import Andri.Lib.Transition
import Andri.Udp.Jitter
import Andri.Udp.Offered
import Andri.Udp.Overflow
import Andri.Udp.Series

namespace Andri.Udp

open Lib LossJitter

/-! ## Sender, network and receiver -/

/-- A sender and a receiver.  `out.dgrams` are the datagrams that have left the sender,
    `inn.dgrams` those at the receiver's socket, `arrivals` the positions of the
    datagrams delivered so far, and `stamped` the sender's sequence counter. -/
structure Link where
  sender : Drive
  out : Net
  receiver : Serve
  inn : Net
  arrivals : List ℕ
  stamped : ℕ

/-- The sequence counter of a drive under way. -/
def Drive.seq (d : Drive) : Option ℕ := d.sending.map fun p => p.2.seq

/-- Steps of either end and of the network. -/
inductive Link.Step (neg : Negotiate) : Link → Link → Prop
  | drive {k : Link} {out' : Net} {d' : Drive} (h : Drive.Step neg k.out k.sender out' d') :
      Step neg k { k with
        out := out', sender := d', stamped := d'.seq.getD k.stamped }
  | deliver {k : Link} {i : ℕ} {buf : List Byte} (hi : k.out.dgrams[i]? = some buf) :
      Step neg k { k with
        inn := { k.inn with dgrams := k.inn.dgrams ++ [buf] }, arrivals := k.arrivals ++ [i] }
  | serve {k : Link} {inn' : Net} {s' : Serve} (h : Udp.Step neg k.inn k.receiver inn' s') :
      Step neg k { k with inn := inn', receiver := s' }
  /-- Stop is read from the control connection. -/
  | stop {k : Link} {s' : Serve} (h : k.receiver.onStop = some s') :
      Step neg k { k with receiver := s' }

/-- Neither end has started. -/
def Link.init : Link := ⟨.starting, .init, .starting, .init, [], 0⟩

/-- The states a sender and a receiver can be in. -/
def Linked (neg : Negotiate) : Link → Prop := Reachable (· = Link.init) (Link.Step neg)

/-! ## The datagrams sent -/

/-- The sequence number a datagram carries. -/
def seqOf (buf : List Byte) : ℕ :=
  match unstamp buf with
  | some (seq, _) => seq.toNat
  | none => 0

/-- A datagram of the drive: its size, and a send time the sender's clock has reached. -/
structure Stamped (neg : Negotiate) (clock : ℕ) (buf : List Byte) : Prop where
  length : buf.length = (packetBytes neg).toNat
  header : ∃ seq sendNs, unstamp buf = some (seq, sendNs) ∧ sendNs.toNat ≤ clock

/-- The datagrams that left the sender carry increasing sequence numbers below `n`. -/
structure Numbered (neg : Negotiate) (clock n : ℕ) (sent : List (List Byte)) : Prop where
  stamped : ∀ buf ∈ sent, Stamped neg clock buf
  increasing : (sent.map seqOf).Pairwise (· < ·)
  below : ∀ buf ∈ sent, seqOf buf < n

theorem seqOf_stamp (payload : List Byte) (seq sendNs : U64) :
    seqOf (stamp payload seq sendNs) = seq.toNat := by
  simp [seqOf, unstamp_stamp]

section Numbered

variable {neg : Negotiate} {clock clock' n n' : ℕ} {sent : List (List Byte)}

theorem Numbered.mono (h : Numbered neg clock n sent) (hclock : clock ≤ clock') (hn : n ≤ n') :
    Numbered neg clock' n' sent where
  stamped buf hbuf := by
    obtain ⟨hlen, seq, sendNs, hheader, hle⟩ := h.stamped buf hbuf
    exact ⟨hlen, seq, sendNs, hheader, hle.trans hclock⟩
  increasing := h.increasing
  below buf hbuf := (h.below buf hbuf).trans_le hn

/-- The datagram stamped next comes after all others. -/
theorem Numbered.send {payload : List Byte} {t0 now : ℕ} {s : SendLoop}
    (h : Numbered neg clock s.seq sent) (hfit : s.seq < 2 ^ 64) (hclock : clock ≤ now)
    (hlen : payload.length = (packetBytes neg).toNat) :
    Numbered neg now (s.seq + 1) (sent ++ [datagram payload t0 now s]) := by
  have hseq : seqOf (datagram payload t0 now s) = s.seq := by
    rw [datagram, seqOf_stamp, BitVec.toNat_ofNat, Nat.mod_eq_of_lt hfit]
  refine ⟨fun buf hbuf => ?_, ?_, fun buf hbuf => ?_⟩
  · rcases List.mem_append.mp hbuf with hold | hnew
    · exact (h.mono hclock le_rfl).stamped buf hold
    · rw [List.mem_singleton.mp hnew]
      refine ⟨?_, _, _, unstamp_stamp, ?_⟩
      · rw [datagram, length_stamp (by rw [hlen]; exact packetBytes_ge neg), hlen]
      · rw [BitVec.toNat_ofNat]
        exact (Nat.mod_le _ _).trans (Nat.sub_le _ _)
  · rw [List.map_append, List.pairwise_append]
    refine ⟨h.increasing, List.pairwise_singleton _ _, fun x hx y hy => ?_⟩
    obtain ⟨buf, hbuf, rfl⟩ := List.mem_map.mp hx
    rw [List.mem_singleton.mp hy, hseq]
    exact h.below buf hbuf
  · rcases List.mem_append.mp hbuf with hold | hnew
    · exact (h.below buf hold).trans (Nat.lt_succ_self _)
    · rw [List.mem_singleton.mp hnew, hseq]
      exact Nat.lt_succ_self _

end Numbered

/-- The sender's side of a link: its counter, and what has left it, as long as the counter
    has not wrapped. -/
structure Link.Sends (neg : Negotiate) (k : Link) : Prop where
  starting : k.sender = .starting → k.stamped = 0
  seq : ∀ n, k.sender.seq = some n → n = k.stamped
  numbered : k.stamped ≤ 2 ^ 64 → Numbered neg k.out.clock k.stamped k.out.dgrams

theorem Drive.Step.clock_le {neg : Negotiate} {net net' : Net} {d d' : Drive}
    (h : Drive.Step neg net d net' d') : net.clock ≤ net'.clock := by
  cases h with
  | start hnow hle => exact hnow.trans hle
  | go hnow | finish hnow | tick hnow | send hmore hnow | lose hmore hnow => exact hnow
  | sent => exact le_rfl

/-- Nothing that has left comes back. -/
theorem Drive.Step.dgrams_prefix {neg : Negotiate} {net net' : Net} {d d' : Drive}
    (h : Drive.Step neg net d net' d') : ∃ more, net.dgrams ++ more = net'.dgrams := by
  cases h with
  | send => exact ⟨_, rfl⟩
  | start | go | finish | tick | lose | sent => exact ⟨[], List.append_nil _⟩

theorem Link.Sends.drive {neg : Negotiate} {k : Link} {out' : Net} {d' : Drive} (h : k.Sends neg)
    (hd : Drive.Step neg k.out k.sender out' d') :
    ({ k with out := out', sender := d', stamped := d'.seq.getD k.stamped } : Link).Sends neg := by
  obtain ⟨sender, out, receiver, inn, arrivals, stamped⟩ := k
  obtain ⟨hstart, hseq, hnum⟩ := h
  simp only at hstart hseq hnum hd
  have hclock := hd.clock_le
  cases hd with
  | start hnow hle =>
      obtain rfl := hstart rfl
      refine ⟨fun h => (by cases h), fun n hn => Option.some.inj hn.symm, fun hfit => ?_⟩
      exact (hnum (Nat.zero_le _)).mono hclock le_rfl
  | @go t0 next now s | @tick t0 next now s | @sent t0 next s =>
      obtain rfl : s.seq = stamped := hseq s.seq rfl
      refine ⟨fun h => (by cases h), fun n hn => Option.some.inj hn.symm, fun hfit => ?_⟩
      exact (hnum hfit).mono hclock le_rfl
  | finish hnow hpast =>
      refine ⟨fun h => (by cases h), fun n hn => (by cases hn), fun hfit => ?_⟩
      exact (hnum hfit).mono hclock le_rfl
  | @send t0 next now s payload hmore hnow hlen =>
      obtain rfl : s.seq = stamped := hseq s.seq rfl
      refine ⟨fun h => (by cases h), fun n hn => Option.some.inj hn.symm, fun hfit => ?_⟩
      have hlt : s.seq < 2 ^ 64 := hfit
      exact (hnum hlt.le).send hlt hnow hlen
  | @lose t0 next now s hmore hnow =>
      obtain rfl : s.seq = stamped := hseq s.seq rfl
      refine ⟨fun h => (by cases h), fun n hn => Option.some.inj hn.symm, fun hfit => ?_⟩
      have hlt : s.seq < 2 ^ 64 := hfit
      exact (hnum hlt.le).mono hclock (Nat.le_succ _)

/-! ## The datagrams heard -/

/-- The buffers received over the turns. -/
def buffers (ts : List Turn) : List (List Byte) :=
  ts.filterMap fun
    | .tick _ => none
    | .receive _ _ buf => some buf

/-- A loop and the buffers it has heard: its turns, up to the clock. -/
def Loop.Heard (neg : Negotiate) (clock : ℕ) (bufs : List (List Byte)) (l : Loop) : Prop :=
  ∃ t0 tick0 ts latest, Turned neg t0 tick0 ts l latest ∧ latest ≤ clock ∧ buffers ts = bufs

/-- Where a receiver is, of its loop: before it, in it or past it, or with its result. -/
def Serve.Holds (P : Loop → Prop) : Serve → Prop
  | .starting => True
  | .selecting l | .stopped l => P l
  | .returned r => ∃ l now, P l ∧ r = l.result now

/-- The receiver's side of a link: it has heard what was delivered and is not waiting at the
    socket. -/
def Link.Hears (neg : Negotiate) (k : Link) : Prop :=
  ∃ bufs, Arrived k.out.dgrams k.arrivals (bufs ++ k.inn.dgrams) ∧
    (k.receiver = .starting → bufs = []) ∧ k.receiver.Holds (Loop.Heard neg k.inn.clock bufs)

theorem Loop.Heard.later {neg : Negotiate} {clock clock' : ℕ} {bufs : List (List Byte)} {l : Loop}
    (h : l.Heard neg clock bufs) (hle : clock ≤ clock') : l.Heard neg clock' bufs := by
  obtain ⟨t0, tick0, ts, latest, hturned, hlatest, hbufs⟩ := h
  exact ⟨t0, tick0, ts, latest, hturned, hlatest.trans hle, hbufs⟩

theorem buffers_append (ts us : List Turn) : buffers (ts ++ us) = buffers ts ++ buffers us :=
  List.filterMap_append

theorem Link.Hears.serve {neg : Negotiate} {k : Link} {inn' : Net} {s' : Serve} (h : k.Hears neg)
    (hs : Udp.Step neg k.inn k.receiver inn' s') :
    ({ k with inn := inn', receiver := s' } : Link).Hears neg := by
  obtain ⟨sender, out, receiver, inn, arrivals, stamped⟩ := k
  obtain ⟨bufs, hcarried, hstart, hholds⟩ := h
  simp only at hcarried hstart hholds hs
  cases hs with
  | start hnow hle =>
      obtain rfl := hstart rfl
      exact ⟨[], hcarried, fun h => (by cases h), _, _, [], _, .start hle, le_rfl, rfl⟩
  | tick hnow hdue =>
      obtain ⟨t0, tick0, ts, latest, hturned, hlatest, rfl⟩ := hholds
      refine ⟨_, hcarried, fun h => (by cases h), t0, tick0, _, _,
        hturned.tick (hlatest.trans hnow) hdue, le_rfl, ?_⟩
      rw [buffers_append]
      exact List.append_nil _
  | recv hbuf hnow hle =>
      obtain ⟨t0, tick0, ts, latest, hturned, hlatest, rfl⟩ := hholds
      refine ⟨buffers ts ++ [_], ?_, fun h => (by cases h), t0, tick0, _, _,
        hturned.receive (hlatest.trans hnow) hle, le_rfl, buffers_append ts _⟩
      rw [hbuf] at hcarried
      rwa [List.append_assoc]
  | finish hnow =>
      have hheard : Loop.Heard neg inn.clock bufs _ := hholds
      exact ⟨bufs, hcarried, fun h => (by cases h), _, _, hheard.later hnow, rfl⟩

theorem Serve.Holds.onStop {P : Loop → Prop} {s s' : Serve} (h : s.Holds P)
    (hs : s.onStop = some s') : s'.Holds P ∧ s' ≠ .starting := by
  cases s with
  | selecting l =>
      cases hs
      exact ⟨h, by simp⟩
  | starting | stopped | returned => cases hs

theorem Linked.invariant {neg : Negotiate} {k : Link} (h : Linked neg k) :
    k.Sends neg ∧ k.Hears neg := by
  refine Reachable.invariant h (I := fun k => k.Sends neg ∧ k.Hears neg) (fun k hk => ?_)
    fun k k' hk hstep => ?_
  · subst hk
    have hnone : ∀ buf, buf ∉ Link.init.out.dgrams := fun buf hbuf => by cases hbuf
    exact ⟨⟨fun _ => rfl, fun n hn => (by cases hn), fun _ =>
      ⟨fun buf hbuf => absurd hbuf (hnone buf), .nil, fun buf hbuf => absurd hbuf (hnone buf)⟩⟩,
      [], rfl, fun _ => rfl, trivial⟩
  · obtain ⟨hsends, hhears⟩ := hk
    cases hstep with
    | drive hd =>
        refine ⟨hsends.drive hd, ?_⟩
        obtain ⟨bufs, hcarried, hstart, hholds⟩ := hhears
        obtain ⟨more, hmore⟩ := hd.dgrams_prefix
        exact ⟨bufs, hmore ▸ hcarried.send more, hstart, hholds⟩
    | deliver hi =>
        refine ⟨⟨hsends.starting, hsends.seq, hsends.numbered⟩, ?_⟩
        obtain ⟨bufs, hcarried, hstart, hholds⟩ := hhears
        refine ⟨bufs, ?_, hstart, hholds⟩
        rw [← List.append_assoc]
        exact hcarried.deliver hi
    | serve hs => exact ⟨⟨hsends.starting, hsends.seq, hsends.numbered⟩, hhears.serve hs⟩
    | stop hs =>
        refine ⟨⟨hsends.starting, hsends.seq, hsends.numbered⟩, ?_⟩
        obtain ⟨bufs, hcarried, hstart, hholds⟩ := hhears
        obtain ⟨hholds', hne⟩ := hholds.onStop hs
        exact ⟨bufs, hcarried, fun h => absurd h hne, hholds'⟩

/-! ## The totals and what was heard -/

/-- The datagrams observed are the buffers heard, one for one. -/
theorem received_eq {neg : Negotiate} {clock : ℕ} (t0 : ℕ) {ts : List Turn}
    (h : ∀ buf ∈ buffers ts, Stamped neg clock buf) :
    (received t0 ts).map (fun d => d.seq.toNat) = (buffers ts).map seqOf ∧
    ∀ d ∈ received t0 ts, d.n = (packetBytes neg).toNat := by
  induction ts with
  | nil => exact ⟨rfl, fun d hd => by cases hd⟩
  | cons t ts ih =>
      cases t with
      | tick now => exact ih h
      | receive now started buf =>
          obtain ⟨hseqs, hsizes⟩ := ih fun b hb => h b (List.mem_cons_of_mem _ hb)
          obtain ⟨hlen, seq, sendNs, hheader, -⟩ := h buf List.mem_cons_self
          have hdatagram : (Turn.receive now started buf).datagram t0 =
              some ⟨seq, sendNs, BitVec.ofNat 64 (now - t0), buf.length⟩ := by
            simp [Turn.datagram, hheader]
          rw [received_cons, hdatagram]
          constructor
          · rw [List.map_append, hseqs]
            simp [buffers, seqOf, hheader]
          · intro d hd
            rcases List.mem_append.mp hd with hnew | hold
            · obtain rfl := List.mem_singleton.mp hnew
              exact hlen
            · exact hsizes d hold

/-- The in-window sequence numbers among those heard. -/
theorem window_eq {W : U64} {ds : List Datagram} {seqs : List ℕ}
    (h : ds.map (fun d => d.seq.toNat) = seqs) :
    window W ds = seqs.filter fun s => W.toNat ≤ s := by
  subst h
  rw [window, List.filter_map]
  rfl

/-- Datagrams of one size count as many bytes as there are times the size. -/
theorem bytes_eq {W : U64} {ds : List Datagram} {p : ℕ} (h : ∀ d ∈ ds, d.n = p) :
    (observeAll W ds).bytes = (observeAll W ds).received * p := by
  have hfold : ∀ (ds : List Datagram) (acc : LossJitter), (∀ d ∈ ds, d.n = p) →
      acc.bytes = acc.received * p →
      (ds.foldl observe acc).bytes = (ds.foldl observe acc).received * p := by
    intro ds
    induction ds with
    | nil => exact fun acc _ hacc => hacc
    | cons d ds ih =>
        intro acc hds hacc
        apply ih _ fun x hx => hds x (List.mem_cons_of_mem d hx)
        by_cases hd : acc.warmupPackets ≤ d.seq
        · obtain ⟨hbytes, hreceived, -⟩ := observe_of_le acc d hd
          rw [hbytes, hreceived, hacc, hds d List.mem_cons_self, Nat.add_mul, Nat.one_mul]
        · rw [observe_of_lt acc d (BitVec.not_le.mp hd), hacc]
  exact hfold ds _ h (Nat.zero_mul p).symm

/-- Totals that are true of `n` datagrams of `p` bytes sent, the ones below `W` for
    warm-up, when those numbered `heard` came in, in this order. -/
structure Faithful (W n p : ℕ) (heard : List ℕ) (acc : LossJitter) : Prop where
  received : acc.received = (heard.filter fun s => W ≤ s).length
  bytes : acc.bytes = acc.received * p
  expected : acc.expected.toNat ≤ n - W
  lost : acc.lost ≤ ((Finset.Ico W n).filter fun s => s ∉ heard).card
  once : heard.Nodup → acc.received + acc.lost = acc.expected.toNat

theorem observeAll_faithful {W : U64} {n p : ℕ} {ds : List Datagram} {heard : List ℕ}
    (hseq : ds.map (fun d => d.seq.toNat) = heard) (hsize : ∀ d ∈ ds, d.n = p)
    (hsent : ∀ s ∈ heard, s < n) (hn : n < 2 ^ 64) :
    Faithful W.toNat n p heard (observeAll W ds) := by
  have hwindow : window W ds = heard.filter fun s => W.toNat ≤ s := window_eq hseq
  have hdesc := observeAll_describes W ds
  have hrange : ∀ s ∈ window W ds, W.toNat ≤ s ∧ s < n := by
    intro s hs
    rw [hwindow, List.mem_filter] at hs
    exact ⟨by simpa using hs.2, hsent s hs.1⟩
  have hwidth := ncard_hull_le_width hrange
  have hspan : (hull (window W ds)).ncard < 2 ^ 64 := by omega
  have hexpected := hdesc.toNat_expected hspan
  have hlost : (observeAll W ds).lost =
      (hull (window W ds)).ncard - (window W ds).length := by
    rw [LossJitter.lost, hexpected, hdesc.received]
  refine ⟨by rw [hdesc.received, hwindow], bytes_eq hsize, by omega, ?_, fun honce => ?_⟩
  · -- what is missing from the span was sent in the window and not heard
    have hgaps : gaps (window W ds) ⊆ ↑((Finset.Ico W.toNat n).filter fun s => s ∉ heard) := by
      rintro s ⟨⟨⟨a, ha, has⟩, b, hb, hsb⟩, hnot⟩
      have hlow := (hrange a ha).1
      have hhigh := (hrange b hb).2
      simp only [Finset.coe_filter, Finset.mem_Ico, Set.mem_ofPred_eq]
      refine ⟨by omega, fun hmem => hnot ?_⟩
      rw [hwindow, List.mem_filter]
      exact ⟨hmem, by simpa using hlow.trans has⟩
    have hcard := Set.ncard_le_ncard hgaps (Finset.finite_toSet _)
    rw [Set.ncard_coe_finset] at hcard
    have hsum := card_add_ncard_gaps (window W ds)
    have hle := List.toFinset_card_le (window W ds)
    omega
  · have hnodup : (window W ds).Nodup := by
      rw [hwindow]
      exact honce.filter _
    have hsum := length_add_ncard_gaps hnodup
    rw [hdesc.received, hlost, hexpected]
    omega

/-! ## The link's totals -/

/-- What a receiver has observed: the datagrams delivered first, in their order, as the
    sender stamped them. -/
structure Link.Observed (neg : Negotiate) (k : Link) (l : Loop) (ds : List Datagram) : Prop where
  acc : l.acc = observeAll (warmupPackets neg) ds
  came : Arrived (k.out.dgrams.map unstamp) (k.arrivals.take ds.length)
    (ds.map fun d => some (d.seq, d.sendNs))

theorem buffers_headers {neg : Negotiate} {clock : ℕ} (t0 : ℕ) {ts : List Turn}
    (h : ∀ buf ∈ buffers ts, Stamped neg clock buf) :
    (buffers ts).map unstamp = (received t0 ts).map fun d => some (d.seq, d.sendNs) := by
  induction ts with
  | nil => rfl
  | cons t ts ih =>
      cases t with
      | tick now => exact ih h
      | receive now started buf =>
          have htail := ih fun b hb => h b (List.mem_cons_of_mem _ hb)
          obtain ⟨-, seq, sendNs, hheader, -⟩ := h buf List.mem_cons_self
          have hdatagram : (Turn.receive now started buf).datagram t0 =
              some ⟨seq, sendNs, BitVec.ofNat 64 (now - t0), buf.length⟩ := by
            simp [Turn.datagram, hheader]
          rw [received_cons, hdatagram, List.map_append, ← htail]
          simp [buffers, hheader]

/-- The loop of a receiver in a link, its turns, and the buffers they heard. -/
theorem Linked.loop {neg : Negotiate} {k : Link} (h : Linked neg k) (hfit : k.stamped < 2 ^ 64)
    {P : Loop → Prop}
    (hP : ∀ t0 tick0 ts latest l, Turned neg t0 tick0 ts l latest → latest ≤ k.inn.clock →
      (∀ buf ∈ buffers ts, Stamped neg k.out.clock buf ∧ seqOf buf < k.stamped) →
      (k.arrivals.Nodup → ((buffers ts).map seqOf).Nodup) →
      k.Observed neg l (received t0 ts) → P l) : k.receiver.Holds P := by
  obtain ⟨hsends, bufs, hcarried, -, hholds⟩ := h.invariant
  have hnum := hsends.numbered hfit.le
  have hnodup : (k.out.dgrams.map seqOf).Nodup := hnum.increasing.imp fun h => h.ne
  have hloop : ∀ l, Loop.Heard neg k.inn.clock bufs l → P l := by
    rintro l ⟨t0, tick0, ts, latest, hturned, hlatest, rfl⟩
    have hcame := hcarried.left
    have hstamped : ∀ buf ∈ buffers ts, Stamped neg k.out.clock buf :=
      fun buf hbuf => hnum.stamped buf (hcame.mem hbuf)
    have hheaders := buffers_headers t0 hstamped
    have hlength : (received t0 ts).length = (buffers ts).length := by
      simpa using (congrArg List.length hheaders).symm
    refine hP t0 tick0 ts latest l hturned hlatest
      (fun buf hbuf => ⟨hstamped buf hbuf, hnum.below buf (hcame.mem hbuf)⟩)
      (fun honce => hcame.nodup_map hnodup (honce.sublist (List.take_sublist _ _)))
      ⟨hturned.accounts.acc, ?_⟩
    rw [hlength, ← hheaders]
    exact hcame.map unstamp
  cases hr : k.receiver with
  | starting => trivial
  | selecting l | stopped l =>
      rw [hr] at hholds
      exact hloop l hholds
  | returned r =>
      rw [hr] at hholds
      obtain ⟨l, now, hl, hres⟩ := hholds
      exact ⟨l, now, hloop l hl, hres⟩

/-- Totals over datagrams that were stamped and heard are true of those stamped. -/
theorem Link.Observed.faithful {neg : Negotiate} {k : Link} {l : Loop} {t0 : ℕ} {ts : List Turn}
    (h : k.Observed neg l (received t0 ts)) (hfit : k.stamped < 2 ^ 64)
    (hbufs : ∀ buf ∈ buffers ts, Stamped neg k.out.clock buf ∧ seqOf buf < k.stamped)
    (honce : k.arrivals.Nodup → ((buffers ts).map seqOf).Nodup) :
    (k.arrivals.Nodup → ((received t0 ts).map fun d => d.seq.toNat).Nodup) ∧
    Faithful (warmupPackets neg).toNat k.stamped (packetBytes neg).toNat
      ((received t0 ts).map fun d => d.seq.toNat) l.acc := by
  obtain ⟨hseqs, hsizes⟩ := received_eq t0 fun buf hbuf => (hbufs buf hbuf).1
  refine ⟨fun hk => hseqs ▸ honce hk, ?_⟩
  rw [h.acc]
  refine observeAll_faithful rfl hsizes (fun s hs => ?_) hfit
  rw [hseqs] at hs
  obtain ⟨buf, hbuf, rfl⟩ := List.mem_map.mp hs
  exact (hbufs buf hbuf).2

/-- Over a network that loses, delays, reorders and repeats datagrams but makes none up, the
    receiver's totals are true of the datagrams sent, during the run and in the Result:
    the bytes are the in-window datagrams heard times their size, the span is no wider
    than what was sent in the window, no more is reported lost than was sent in the
    window and never heard, and with none delivered twice received and lost
    make up the span. -/
theorem link_faithful {neg : Negotiate} {k : Link} (h : Linked neg k)
    (hfit : k.stamped < 2 ^ 64) :
    k.receiver.Holds fun l => ∃ ds, k.Observed neg l ds ∧
      (k.arrivals.Nodup → (ds.map fun d => d.seq.toNat).Nodup) ∧
      Faithful (warmupPackets neg).toNat k.stamped (packetBytes neg).toNat
        (ds.map fun d => d.seq.toNat) l.acc := by
  refine h.loop hfit fun t0 tick0 ts latest l hturned hlatest hbufs honce hobserved => ?_
  exact ⟨received t0 ts, hobserved, hobserved.faithful hfit hbufs honce⟩

/-- A UDP request for one bare header a tick, with no warm-up. -/
def headerRequest : Negotiate where
  mode := .udp
  durationSecs := 1
  warmupSecs := 0
  parallel := 1
  bufferBytes := 65536
  bidir := false
  bitrateBps := some 128000
  packetBytes := some 16
  fileLen := none
  nullSource := none

theorem toSend_headerRequest : (SendLoop.init.tick (driveRate headerRequest)).toSend = 1 := by
  have hrate : driveRate headerRequest = 1 := by
    have hbits : ((driveBitrate headerRequest).toNat : ℚ) = 128000 := rfl
    have hsize : ((packetBytes headerRequest).toNat : ℚ) = 16 := rfl
    have hticks : ((TICKS_PER_SEC.toNat : ℕ) : ℚ) = 1000 := rfl
    rw [driveRate, packetsPerTick, hbits, hsize, hticks]
    norm_num
  rw [hrate]
  simp [SendLoop.tick, SendLoop.init, floorU64]

/-- Its first datagram, delivered twice and heard twice. -/
theorem headerRequest_echoed :
    ∃ k l, Linked headerRequest k ∧ k.receiver = .stopped l ∧ k.arrivals = [0, 0] ∧
      k.stamped = 1 ∧ k.out.clock = 0 ∧ k.inn.clock = 0 := by
  have hinit : Linked headerRequest .init := Reachable.start rfl
  have hstart := hinit.next (.drive (.start le_rfl le_rfl))
  have hgo := hstart.next (.drive (.go le_rfl (by decide)))
  have htick := hgo.next (.drive (.tick le_rfl le_rfl))
  have hmore : 0 < (SendLoop.init.tick (driveRate headerRequest)).toSend := by
    rw [toSend_headerRequest]
    exact Nat.one_pos
  have hsend := htick.next (.drive (.send hmore le_rfl
    (List.length_replicate (n := (packetBytes headerRequest).toNat) (a := 0))))
  have hfirst := hsend.next (.deliver (i := 0) rfl)
  have hsecond := hfirst.next (.deliver (i := 0) rfl)
  have hserve := hsecond.next (.serve (.start le_rfl le_rfl))
  have hheard := hserve.next (.serve (.recv rfl le_rfl le_rfl))
  have hagain := hheard.next (.serve (.recv rfl le_rfl le_rfl))
  exact ⟨_, _, hagain.next (.stop rfl), rfl, rfl, rfl, rfl, rfl⟩

/-- What its receiver has counted. -/
theorem link_faithful_echoed :
    ∃ k l, Linked headerRequest k ∧ k.arrivals = [0, 0] ∧ k.receiver = .stopped l ∧
      ∃ ds, k.Observed headerRequest l ds ∧
        Faithful 0 1 16 (ds.map fun d => d.seq.toNat) l.acc := by
  obtain ⟨k, l, hk, hr, harr, hone, -, -⟩ := headerRequest_echoed
  have hholds := link_faithful hk (by rw [hone]; decide)
  rw [hr, hone] at hholds
  obtain ⟨ds, hobserved, -, hfaithful⟩ := hholds
  exact ⟨k, l, hk, harr, hr, ds, hobserved, hfaithful⟩

/-! ## Exact arithmetic on a link -/

/-- The receive times are clock readings since the start. -/
theorem Turned.recvNs_le {neg : Negotiate} {t0 tick0 : ℕ} {ts : List Turn} {l : Loop} {clock : ℕ}
    (h : Turned neg t0 tick0 ts l clock) : ∀ d ∈ received t0 ts, d.recvNs.toNat ≤ clock := by
  induction h with
  | start hle => exact fun d hd => by cases hd
  | @tick ts l clock now h hnow hdue ih =>
      intro d hd
      rw [received_append] at hd
      rcases List.mem_append.mp hd with hold | hnew
      · exact (ih d hold).trans hnow
      · cases hnew
  | @receive ts l clock now started buf h hnow hle ih =>
      intro d hd
      rw [received_append] at hd
      rcases List.mem_append.mp hd with hold | hnew
      · exact (ih d hold).trans (hnow.trans hle)
      · rw [received_cons, show received t0 [] = [] from rfl, List.append_nil,
          Option.mem_toList] at hnew
        obtain ⟨header, -, rfl⟩ := Option.map_eq_some_iff.mp hnew
        rw [BitVec.toNat_ofNat]
        exact ((Nat.mod_le _ _).trans (Nat.sub_le _ _)).trans hle

theorem Datagram.InRange.signedTransit_eq {d : Datagram} (h : d.InRange) :
    d.signedTransit = (d.recvNs.toNat : ℤ) - d.sendNs.toNat := by
  obtain ⟨hs, hr⟩ := h
  rw [Datagram.signedTransit, toInt_of_lt (by omega), toInt_of_lt (by omega)]

/-- Datagrams with times in range and sequence numbers short of the last are counted without
    overflow. -/
theorem noOverflow_of_inRange {W : U64} {ds : List Datagram} (hds : ∀ d ∈ ds, d.InRange)
    (hseq : ∀ d ∈ ds, d.seq.toNat < 2 ^ 64 - 1) : NoOverflow W ds := by
  have hrecv : ∀ d ∈ ds, d.recvNs.toNat < 2 ^ 63 := by
    intro d hd
    obtain ⟨-, hr⟩ := hds d hd
    omega
  have hin : ∀ d ∈ inWindow W ds, d.InRange := fun d hd => hds d (mem_inWindow.mp hd).1
  refine ⟨(observesExact_new_iff hrecv).mpr ⟨fun d hd => ?_, List.Pairwise.isChain ?_⟩,
    (spanExact_take_iff W ds).mpr ?_⟩
  · have hrange := hin d hd
    rw [hrange.signedTransit_eq]
    obtain ⟨hs, hr⟩ := hrange
    omega
  · apply List.pairwise_of_forall_mem_list
    intro a ha b hb
    have hra := hin a ha
    have hrb := hin b hb
    rw [hra.signedTransit_eq, hrb.signedTransit_eq, abs_lt]
    obtain ⟨hsa, hra⟩ := hra
    obtain ⟨hsb, hrb⟩ := hrb
    omega
  · rintro ⟨-, hlast⟩
    obtain ⟨d, hd, -, hd'⟩ := mem_window.mp hlast
    have hlt := hseq d hd
    omega

/-- Jitter is at most the spread of the transit times. -/
theorem jitterNs_le_spread {W : U64} {ds : List Datagram} (hds : ∀ d ∈ ds, d.InRange) {lo : ℤ}
    {spread : ℕ} (hspread : ∀ d ∈ inWindow W ds,
      lo ≤ d.signedTransit ∧ d.signedTransit ≤ lo + spread) :
    (observeAll W ds).jitterNs ≤ spread := by
  rw [observeAll_jitterNs hds]
  apply smoothed_le (by norm_num [JITTER_GAIN]) (by norm_num [JITTER_GAIN]) (Nat.cast_nonneg _)
  intro x hx
  obtain ⟨D, hD, rfl⟩ := List.mem_map.mp hx
  rw [interarrivals, ← List.map_uncurry_zip_eq_zipWith] at hD
  obtain ⟨⟨a, b⟩, hab, rfl⟩ := List.mem_map.mp hD
  obtain ⟨ha, hb⟩ := List.of_mem_zip hab
  have hb' := List.mem_of_mem_tail hb
  have hta := hspread a ha
  have htb := hspread b hb'
  rw [(hds a (mem_inWindow.mp ha).1).signedTransit_eq] at hta
  rw [(hds b (mem_inWindow.mp hb').1).signedTransit_eq] at htb
  have hdiff : |interarrival a b| ≤ spread := by
    rw [abs_le, interarrival]
    omega
  exact_mod_cast hdiff

/-- On a link no step of the accumulator overflows before a clock reads `2 ^ 62`, and the
    jitter is at most the spread of the transit times of the datagrams heard in the
    window, however far apart the two clocks are. -/
theorem link_exact {neg : Negotiate} {k : Link} (h : Linked neg k) (hfit : k.stamped < 2 ^ 64)
    (hout : k.out.clock < 2 ^ 62) (hinn : k.inn.clock < 2 ^ 62) :
    k.receiver.Holds fun l => ∃ ds, k.Observed neg l ds ∧ NoOverflow (warmupPackets neg) ds ∧
      ∀ (lo : ℤ) (spread : ℕ), (∀ d ∈ inWindow (warmupPackets neg) ds,
        lo ≤ d.signedTransit ∧ d.signedTransit ≤ lo + spread) → l.acc.jitterNs ≤ spread := by
  refine h.loop hfit fun t0 tick0 ts latest l hturned hlatest hbufs honce hobserved => ?_
  have hstamped : ∀ buf ∈ buffers ts, Stamped neg k.out.clock buf :=
    fun buf hbuf => (hbufs buf hbuf).1
  have hds : ∀ d ∈ received t0 ts, d.InRange ∧ d.seq.toNat < 2 ^ 64 - 1 := by
    intro d hd
    have hrecv := hturned.recvNs_le d hd
    -- the header is that of a buffer heard
    have hmem : some (d.seq, d.sendNs) ∈ (buffers ts).map unstamp := by
      rw [buffers_headers t0 hstamped]
      exact List.mem_map_of_mem hd
    obtain ⟨buf, hbuf, hheader⟩ := List.mem_map.mp hmem
    obtain ⟨⟨-, seq, sendNs, hheader', hsend⟩, hseq⟩ := hbufs buf hbuf
    rw [hheader] at hheader'
    cases hheader'
    simp only [seqOf, hheader] at hseq
    exact ⟨⟨by omega, by omega⟩, by omega⟩
  refine ⟨received t0 ts, hobserved, noOverflow_of_inRange (fun d hd => (hds d hd).1)
    (fun d hd => (hds d hd).2), fun lo spread hspread => ?_⟩
  rw [hobserved.acc]
  exact jitterNs_le_spread (fun d hd => (hds d hd).1) hspread

/-- Nothing overflows on the datagram heard twice. -/
theorem link_exact_echoed :
    ∃ k l, Linked headerRequest k ∧ k.receiver = .stopped l ∧
      ∃ ds, k.Observed headerRequest l ds ∧ NoOverflow (warmupPackets headerRequest) ds := by
  obtain ⟨k, l, hk, hr, -, hone, hout, hinn⟩ := headerRequest_echoed
  have hholds := link_exact hk (by rw [hone]; decide) (by rw [hout]; decide)
    (by rw [hinn]; decide)
  rw [hr] at hholds
  obtain ⟨ds, hobserved, hexact, -⟩ := hholds
  exact ⟨k, l, hk, hr, ds, hobserved, hexact⟩

end Andri.Udp

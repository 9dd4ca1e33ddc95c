/-
  Andri.Udp.Series

  The per-second loss series of `udp::serve` against the running loss total.  A
  run of the select loop is labelled with its turns, ticks and datagrams, and
  carries the datagrams heard so far and those heard by each tick.

  A sample holds the saturating difference of two running totals, so the samples
  add up to the last total exactly when it never fell from one tick to the
  next.  In terms of the arrivals: when at no tick fewer sequence numbers were
  missing than at the tick before, that is when the late datagrams of a second
  filled no more gaps than the second opened.
-/
import Andri.Lib.Deltas
import Andri.Lib.Transition
import Andri.Udp.Loss
import Andri.Udp.Serve

namespace Andri.Udp

open Lib LossJitter

/-! ## Runs of the select loop, by turns -/

/-- A turn of the select loop that does not end it. -/
inductive Turn
  | tick (now : ℕ)
  | receive (now started : ℕ) (buf : List Byte)

/-- The datagram a turn observes. -/
def Turn.datagram (t0 : ℕ) : Turn → Option Datagram
  | .tick _ => none
  | .receive now _ buf => (unstamp buf).map fun header =>
      ⟨header.1, header.2, BitVec.ofNat 64 (now - t0), buf.length⟩

/-- The datagrams observed over the turns. -/
def received (t0 : ℕ) (ts : List Turn) : List Datagram := ts.filterMap (Turn.datagram t0)

/-- The datagrams observed by each tick of the turns, after those of `before`. -/
def heardByTicks (t0 : ℕ) (before : List Datagram) : List Turn → List (List Datagram)
  | [] => []
  | .tick _ :: ts => before :: heardByTicks t0 before ts
  | t :: ts => heardByTicks t0 (before ++ (t.datagram t0).toList) ts

/-- The loop after the turns `ts`, with the latest instant it has read. -/
inductive Turned (neg : Negotiate) (t0 tick0 : ℕ) : List Turn → Loop → ℕ → Prop
  | start (hle : t0 ≤ tick0) : Turned neg t0 tick0 [] (.start neg t0 tick0) tick0
  | tick {ts : List Turn} {l : Loop} {clock now : ℕ} (h : Turned neg t0 tick0 ts l clock)
      (hnow : clock ≤ now) (hdue : l.next ≤ now) :
      Turned neg t0 tick0 (ts ++ [.tick now]) (l.tick now) now
  | receive {ts : List Turn} {l : Loop} {clock now started : ℕ} {buf : List Byte}
      (h : Turned neg t0 tick0 ts l clock) (hnow : clock ≤ now) (hle : now ≤ started) :
      Turned neg t0 tick0 (ts ++ [.receive now started buf]) (l.receive now started buf) started

/-- A step of `serve`, or of the peer and the other tasks: datagrams come in and
    the clock goes on. -/
inductive Serve.Move (neg : Negotiate) : Net × Serve → Net × Serve → Prop
  | own {net net' : Net} {s s' : Serve} (h : Step neg net s net' s') : Move neg (net, s) (net', s')
  | other {net net' : Net} {s : Serve} (h : net.clock ≤ net'.clock) : Move neg (net, s) (net', s)

/-- The loop has turned into the state it is in. -/
def Serve.HasTurned (neg : Negotiate) (clock : ℕ) : Serve → Prop
  | .selecting l => ∃ t0 tick0 ts latest, Turned neg t0 tick0 ts l latest ∧ latest ≤ clock
  | _ => True

theorem Serve.Move.hasTurned {neg : Negotiate} {x y : Net × Serve} (h : Move neg x y)
    (hx : x.2.HasTurned neg x.1.clock) : y.2.HasTurned neg y.1.clock := by
  cases h with
  | @other net net' s hle =>
      cases s with
      | selecting l =>
          obtain ⟨t0, tick0, ts, latest, ht, hlatest⟩ := hx
          exact ⟨t0, tick0, ts, latest, ht, hlatest.trans hle⟩
      | starting | stopped l | returned r => trivial
  | own hs =>
      cases hs with
      | start hnow hle => exact ⟨_, _, [], _, .start hle, le_rfl⟩
      | tick hnow hdue =>
          obtain ⟨t0, tick0, ts, latest, ht, hlatest⟩ := hx
          exact ⟨t0, tick0, _, _, ht.tick (hlatest.trans hnow) hdue, le_rfl⟩
      | recv hbuf hnow hle =>
          obtain ⟨t0, tick0, ts, latest, ht, hlatest⟩ := hx
          exact ⟨t0, tick0, _, _, ht.receive (hlatest.trans hnow) hle, le_rfl⟩
      | finish hnow => trivial

/-- Turns are steps of `serve`, once their datagrams are at the socket. -/
theorem Turned.run {neg : Negotiate} {t0 tick0 : ℕ} {ts : List Turn} {l : Loop} {clock : ℕ}
    (h : Turned neg t0 tick0 ts l clock) :
    ∃ net₀ net, net.clock = clock ∧
      Run (Serve.Move neg) (net₀, .starting) (net, .selecting l) := by
  induction h with
  | start hle =>
      exact ⟨{ Net.init with clock := t0 }, _, rfl, .single (.own (.start le_rfl hle))⟩
  | tick h hnow hdue ih =>
      obtain ⟨net₀, net, rfl, hrun⟩ := ih
      exact ⟨net₀, _, rfl, hrun.tail (.own (.tick hnow hdue))⟩
  | @receive ts l clock now started buf h hnow hle ih =>
      obtain ⟨net₀, net, rfl, hrun⟩ := ih
      have harrive : Serve.Move neg (net, .selecting l)
          ({ net with dgrams := [buf] }, .selecting l) := .other le_rfl
      exact ⟨net₀, _, rfl, (hrun.tail harrive).tail (.own (.recv rfl hnow hle))⟩

/-- The loop states of the runs of `serve` are those its turns lead to. -/
theorem reached_iff_turned (neg : Negotiate) (l : Loop) :
    (∃ net₀ net, Run (Serve.Move neg) (net₀, .starting) (net, .selecting l)) ↔
      ∃ t0 tick0 ts clock, Turned neg t0 tick0 ts l clock := by
  constructor
  · rintro ⟨net₀, net, hrun⟩
    obtain ⟨t0, tick0, ts, latest, ht, -⟩ : (Serve.selecting l).HasTurned neg net.clock :=
      run_invariant (I := fun x : Net × Serve => x.2.HasTurned neg x.1.clock)
        (fun _ _ hx hm => hm.hasTurned hx) hrun trivial
    exact ⟨t0, tick0, ts, latest, ht⟩
  · rintro ⟨t0, tick0, ts, clock, ht⟩
    obtain ⟨net₀, net, -, hrun⟩ := ht.run
    exact ⟨net₀, net, hrun⟩

/-! ## What the loop holds after its turns -/

theorem received_cons (t0 : ℕ) (t : Turn) (ts : List Turn) :
    received t0 (t :: ts) = (t.datagram t0).toList ++ received t0 ts := by
  simp only [received, List.filterMap_cons]
  cases t.datagram t0 <;> rfl

theorem received_append (t0 : ℕ) (ts us : List Turn) :
    received t0 (ts ++ us) = received t0 ts ++ received t0 us :=
  List.filterMap_append

theorem heardByTicks_append (t0 : ℕ) (before : List Datagram) (ts us : List Turn) :
    heardByTicks t0 before (ts ++ us) =
      heardByTicks t0 before ts ++ heardByTicks t0 (before ++ received t0 ts) us := by
  induction ts generalizing before with
  | nil => simp [heardByTicks, received]
  | cons t ts ih =>
      cases t with
      | tick now =>
          have hnone : (Turn.tick now).datagram t0 = none := rfl
          simp [heardByTicks, received_cons, ih, hnone]
      | receive now started buf =>
          simp only [List.cons_append, heardByTicks, ih, List.append_assoc, received_cons]

/-- The running loss total after the datagrams of `ds`. -/
def lossOf (W : U64) (ds : List Datagram) : ℕ := (observeAll W ds).lost

/-- The loop's locals, in terms of the datagrams heard so far and at each tick. -/
structure Loop.Accounts (W : U64) (t0 : ℕ) (l : Loop) (ds : List Datagram)
    (heard : List (List Datagram)) : Prop where
  t0 : l.t0 = t0
  acc : l.acc = observeAll W ds
  last : l.last.lost = (heard.map (lossOf W)).getLastD 0
  samples : l.samples.map Sample.packetsLost =
    (deltas 0 (heard.map (lossOf W))).map fun n => some (BitVec.ofNat 64 n)

section Accounts

variable {W : U64} {t0 now started : ℕ} {l : Loop} {ds : List Datagram}
  {heard : List (List Datagram)} {buf : List Byte}

theorem Loop.Accounts.tick (h : l.Accounts W t0 ds heard) :
    (l.tick now).Accounts W t0 ds (heard ++ [ds]) where
  t0 := h.t0
  acc := h.acc
  last := by simp [Loop.tick, snapshot, h.acc, lossOf]
  samples := by
    rw [List.map_append, List.map_singleton, deltas_append_singleton, List.map_append,
      ← h.samples, ← h.last]
    simp [Loop.tick, Loop.reading, snapshot, h.acc, lossOf]

theorem Loop.Accounts.receive (h : l.Accounts W t0 ds heard) :
    (l.receive now started buf).Accounts W t0
      (ds ++ ((Turn.receive now started buf).datagram t0).toList) heard := by
  cases hheader : unstamp buf with
  | none =>
      have hskip : l.receive now started buf = l := by simp [Loop.receive, hheader]
      simpa [Turn.datagram, hheader, hskip] using h
  | some header =>
      obtain ⟨seq, sendNs⟩ := header
      refine ⟨?_, ?_, ?_, ?_⟩
      · simpa [Loop.receive, hheader] using h.t0
      · simp [Loop.receive, hheader, Turn.datagram, h.acc, h.t0, observeAll]
      · simpa [Loop.receive, hheader] using h.last
      · simpa [Loop.receive, hheader] using h.samples

end Accounts

theorem Turned.accounts {neg : Negotiate} {t0 tick0 : ℕ} {ts : List Turn} {l : Loop} {clock : ℕ}
    (h : Turned neg t0 tick0 ts l clock) :
    l.Accounts (warmupPackets neg) t0 (received t0 ts) (heardByTicks t0 [] ts) := by
  induction h with
  | start hle => exact ⟨rfl, rfl, rfl, rfl⟩
  | @tick ts l clock now h hnow hdue ih =>
      have hnone : received t0 [Turn.tick now] = [] := rfl
      rw [received_append, heardByTicks_append, hnone, List.append_nil, List.nil_append]
      exact ih.tick
  | @receive ts l clock now started buf h hnow hle ih =>
      have hsome : received t0 [.receive now started buf] =
          ((Turn.receive now started buf).datagram t0).toList := by
        rw [received_cons]
        exact List.append_nil _
      rw [received_append, heardByTicks_append, hsome, List.nil_append]
      have hnotick : heardByTicks t0 (received t0 ts) [.receive now started buf] = [] := rfl
      rw [hnotick, List.append_nil]
      exact ih.receive

/-- The sum of the losses in the samples. -/
def seriesLost (samples : List Sample) : ℕ :=
  (samples.map fun s => (s.packetsLost.map BitVec.toNat).getD 0).sum

/-- The series adds up the increases of the running total. -/
theorem Loop.Accounts.seriesLost_eq {W : U64} {t0 : ℕ} {l : Loop} {ds : List Datagram}
    {heard : List (List Datagram)} (h : l.Accounts W t0 ds heard) :
    seriesLost l.samples = (deltas 0 (heard.map (lossOf W))).sum := by
  have hfit : ∀ n ∈ deltas 0 (heard.map (lossOf W)), n < 2 ^ 64 := by
    apply forall_mem_deltas_lt
    intro n hn
    obtain ⟨ds, -, rfl⟩ := List.mem_map.mp hn
    exact lost_lt _
  have hread : seriesLost l.samples =
      ((l.samples.map Sample.packetsLost).map fun o => (o.map BitVec.toNat).getD 0).sum := by
    rw [seriesLost, List.map_map]
    rfl
  rw [hread, h.samples, List.map_map]
  congr 1
  conv_rhs => rw [← List.map_id (deltas 0 (heard.map (lossOf W)))]
  apply List.map_congr_left
  intro n hn
  have hlt := hfit n hn
  simpa using hlt

/-! ## The running total and the missing datagrams -/

/-- The sequence numbers missing from the span of the in-window datagrams.  A
    window with both the first and the last word counts as missing none: its
    span is computed as 0. -/
noncomputable def missing (W : U64) (ds : List Datagram) : ℕ :=
  open Classical in
  if 0 ∈ window W ds ∧ 2 ^ 64 - 1 ∈ window W ds then 0 else (gaps (window W ds)).ncard

/-- Without duplicates the running total counts the missing. -/
theorem lossOf_eq_missing {W : U64} {ds : List Datagram} (honce : (ds.map Datagram.seq).Nodup) :
    lossOf W ds = missing W ds := by
  have hdesc := observeAll_describes W ds
  have hrange : ∀ s ∈ window W ds, 0 ≤ s ∧ s < 2 ^ 64 := by
    intro s hs
    obtain ⟨d, -, -, rfl⟩ := mem_window.mp hs
    exact ⟨Nat.zero_le _, d.seq.isLt⟩
  have hwidth := ncard_hull_le_width hrange
  have hends := ncard_hull_eq_width_iff hrange
  rw [lossOf, lost, missing]
  split_ifs with h
  · -- the one added to the last word wraps
    have hexpected : (observeAll W ds).expected.toNat = 0 := hdesc.toNat_expected_of_ends h
    rw [hexpected, Nat.zero_sub]
  · have hspan : (hull (window W ds)).ncard < 2 ^ 64 := by
      have hne : (hull (window W ds)).ncard ≠ 2 ^ 64 - 0 := by
        rw [Ne, hends]
        rintro (hle | hboth)
        · exact absurd hle (by decide)
        · exact h hboth
      omega
    rw [hdesc.toNat_expected hspan, hdesc.received]
    have hcount := length_add_ncard_gaps (window_nodup (W := W) honce)
    omega

/-- At no tick are fewer datagrams missing than at the tick before. -/
def Steady (W : U64) (heard : List (List Datagram)) : Prop :=
  heard.IsChain fun ds ds' => missing W ds ≤ missing W ds'

/-- The datagrams heard by a tick are among those received. -/
theorem sublist_of_mem_heardByTicks {t0 : ℕ} {before heard : List Datagram} {ts : List Turn}
    (h : heard ∈ heardByTicks t0 before ts) : heard.Sublist (before ++ received t0 ts) := by
  induction ts generalizing before with
  | nil => simp [heardByTicks] at h
  | cons t ts ih =>
      cases t with
      | tick now =>
          rcases List.mem_cons.mp h with rfl | htail
          · exact List.sublist_append_left _ _
          · exact ih htail
      | receive now started buf =>
          have hrest := ih h
          rwa [received_cons, ← List.append_assoc]

/-- The running totals at the ticks never fall exactly when the missing do not. -/
theorem isChain_lossOf_iff {W : U64} {heard : List (List Datagram)}
    (honce : ∀ ds ∈ heard, (ds.map Datagram.seq).Nodup) :
    (0 :: heard.map (lossOf W)).IsChain (· ≤ ·) ↔ Steady W heard := by
  have hmissing : heard.map (lossOf W) = heard.map (missing W) :=
    List.map_congr_left fun ds hds => lossOf_eq_missing (honce ds hds)
  rw [hmissing, Steady, List.isChain_cons, List.isChain_map]
  simp

/-- The loop states of `serve`'s runs are those its turns lead to; and with no
    datagram received twice, the samples recorded by a tick add up to the
    running loss total at that tick, and to the loss of a result that follows
    it, exactly when at no tick so far fewer datagrams were missing than at the
    tick before. -/
theorem series_sums_iff (neg : Negotiate) :
    (∀ l, (∃ net₀ net, Run (Serve.Move neg) (net₀, .starting) (net, .selecting l)) ↔
      ∃ t0 tick0 ts clock, Turned neg t0 tick0 ts l clock) ∧
    ∀ (t0 tick0 : ℕ) (ts : List Turn) (l : Loop) (clock now : ℕ),
      Turned neg t0 tick0 ts l clock → ((received t0 ts).map Datagram.seq).Nodup →
      (seriesLost (l.tick now).samples = l.acc.snapshot.lost ↔
        Steady (warmupPackets neg) (heardByTicks t0 [] (ts ++ [.tick now]))) ∧
      ∀ done, (some (seriesLost ((l.tick now).result done).samples) =
          ((l.tick now).result done).packetsLost.map BitVec.toNat ↔
        Steady (warmupPackets neg) (heardByTicks t0 [] (ts ++ [.tick now]))) := by
  refine ⟨reached_iff_turned neg, fun t0 tick0 ts l clock now ht honce => ?_⟩
  have hacc := ht.accounts
  have htick : (l.tick now).Accounts (warmupPackets neg) t0 (received t0 ts)
      (heardByTicks t0 [] ts ++ [received t0 ts]) := hacc.tick
  have hheard : heardByTicks t0 [] (ts ++ [.tick now]) =
      heardByTicks t0 [] ts ++ [received t0 ts] := by
    rw [heardByTicks_append]
    rfl
  have honces : ∀ ds ∈ heardByTicks t0 [] ts ++ [received t0 ts],
      (ds.map Datagram.seq).Nodup := by
    intro ds hds
    rw [← hheard] at hds
    have hsub := sublist_of_mem_heardByTicks hds
    have hall : [] ++ received t0 (ts ++ [.tick now]) = received t0 ts := by
      rw [received_append]
      exact List.append_nil _
    rw [hall] at hsub
    exact honce.sublist (hsub.map _)
  have hlast : l.acc.snapshot.lost = (l.tick now).last.lost := rfl
  have hseries : seriesLost (l.tick now).samples = l.acc.snapshot.lost ↔
      Steady (warmupPackets neg) (heardByTicks t0 [] (ts ++ [.tick now])) := by
    rw [hlast, htick.seriesLost_eq, htick.last, hheard, ← isChain_lossOf_iff honces,
      ← sum_deltas_eq_iff, Nat.zero_add]
  refine ⟨hseries, fun done => ?_⟩
  have hlost : ((l.tick now).result done).packetsLost.map BitVec.toNat =
      some l.acc.snapshot.lost := by
    have hfit := lost_lt l.acc
    simpa [Loop.result, Loop.tick, intoResult, snapshot] using hfit
  rw [hlost, Option.some_inj]
  exact hseries

/-- A UDP request without warm-up. -/
def promptRequest : Negotiate where
  mode := .udp
  durationSecs := 10
  warmupSecs := 0
  parallel := 1
  bufferBytes := 65536
  bidir := false
  bitrateBps := some 20000
  packetBytes := none
  fileLen := none
  nullSource := none

/-- The bare header of sequence number `n`, below 256. -/
def header (n : Byte) : List Byte := n :: List.replicate 15 0

/-- Datagrams 0 and 2 in the first second, and 1 late in the second. -/
def lateTurns : List Turn :=
  [.receive 1 1 (header 0), .receive 2 2 (header 2), .tick SECOND,
    .receive (SECOND + 1) (SECOND + 1) (header 1)]

/-- The loop after those turns. -/
def lateLoop : Loop :=
  ((((Loop.start promptRequest 0 0).receive 1 1 (header 0)).receive 2 2 (header 2)).tick
    SECOND).receive (SECOND + 1) (SECOND + 1) (header 1)

theorem turned_lateLoop : Turned promptRequest 0 0 lateTurns lateLoop (SECOND + 1) :=
  (((((Turned.start le_rfl).receive (Nat.zero_le _) le_rfl).receive (by decide) le_rfl).tick
    (by decide) (by decide)).receive (by decide) le_rfl)

/-- The gap closed late stays in the series: one loss, though none is left. -/
theorem series_keeps_late_loss :
    Turned promptRequest 0 0 lateTurns lateLoop (SECOND + 1) ∧
    ((received 0 lateTurns).map Datagram.seq).Nodup ∧
    seriesLost (lateLoop.tick (2 * SECOND)).samples = 1 ∧ lateLoop.acc.snapshot.lost = 0 ∧
    ¬ ∀ (neg : Negotiate) (t0 tick0 : ℕ) (ts : List Turn) (l : Loop) (clock now : ℕ),
      Turned neg t0 tick0 ts l clock → clock ≤ now → l.next ≤ now →
      ((received t0 ts).map Datagram.seq).Nodup →
      seriesLost (l.tick now).samples = l.acc.snapshot.lost := by
  have honce : ((received 0 lateTurns).map Datagram.seq).Nodup := by decide +kernel
  have hseries : seriesLost (lateLoop.tick (2 * SECOND)).samples = 1 := by decide +kernel
  have hlost : lateLoop.acc.snapshot.lost = 0 := by decide +kernel
  refine ⟨turned_lateLoop, honce, hseries, hlost, fun hall => ?_⟩
  have h := hall _ _ _ _ _ _ (2 * SECOND) turned_lateLoop (by decide) (by decide) honce
  rw [hseries, hlost] at h
  exact absurd h (by decide)

theorem series_sums_iff_late :
    seriesLost (lateLoop.tick (2 * SECOND)).samples = lateLoop.acc.snapshot.lost ↔
      Steady (warmupPackets promptRequest)
        (heardByTicks 0 [] (lateTurns ++ [.tick (2 * SECOND)])) :=
  ((series_sums_iff promptRequest).2 0 0 lateTurns lateLoop (SECOND + 1) (2 * SECOND)
    turned_lateLoop (by decide +kernel)).1

end Andri.Udp

/-
  Andri.Udp.Live

  The live readout of `udp::serve` in `src/modes/udp.rs`, over its turns: a tick prints
  one line and appends one sample.

  As in the other modes a line is tagged as warm-up by the clock.  The warm-up of the
  Result goes by sequence number, and so do the line's bytes: a tagged line never shows
  a datagram of the warm-up, and what it does show is in the Result.  Its tag is right
  when it shows nothing.
-/
import Mathlib.Data.List.DropRight
import Andri.Live
import Andri.Udp.Series

namespace Andri.Udp

open Lib LossJitter

/-! ## Lines -/

/-- A live line of the receiver: that of the other modes, with the interval's loss and the
    jitter so far. -/
structure LossLine extends LiveLine where
  lost : ℕ
  jitterMs : ℚ

/-- The line of a tick at `now`. -/
def Loop.line (neg : Negotiate) (now : ℕ) (l : Loop) : LossLine :=
  let cur := l.acc.snapshot
  let intervalBytes : U64 := BitVec.ofNat 64 (cur.bytes - l.last.bytes)
  let secs := asSecsF64 (now - l.lastT)
  { elapsed := now - l.t0
    bps := if secs > 0 then intervalBytes.toNat * 8 / secs else 0
    tag := warmupTag (fromSecs neg.warmupSecs) (now - l.t0)
    lost := cur.lost - l.last.lost
    jitterMs := cur.jitterMs }

/-- The loop after a turn. -/
def Loop.turn (l : Loop) : Turn → Loop
  | .tick now => l.tick now
  | .receive now started buf => l.receive now started buf

/-- What a turn prints. -/
def Loop.prints (neg : Negotiate) (l : Loop) : Turn → List LossLine
  | .tick now => [l.line neg now]
  | .receive _ _ _ => []

/-- What the turns print from `l` on. -/
def printed (neg : Negotiate) (l : Loop) : List Turn → List LossLine
  | [] => []
  | t :: ts => l.prints neg t ++ printed neg (l.turn t) ts

theorem printed_append (neg : Negotiate) (l : Loop) (ts us : List Turn) :
    printed neg l (ts ++ us) = printed neg l ts ++ printed neg (ts.foldl Loop.turn l) us := by
  induction ts generalizing l with
  | nil => rfl
  | cons t ts ih => simp only [List.cons_append, printed, ih, List.append_assoc, List.foldl_cons]

theorem printed_singleton (neg : Negotiate) (l : Loop) (t : Turn) :
    printed neg l [t] = l.prints neg t := List.append_nil _

/-- The loop is what its turns make of it. -/
theorem Turned.foldl_eq {neg : Negotiate} {t0 tick0 : ℕ} {ts : List Turn} {l : Loop} {clock : ℕ}
    (h : Turned neg t0 tick0 ts l clock) : ts.foldl Loop.turn (.start neg t0 tick0) = l := by
  induction h with
  | start hle => rfl
  | tick h hnow hdue ih | receive h hnow hle ih =>
      rw [List.foldl_append, ih]
      rfl

/-! ## Lines and samples -/

/-- What a line and a sample tell of the datagrams. -/
def LossLine.losses (l : LossLine) : Option U64 × Option ℚ :=
  (some (BitVec.ofNat 64 l.lost), some l.jitterMs)

/-- What a sample tells of the datagrams. -/
def sampleLosses (s : Sample) : Option U64 × Option ℚ := (s.packetsLost, s.jitterMs)

/-- The loop's locals against the lines so far. -/
structure Loop.Shows (neg : Negotiate) (t0 clock : ℕ) (l : Loop) (lines : List LossLine) :
    Prop where
  start : l.t0 = t0
  shows : Andri.Shows t0 (fromSecs neg.warmupSecs) l.lastT l.samples (lines.map LossLine.toLiveLine)
  losses : lines.map LossLine.losses = l.samples.map sampleLosses
  lastT : l.lastT ≤ clock
  next : t0 + (lines.length + 1) * SECOND ≤ l.next

section Shows

variable {neg : Negotiate} {t0 tick0 clock clock' now started : ℕ} {l : Loop}
  {lines : List LossLine} {ts : List Turn} {buf : List Byte}

theorem Loop.Shows.tick (h : l.Shows neg t0 clock lines) (hnow : clock ≤ now)
    (hdue : l.next ≤ now) :
    (l.tick now).Shows neg t0 now (lines ++ [l.line neg now]) where
  start := h.start
  shows := by
    rw [List.map_append, List.map_singleton]
    apply h.shows.snoc (h.lastT.trans hnow)
    · rw [List.length_map]
      exact h.next.trans hdue
    · show now - l.t0 = now - t0
      rw [h.start]
    · show warmupTag _ (now - l.t0) = _
      rw [h.start]
    · rfl
  losses := by
    rw [List.map_append, h.losses]
    simp [Loop.tick, Loop.line, Loop.reading, LossLine.losses, sampleLosses]
  lastT := le_rfl
  next := by
    have hnext := h.next
    show _ ≤ l.next + SECOND
    rw [List.length_append, List.length_singleton, Nat.succ_mul]
    omega

/-- A datagram leaves the readout's locals alone. -/
theorem Loop.Shows.receive (h : l.Shows neg t0 clock lines) (hle : clock ≤ clock') :
    (l.receive now started buf).Shows neg t0 clock' lines := by
  cases hheader : unstamp buf with
  | none =>
      have hskip : l.receive now started buf = l := by simp [Loop.receive, hheader]
      rw [hskip]
      exact ⟨h.start, h.shows, h.losses, h.lastT.trans hle, h.next⟩
  | some header =>
      obtain ⟨seq, sendNs⟩ := header
      refine ⟨?_, ?_, ?_, ?_, ?_⟩
      · simpa [Loop.receive, hheader] using h.start
      · simpa [Loop.receive, hheader] using h.shows
      · simpa [Loop.receive, hheader] using h.losses
      · simpa [Loop.receive, hheader] using h.lastT.trans hle
      · simpa [Loop.receive, hheader] using h.next

theorem Turned.shows (h : Turned neg t0 tick0 ts l clock) :
    l.Shows neg t0 clock (printed neg (.start neg t0 tick0) ts) := by
  induction h with
  | start hle =>
      refine ⟨rfl, .nil _ _ _, rfl, hle, ?_⟩
      show t0 + (0 + 1) * SECOND ≤ tick0 + SECOND
      omega
  | tick h hnow hdue ih =>
      rw [printed_append, h.foldl_eq, printed_singleton]
      exact ih.tick hnow hdue
  | receive h hnow hle ih =>
      rw [printed_append, h.foldl_eq, printed_singleton, Loop.prints, List.append_nil]
      exact ih.receive (hnow.trans hle)

/-- The live readout of `udp::serve`, in any of its runs.  It shows the samples, one line
    each; the tagged lines come first, no more than the warm-up has seconds; there
    are no more lines than seconds have passed; and if no tick came more than 100 ms
    late, exactly the lines of the warm-up are tagged. -/
theorem serve_readout (h : Turned neg t0 tick0 ts l clock) :
    let lines := printed neg (.start neg t0 tick0) ts
    let warmup := neg.warmupSecs.toNat
    let tags := lines.map fun x => x.tag
    lines.map (fun x => x.reading) = l.samples.map Sample.reading ∧
    lines.map LossLine.losses = l.samples.map sampleLosses ∧
    (∃ k ≤ warmup, k ≤ lines.length ∧
      tags = List.replicate k WARMUP_TAG ++ List.replicate (lines.length - k) "") ∧
    lines.length * SECOND ≤ clock - t0 ∧
    (Prompt SECOND (fromMillis 100) (lines.map fun x => x.elapsed) →
      tags = List.replicate (min warmup lines.length) WARMUP_TAG ++
        List.replicate (lines.length - warmup) "") := by
  intro lines warmup tags
  have hloop := h.shows
  have hshows := hloop.shows
  have htags := hshows.tags_eq
  have hearly : early (tagBound (fromSecs neg.warmupSecs))
      ((lines.map LossLine.toLiveLine).map LiveLine.elapsed) ≤ lines.length := by
    simpa using early_le_length _ ((lines.map LossLine.toLiveLine).map LiveLine.elapsed)
  rw [List.length_map, List.map_map] at htags
  refine ⟨?_, hloop.losses, ⟨_, hshows.early_le, hearly, htags⟩, ?_, fun hprompt => ?_⟩
  · rw [← hshows.samples, List.map_map]
    rfl
  · have hfew := hshows.length_mul_le
    have hlast := hloop.lastT
    rw [List.length_map] at hfew
    exact hfew.trans (Nat.sub_le_sub_right hlast t0)
  · have hprompt' : Prompt SECOND (fromMillis 100)
        ((lines.map LossLine.toLiveLine).map LiveLine.elapsed) := by rwa [List.map_map]
    have heq := hshows.ticks.early_eq (n := warmup) hprompt' (by decide)
    rw [List.length_map, List.length_map] at heq
    rw [tagBound, show fromSecs neg.warmupSecs = warmup * SECOND from rfl, heq] at htags
    rw [show lines.length - warmup = lines.length - min warmup lines.length by omega]
    exact htags

end Shows

/-! ## The bytes of the lines -/

/-- The bytes of the datagrams that count. -/
def windowBytes (W : U64) (ds : List Datagram) : ℕ := ((inWindow W ds).map Datagram.n).sum

/-- The turns since the last tick. -/
def sinceTick (ts : List Turn) : List Turn :=
  ts.rtakeWhile fun t => match t with
    | .tick _ => false
    | .receive _ _ _ => true

theorem windowBytes_append (W : U64) (ds es : List Datagram) :
    windowBytes W (ds ++ es) = windowBytes W ds + windowBytes W es := by
  simp [windowBytes, inWindow]

theorem windowBytes_le_of_sublist {W : U64} {ds es : List Datagram} (h : ds.Sublist es) :
    windowBytes W ds ≤ windowBytes W es :=
  ((h.filter _).map _).sum_le_sum fun _ _ => Nat.zero_le _

/-- Datagrams that hold anything add up to nothing only when none of them counts. -/
theorem windowBytes_eq_zero_iff {W : U64} {ds : List Datagram} (h : ∀ d ∈ ds, 0 < d.n) :
    windowBytes W ds = 0 ↔ inWindow W ds = [] := by
  rw [windowBytes]
  constructor
  · intro hzero
    cases hin : inWindow W ds with
    | nil => rfl
    | cons d rest =>
        have hmem : d ∈ inWindow W ds := by
          rw [hin]
          exact List.mem_cons_self
        have hpos := h d (mem_inWindow.mp hmem).1
        rw [hin, List.map_cons, List.sum_cons] at hzero
        omega
  · intro hnil
    rw [hnil]
    rfl

/-- The accumulator counts them. -/
theorem bytes_observeAll (W : U64) (ds : List Datagram) :
    (observeAll W ds).bytes = windowBytes W ds := by
  have hfold : ∀ acc : LossJitter, acc.warmupPackets = W →
      (ds.foldl observe acc).bytes = acc.bytes + windowBytes W ds := by
    induction ds with
    | nil =>
        intro acc _
        rfl
    | cons d ds ih =>
        intro acc hacc
        have hrest := ih (acc.observe d) (by rw [observe_warmupPackets, hacc])
        rw [List.foldl_cons, hrest, windowBytes, windowBytes, inWindow_cons]
        by_cases hd : W ≤ d.seq
        · obtain ⟨hbytes, -⟩ := observe_of_le acc d (hacc ▸ hd)
          rw [if_pos hd, List.map_cons, List.sum_cons, hbytes, Nat.add_assoc]
        · rw [if_neg hd, observe_of_lt acc d (by rw [hacc]; exact BitVec.not_le.mp hd)]
  rw [observeAll, hfold _ rfl]
  exact Nat.zero_add _

/-- What was received is what the last tick had heard, and what came since. -/
theorem received_eq_sinceTick (t0 : ℕ) (ts : List Turn) :
    received t0 ts = (heardByTicks t0 [] ts).getLastD [] ++ received t0 (sinceTick ts) := by
  induction ts using List.reverseRecOn with
  | nil => rfl
  | append_singleton ts t ih =>
      rw [received_append, heardByTicks_append, sinceTick, List.rtakeWhile_concat, List.nil_append]
      cases t with
      | tick now =>
          have hnone : received t0 [Turn.tick now] = [] := rfl
          have hheard : heardByTicks t0 (received t0 ts) [.tick now] = [received t0 ts] := rfl
          rw [if_neg (by simp), hnone, hheard, List.getLastD_concat]
          rfl
      | receive now started buf =>
          rw [if_pos rfl, received_append, ← List.append_assoc]
          have hheard : heardByTicks t0 (received t0 ts) [.receive now started buf] = [] := rfl
          rw [hheard, List.append_nil, ← sinceTick, ← ih]

/-- A tick has heard all that the ticks before it had. -/
theorem heardByTicks_pairwise (W : U64) (t0 : ℕ) (before : List Datagram) (ts : List Turn) :
    (windowBytes W before :: (heardByTicks t0 before ts).map (windowBytes W)).Pairwise (· ≤ ·) := by
  induction ts generalizing before with
  | nil => exact List.pairwise_singleton _ _
  | cons t ts ih =>
      cases t with
      | tick now =>
          rw [heardByTicks, List.map_cons, List.pairwise_cons]
          refine ⟨fun b hb => ?_, ih before⟩
          rcases List.mem_cons.mp hb with rfl | hmem
          · exact le_rfl
          · exact (List.pairwise_cons.mp (ih before)).1 b hmem
      | receive now started buf =>
          obtain ⟨hhead, htail⟩ := List.pairwise_cons.mp
            (ih (before ++ ((Turn.receive now started buf).datagram t0).toList))
          refine List.pairwise_cons.mpr ⟨fun b hb => ?_, htail⟩
          have hle := hhead b hb
          rw [windowBytes_append] at hle
          omega

/-- The samples' bytes, in terms of the datagrams heard at each tick. -/
structure Loop.Counts (W : U64) (l : Loop) (ds : List Datagram) (heard : List (List Datagram)) :
    Prop where
  acc : l.acc = observeAll W ds
  last : l.last.bytes = (heard.map (windowBytes W)).getLastD 0
  samples : l.samples.map Sample.bytes =
    (deltas 0 (heard.map (windowBytes W))).map (BitVec.ofNat 64)

section Counts

variable {neg : Negotiate} {W : U64} {t0 tick0 clock now started : ℕ} {l : Loop} {ts : List Turn}
  {ds : List Datagram} {heard : List (List Datagram)} {buf : List Byte}

theorem Loop.Counts.tick (h : l.Counts W ds heard) : (l.tick now).Counts W ds (heard ++ [ds]) where
  acc := h.acc
  last := by
    rw [List.map_append, List.map_singleton, List.getLastD_concat, ← bytes_observeAll, ← h.acc]
    rfl
  samples := by
    rw [List.map_append, List.map_singleton, deltas_append_singleton, List.map_append, ← h.last,
      ← bytes_observeAll, ← h.acc, List.map_singleton, ← h.samples]
    simp [Loop.tick, Loop.reading, snapshot]

theorem Loop.Counts.receive (h : l.Counts W ds heard) :
    (l.receive now started buf).Counts W
      (ds ++ ((Turn.receive now started buf).datagram l.t0).toList) heard := by
  cases hheader : unstamp buf with
  | none =>
      have hskip : l.receive now started buf = l := by simp [Loop.receive, hheader]
      simpa [Turn.datagram, hheader, hskip] using h
  | some header =>
      obtain ⟨seq, sendNs⟩ := header
      refine ⟨?_, ?_, ?_⟩
      · simp [Loop.receive, hheader, Turn.datagram, h.acc, observeAll]
      · simpa [Loop.receive, hheader] using h.last
      · simpa [Loop.receive, hheader] using h.samples

theorem Turned.counts (h : Turned neg t0 tick0 ts l clock) :
    l.Counts (warmupPackets neg) (received t0 ts) (heardByTicks t0 [] ts) := by
  induction h with
  | start hle => exact ⟨rfl, rfl, rfl⟩
  | @tick ts l clock now h hnow hdue ih =>
      have hnone : received t0 [Turn.tick now] = [] := rfl
      rw [received_append, heardByTicks_append, hnone, List.append_nil, List.nil_append]
      exact ih.tick
  | @receive ts l clock now started buf h hnow hle ih =>
      have hnotick : heardByTicks t0 (received t0 ts) [.receive now started buf] = [] := rfl
      have hsome : received t0 [.receive now started buf] =
          ((Turn.receive now started buf).datagram l.t0).toList := by
        rw [received_cons, h.shows.start]
        exact List.append_nil _
      rw [received_append, heardByTicks_append, hsome, List.nil_append, hnotick, List.append_nil]
      exact ih.receive

/-- The samples up to a tick add up to what it had heard. -/
theorem Turned.seriesBytes_take (h : Turned neg t0 tick0 ts l clock)
    (hfit : windowBytes (warmupPackets neg) (received t0 ts) < 2 ^ 64) (k : ℕ) :
    seriesBytes (l.samples.take k) =
      windowBytes (warmupPackets neg) (((heardByTicks t0 [] ts).take k).getLastD []) := by
  -- the readings never fall, and none is past what was received
  have hchain : (0 :: ((heardByTicks t0 [] ts).take k).map
      (windowBytes (warmupPackets neg))).IsChain (· ≤ ·) := by
    have hpairwise := heardByTicks_pairwise (warmupPackets neg) t0 [] ts
    rw [List.map_take]
    exact (hpairwise.sublist ((List.take_sublist k _).cons_cons _)).isChain
  have hall : ∀ b ∈ ((heardByTicks t0 [] ts).take k).map (windowBytes (warmupPackets neg)),
      b < 2 ^ 64 := by
    intro b hb
    obtain ⟨heard, hheard, rfl⟩ := List.mem_map.mp hb
    have hsub := sublist_of_mem_heardByTicks (List.mem_of_mem_take hheard)
    exact (windowBytes_le_of_sublist hsub).trans_lt hfit
  have hdeltas := forall_mem_deltas_lt (x := 0) hall
  have hsum := (sum_deltas_eq_iff 0 _).mpr hchain
  have hread : (l.samples.take k).map (fun s => s.bytes.toNat) =
      deltas 0 (((heardByTicks t0 [] ts).take k).map (windowBytes (warmupPackets neg))) := by
    have hbytes := congrArg (List.map BitVec.toNat) (congrArg (List.take k) h.counts.samples)
    rw [← List.map_take, ← List.map_take, take_deltas, ← List.map_take, List.map_map,
      List.map_map] at hbytes
    rw [show (fun s : Sample => s.bytes.toNat) = BitVec.toNat ∘ Sample.bytes from rfl, hbytes]
    conv_rhs => rw [← List.map_id (deltas 0 _)]
    apply List.map_congr_left
    intro n hn
    have hlt := hdeltas n hn
    simpa using hlt
  rw [seriesBytes, hread, ← Nat.zero_add (deltas 0 _).sum, hsum]
  exact List.getLastD_map (f := windowBytes (warmupPackets neg)) (a := [])

/-- Every datagram observed has a header. -/
theorem pos_of_mem_received {d : Datagram} (h : d ∈ received t0 ts) : 0 < d.n := by
  obtain ⟨t, -, ht⟩ := List.mem_filterMap.mp h
  cases t with
  | tick now => cases ht
  | receive now started buf =>
      obtain ⟨header, hheader, rfl⟩ := Option.map_eq_some_iff.mp ht
      have hlong : ¬ buf.length < 16 := by
        rw [← unstamp_eq_none_iff, hheader]
        exact Option.some_ne_none _
      show 0 < buf.length
      omega

end Counts

/-! ## The tag and the Result -/

/-- The lines' bytes and the Result's, in any run of `udp::serve` and at any end of it.
    The tagged lines show what was heard of the window by the last of them; it counts in
    the Result, which is what all lines show and what came after the last; and so
    the untagged lines and what came after them are the Result exactly when no datagram
    of the window was heard by the last tagged line. -/
theorem tagged_accounts {neg : Negotiate} {t0 tick0 clock : ℕ} {ts : List Turn} {l : Loop}
    (h : Turned neg t0 tick0 ts l clock)
    (hfit : windowBytes (warmupPackets neg) (received t0 ts) < 2 ^ 64) (done : ℕ) :
    let lines := (printed neg (.start neg t0 tick0) ts).map LossLine.toLiveLine
    let r := l.result done
    let heard := ((heardByTicks t0 [] ts).take (tagged lines)).getLastD []
    let after := windowBytes (warmupPackets neg) (received t0 (sinceTick ts))
    seriesBytes (r.samples.take (tagged lines)) = windowBytes (warmupPackets neg) heard ∧
    seriesBytes (r.samples.take (tagged lines)) + seriesBytes (untagged lines r.samples) + after =
      r.bytes.toNat ∧
    (seriesBytes (untagged lines r.samples) + after = r.bytes.toNat ↔
      inWindow (warmupPackets neg) heard = []) := by
  intro lines r heard after
  have hshows := h.shows.shows
  have hlen := hshows.length_eq
  have hearly : early (tagBound (fromSecs neg.warmupSecs)) (lines.map LiveLine.elapsed) ≤
      lines.length := by
    simpa using early_le_length _ (lines.map LiveLine.elapsed)
  obtain ⟨htagged, hdrop⟩ := untagged_eq_drop hlen hearly hshows.tags_eq
  rw [← htagged] at hdrop
  have hseries := h.seriesBytes_take hfit
  have htake : seriesBytes (r.samples.take (tagged lines)) =
      windowBytes (warmupPackets neg) heard := hseries _
  -- all the samples
  have hticks : (heardByTicks t0 [] ts).length = l.samples.length := by
    have hcount := congrArg List.length h.counts.samples
    simpa using hcount.symm
  have hall := hseries l.samples.length
  rw [List.take_length, ← hticks, List.take_length] at hall
  have hsplit : seriesBytes (r.samples.take (tagged lines)) +
      seriesBytes (untagged lines r.samples) = seriesBytes l.samples := by
    show _ + seriesBytes (untagged lines l.samples) = _
    rw [hdrop]
    conv_rhs => rw [← List.take_append_drop (tagged lines) l.samples]
    rw [seriesBytes, seriesBytes, seriesBytes, List.map_append, List.sum_append]
    rfl
  have hbytes : r.bytes.toNat = windowBytes (warmupPackets neg) (received t0 ts) := by
    show (BitVec.ofNat 64 l.acc.bytes).toNat = _
    rw [h.counts.acc, bytes_observeAll, BitVec.toNat_ofNat, Nat.mod_eq_of_lt hfit]
  have hafter := congrArg (windowBytes (warmupPackets neg)) (received_eq_sinceTick t0 ts)
  rw [windowBytes_append] at hafter
  have htotal : seriesBytes (r.samples.take (tagged lines)) +
      seriesBytes (untagged lines r.samples) + after = r.bytes.toNat := by
    rw [hsplit, hall, hbytes, hafter]
  refine ⟨htake, htotal, ?_⟩
  have hzero : inWindow (warmupPackets neg) heard = [] ↔
      windowBytes (warmupPackets neg) heard = 0 := by
    refine (windowBytes_eq_zero_iff fun d hd => ?_).symm
    rcases List.mem_cons.mp (List.getLastD_mem_cons (l := (heardByTicks t0 [] ts).take _)
      (a := [])) with hnone | hmem
    · rw [show heard = [] from hnone] at hd
      cases hd
    · have hsub := sublist_of_mem_heardByTicks (List.mem_of_mem_take hmem)
      exact pos_of_mem_received (hsub.subset hd)
  rw [hzero, ← htake]
  omega

/-! ## A sender that runs ahead -/

/-- A UDP request with a warm-up of one second, which is one datagram. -/
def warmRequest : Negotiate := { promptRequest with warmupSecs := 1 }

/-- That datagram and the next, both in the first second. -/
def aheadTurns : List Turn := [.receive 1 1 (header 0), .receive 2 2 (header 1), .tick SECOND]

/-- The loop after those turns. -/
def aheadLoop : Loop :=
  (((Loop.start warmRequest 0 0).receive 1 1 (header 0)).receive 2 2 (header 1)).tick SECOND

theorem turned_aheadLoop : Turned warmRequest 0 0 aheadTurns aheadLoop SECOND :=
  (((Turned.start le_rfl).receive (Nat.zero_le _) le_rfl).receive (by decide) le_rfl).tick
    (by decide) (by decide)

theorem serve_readout_ahead :
    (printed warmRequest (.start warmRequest 0 0) aheadTurns).map (fun x => x.reading) =
      aheadLoop.samples.map Sample.reading :=
  (serve_readout turned_aheadLoop).1

/-- The one line is tagged, and what it shows is in the Result. -/
theorem tagged_accounts_ahead :
    let lines := (printed warmRequest (.start warmRequest 0 0) aheadTurns).map LossLine.toLiveLine
    let r := aheadLoop.result SECOND
    tagged lines = 1 ∧ seriesBytes (r.samples.take 1) = 16 ∧ r.bytes.toNat = 16 ∧
      ¬ seriesBytes (untagged lines r.samples) +
        windowBytes (warmupPackets warmRequest) (received 0 (sinceTick aheadTurns)) =
        r.bytes.toNat := by
  refine ⟨by decide +kernel, by decide +kernel, by decide +kernel, ?_⟩
  rw [(tagged_accounts turned_aheadLoop (by decide +kernel) SECOND).2.2]
  decide +kernel

end Andri.Udp

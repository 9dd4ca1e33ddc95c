/-
  Andri.Udp.Readout

  The send-side lines of `udp::drive` in `src/modes/udp.rs`, over the runs of the drive.
  The pacing loop reads the clock after every burst; a line falls due at the first
  reading past each full second and takes what was sent since the line before as
  one second's worth.

  A line is therefore right when it comes exactly one second after the line before,
  or nothing was sent in between.
-/
import Andri.Lib.Rates
import Andri.Udp.Offered

namespace Andri.Udp

open Lib

/-! ## The readout -/

/-- `Duration::from_millis`. -/
def fromMillis (ms : ℕ) : ℕ := ms * 1000000

/-- The readout's locals. -/
structure Readout where
  nextReport : ℕ
  lastPackets : ℕ

def Readout.init : Readout := ⟨SECOND, 0⟩

/-- A send-side line. -/
structure Line where
  secs : ℚ
  bps : ℚ
  intervalPackets : ℕ
  tag : String

/-- The end of an iteration of the pacing loop, `elapsed` after the start. -/
def Readout.emit (neg : Negotiate) (quiet : Bool) (elapsed seq : ℕ) (r : Readout) :
    Readout × Option Line :=
  if !quiet ∧ elapsed ≥ r.nextReport then
    let intervalPackets := seq - r.lastPackets
    let bps := intervalPackets * ((packetBytes neg).toNat * 8 : ℚ)
    let tag := if elapsed ≤ fromSecs neg.warmupSecs + fromMillis 100 then "  (warm-up, excluded)"
      else ""
    (⟨r.nextReport + SECOND, seq⟩, some ⟨asSecsF64 elapsed, bps, intervalPackets, tag⟩)
  else (r, none)

/-- A drive with its readout: the end of every iteration so far, by its clock reading and
    the datagrams sent by then, and a mark for every line printed. -/
structure Showing where
  net : Net
  drive : Drive
  readout : Readout
  passes : List (ℕ × ℕ)
  marks : List Mark

/-- The bits of `n` datagrams. -/
def bits (neg : Negotiate) (n : ℕ) : ℚ := n * ((packetBytes neg).toNat * 8 : ℚ)

/-- The mark of a line. -/
def Line.mark (neg : Negotiate) (elapsed seq : ℕ) (l : Line) : Mark :=
  ⟨asSecsF64 elapsed, bits neg seq, l.bps⟩

/-- The readout's turn at the end of an iteration. -/
def Showing.emit (neg : Negotiate) (quiet : Bool) (elapsed seq : ℕ) (p : Showing) : Showing :=
  let emitted := p.readout.emit neg quiet elapsed seq
  { p with
    readout := emitted.1
    passes := p.passes ++ [(elapsed, seq)]
    marks := p.marks ++ (emitted.2.map (Line.mark neg elapsed seq)).toList }

/-- Steps of `drive` with its readout, and of the other tasks.  The end of an iteration
    is the step from the burst back to the check. -/
inductive Showing.Step (neg : Negotiate) (quiet : Bool) : Showing → Showing → Prop
  | pass {p : Showing} {net : Net} {t0 next now : ℕ} {s : SendLoop}
      (hd : p.drive = .bursting t0 next s)
      (h : Drive.Step neg p.net p.drive net (.checking t0 next s)) (hnow : net.clock ≤ now) :
      Step neg quiet p { p.emit neg quiet (now - t0) s.seq with
        net := { net with clock := now }
        drive := .checking t0 next s }
  | drive {p : Showing} {net : Net} {d : Drive} (h : Drive.Step neg p.net p.drive net d)
      (hne : ∀ t0 next s, p.drive = .bursting t0 next s → d ≠ .checking t0 next s) :
      Step neg quiet p { p with net, drive := d }
  | other {p : Showing} {net : Net} (h : p.net.clock ≤ net.clock) :
      Step neg quiet p { p with net }

/-- Before `drive` has started. -/
def Showing.Init (p : Showing) : Prop :=
  p.drive = .starting ∧ p.readout = .init ∧ p.passes = [] ∧ p.marks = []

/-- Without its readout this is a run of the drive. -/
theorem Showing.Step.moves {neg : Negotiate} {quiet : Bool} {p p' : Showing}
    (h : Step neg quiet p p') : Run (Drive.Move neg) (p.net, p.drive) (p'.net, p'.drive) := by
  cases h with
  | @pass net t0 next now s hd h hnow =>
      have hread : Drive.Move neg (net, .checking t0 next s)
          ({ net with clock := now }, .checking t0 next s) := .other hnow
      exact .tail (.single (.own h)) hread
  | drive h hne => exact .single (.own h)
  | other h => exact .single (.other h)

/-- And the readout never holds the drive up. -/
theorem Showing.exists_step {neg : Negotiate} (quiet : Bool) (p : Showing) {net : Net} {d : Drive}
    (h : Drive.Step neg p.net p.drive net d) :
    ∃ p', Step neg quiet p p' ∧ p'.net = net ∧ p'.drive = d := by
  by_cases hpass : ∃ t0 next s, p.drive = .bursting t0 next s ∧ d = .checking t0 next s
  · obtain ⟨t0, next, s, hd, rfl⟩ := hpass
    exact ⟨_, .pass hd h (le_refl net.clock), rfl, rfl⟩
  · exact ⟨_, .drive h fun t0 next s hd hcheck => hpass ⟨t0, next, s, hd, hcheck⟩, rfl, rfl⟩

/-! ## The lines due -/

/-- Line `k` falls due at the first reading of `k` seconds or more after line `k - 1`. -/
def dueNext (ds : List (ℕ × ℕ)) (p : ℕ × ℕ) : List (ℕ × ℕ) :=
  if (ds.length + 1) * SECOND ≤ p.1 then ds ++ [p] else ds

/-- The iterations at whose end a line falls due. -/
def due (passes : List (ℕ × ℕ)) : List (ℕ × ℕ) := passes.foldl dueNext []

theorem due_append_singleton (passes : List (ℕ × ℕ)) (p : ℕ × ℕ) :
    due (passes ++ [p]) = dueNext (due passes) p := by
  rw [due, List.foldl_append, List.foldl_cons, List.foldl_nil, due]

/-- Between two due readings nothing was sent, or one second went by. -/
def OnSchedule (a b : ℕ × ℕ) : Prop := b.2 = a.2 ∨ b.1 = a.1 + SECOND

variable {neg : Negotiate} {quiet : Bool} {p p' : Showing}

theorem bits_sub {m n : ℕ} (h : m ≤ n) : bits neg (n - m) = bits neg n - bits neg m := by
  rw [bits, bits, bits, Nat.cast_sub h, sub_mul]

theorem bits_pos {n : ℕ} (h : 0 < n) : 0 < bits neg n := by
  have hbytes : 0 < (packetBytes neg).toNat := Nat.lt_of_lt_of_le (by decide) (packetBytes_ge neg)
  have hbytes' : (0 : ℚ) < (packetBytes neg).toNat := Nat.cast_pos.mpr hbytes
  have hn : (0 : ℚ) < n := Nat.cast_pos.mpr h
  rw [bits]
  positivity

/-- Two readings are one second apart. -/
theorem asSecsF64_sub_eq_one_iff {a b : ℕ} : asSecsF64 b - asSecsF64 a = 1 ↔ b = a + SECOND := by
  have hpos : (0 : ℚ) < SECOND := Nat.cast_pos.mpr SECOND_pos
  rw [asSecsF64, asSecsF64, ← sub_div, div_eq_one_iff_eq hpos.ne', sub_eq_iff_eq_add]
  constructor
  · intro h
    have hcast : ((b : ℕ) : ℚ) = ((a + SECOND : ℕ) : ℚ) := by
      rw [h, Nat.cast_add, add_comm]
    exact_mod_cast hcast
  · rintro rfl
    rw [Nat.cast_add, add_comm]

/-- A line that takes its interval for one second is right when that was on schedule. -/
theorem rateSince_iff {a b : ℕ × ℕ} {m : Mark} (hle : a.2 ≤ b.2) (htime : m.time = asSecsF64 a.1)
    (hcount : m.count = bits neg a.2) :
    m.RateSince ⟨asSecsF64 b.1, bits neg b.2, bits neg (b.2 - a.2)⟩ ↔ OnSchedule a b := by
  rw [Mark.RateSince, htime, hcount, OnSchedule, ← asSecsF64_sub_eq_one_iff, bits_sub hle]
  rcases hle.eq_or_lt with heq | hlt
  · rw [heq, sub_self, zero_div]
    exact ⟨fun _ => .inl rfl, fun _ => rfl⟩
  · have hbits : bits neg b.2 - bits neg a.2 ≠ 0 := by
      rw [← bits_sub hle]
      exact (bits_pos (Nat.sub_pos_of_lt hlt)).ne'
    rw [eq_comm, div_eq_mul_inv, mul_eq_left₀ hbits, inv_eq_one]
    exact ⟨.inr, fun h => h.resolve_left hlt.ne'⟩

/-- And then it weighs what was sent. -/
theorem weighs_of_onSchedule {a b : ℕ × ℕ} {m : Mark} (hle : a.2 ≤ b.2)
    (htime : m.time = asSecsF64 a.1) (hcount : m.count = bits neg a.2) (h : OnSchedule a b) :
    m.Weighs ⟨asSecsF64 b.1, bits neg b.2, bits neg (b.2 - a.2)⟩ := by
  rw [Mark.Weighs, htime, hcount, bits_sub hle]
  rcases h with heq | hsecond
  · rw [heq, sub_self, zero_mul]
  · rw [asSecsF64_sub_eq_one_iff.mpr hsecond, mul_one]

/-! ## The lines of a run -/

theorem Readout.emit_of_silent {r : Readout} {elapsed : ℕ} (seq : ℕ)
    (h : quiet = true ∨ elapsed < r.nextReport) : r.emit neg quiet elapsed seq = (r, none) := by
  have hguard : ¬ ((!quiet) = true ∧ elapsed ≥ r.nextReport) := by
    rintro ⟨hloud, hge⟩
    rcases h with rfl | hlt
    · exact Bool.false_ne_true hloud
    · omega
  rw [emit, if_neg hguard]

theorem Readout.emit_of_due {r : Readout} {elapsed : ℕ} (neg : Negotiate) (seq : ℕ)
    (h : r.nextReport ≤ elapsed) :
    ∃ l, r.emit neg false elapsed seq = (⟨r.nextReport + SECOND, seq⟩, some l) ∧
      l.bps = bits neg (seq - r.lastPackets) := by
  have hguard : (!false) = true ∧ elapsed ≥ r.nextReport := ⟨rfl, h⟩
  rw [emit, if_pos hguard]
  exact ⟨_, rfl, rfl⟩

/-- The readout stands at the last line due, and the lines are as right as their readings
    are on schedule. -/
structure Readout.AtLastLine (neg : Negotiate) (passes : List (ℕ × ℕ)) (marks : List Mark)
    (r : Readout) : Prop where
  next : r.nextReport = ((due passes).length + 1) * SECOND
  packets : r.lastPackets = ((due passes).getLastD (0, 0)).2
  time : (marks.getLastD .start).time = asSecsF64 ((due passes).getLastD (0, 0)).1
  count : (marks.getLastD .start).count = bits neg ((due passes).getLastD (0, 0)).2
  rates : (Mark.start :: marks).IsChain Mark.RateSince ↔ ((0, 0) :: due passes).IsChain OnSchedule
  weighs : ((0, 0) :: due passes).IsChain OnSchedule → (Mark.start :: marks).IsChain Mark.Weighs

variable {r : Readout} {passes : List (ℕ × ℕ)} {marks : List Mark} {elapsed seq : ℕ}

theorem Readout.atLastLine_init (neg : Negotiate) : Readout.init.AtLastLine neg [] [] where
  next := (Nat.one_mul SECOND).symm
  packets := rfl
  time := (zero_div _).symm
  count := (zero_mul _).symm
  rates := ⟨fun _ => List.isChain_singleton _, fun _ => List.isChain_singleton _⟩
  weighs _ := List.isChain_singleton _

/-- An iteration that ends before the next line is due changes nothing. -/
theorem Readout.AtLastLine.early (hr : r.AtLastLine neg passes marks)
    (h : elapsed < r.nextReport) : r.AtLastLine neg (passes ++ [(elapsed, seq)]) marks := by
  have hnone : ¬ ((due passes).length + 1) * SECOND ≤ elapsed := not_le.mpr (hr.next ▸ h)
  have hdue : due (passes ++ [(elapsed, seq)]) = due passes := by
    rw [due_append_singleton, dueNext, if_neg hnone]
  constructor
  · rw [hdue, hr.next]
  · rw [hdue, hr.packets]
  · rw [hdue, hr.time]
  · rw [hdue, hr.count]
  · rw [hdue]
    exact hr.rates
  · rw [hdue]
    exact hr.weighs

/-- An iteration that prints a line moves the readout to it. -/
theorem Readout.AtLastLine.line (hr : r.AtLastLine neg passes marks) (h : r.nextReport ≤ elapsed)
    (hle : r.lastPackets ≤ seq) :
    (⟨r.nextReport + SECOND, seq⟩ : Readout).AtLastLine neg (passes ++ [(elapsed, seq)])
      (marks ++ [⟨asSecsF64 elapsed, bits neg seq, bits neg (seq - r.lastPackets)⟩]) := by
  have hready : ((due passes).length + 1) * SECOND ≤ elapsed := hr.next ▸ h
  have hdue : due (passes ++ [(elapsed, seq)]) = due passes ++ [(elapsed, seq)] := by
    rw [due_append_singleton, dueNext, if_pos hready]
  -- the new mark against the last line
  have hlast : ((due passes).getLastD (0, 0)).2 ≤ seq := hr.packets ▸ hle
  have hrate := rateSince_iff (b := (elapsed, seq)) hlast hr.time hr.count
  have hweigh := weighs_of_onSchedule (b := (elapsed, seq)) hlast hr.time hr.count
  rw [← hr.packets] at hrate hweigh
  constructor
  · rw [hdue, List.length_append, List.length_singleton, hr.next]
    exact (Nat.succ_mul _ SECOND).symm
  · rw [hdue, List.getLastD_concat]
  · rw [hdue, List.getLastD_concat, List.getLastD_concat]
  · rw [hdue, List.getLastD_concat, List.getLastD_concat]
  · rw [hdue, isChain_cons_append_singleton, isChain_cons_append_singleton, hr.rates, hrate]
  · rw [hdue, isChain_cons_append_singleton, isChain_cons_append_singleton]
    exact fun hchain => ⟨hr.weighs hchain.1, hweigh hchain.2⟩

/-- The invariant of a run that prints. -/
structure Showing.Tracks (neg : Negotiate) (p : Showing) : Prop where
  readout : p.readout.AtLastLine neg p.passes p.marks
  starting : p.drive = .starting → p.readout.lastPackets = 0
  sent : ∀ t0 s, p.drive.sending = some (t0, s) → p.readout.lastPackets ≤ s.seq

/-- The drive starts counting at 0 and never counts back. -/
theorem Drive.Step.seq_le {net net' : Net} {d d' : Drive} (h : Drive.Step neg net d net' d')
    {t0 : ℕ} {s' : SendLoop} (hd : d'.sending = some (t0, s')) :
    d = .starting ∨ ∃ t0 s, d.sending = some (t0, s) ∧ s.seq ≤ s'.seq := by
  cases h with
  | start hnow hle => exact .inl rfl
  | finish hnow hpast => cases hd
  | go hnow hbefore => cases hd; exact .inr ⟨_, _, rfl, le_rfl⟩
  | tick hnow hdue => cases hd; exact .inr ⟨_, _, rfl, le_rfl⟩
  | send hmore hnow hlen => cases hd; exact .inr ⟨_, _, rfl, Nat.le_succ _⟩
  | lose hmore hnow => cases hd; exact .inr ⟨_, _, rfl, Nat.le_succ _⟩
  | sent hnone => cases hd; exact .inr ⟨_, _, rfl, le_rfl⟩

theorem Drive.Step.ne_starting {net net' : Net} {d d' : Drive} (h : Drive.Step neg net d net' d') :
    d' ≠ .starting := by
  cases h <;> exact Drive.noConfusion

/-- Every step keeps the readout at the last line due. -/
theorem Showing.Step.tracks (h : Step neg false p p') (hp : p.Tracks neg) : p'.Tracks neg := by
  cases h with
  | @pass net t0 next now s hd h hnow =>
      have hsent : p.readout.lastPackets ≤ s.seq := hp.sent t0 s (by rw [hd]; rfl)
      rcases lt_or_ge (now - t0) p.readout.nextReport with hlt | hge
      · have hemit : p.readout.emit neg false (now - t0) s.seq = (p.readout, none) :=
          Readout.emit_of_silent s.seq (.inr hlt)
        simp only [emit, hemit, Option.map_none, Option.toList_none, List.append_nil]
        refine ⟨hp.readout.early hlt, Drive.noConfusion, fun t1 s1 h1 => ?_⟩
        cases h1
        exact hsent
      · obtain ⟨l, hemit, hbps⟩ := Readout.emit_of_due neg s.seq hge
        simp only [emit, hemit, Option.map_some, Option.toList_some, Line.mark, hbps]
        refine ⟨hp.readout.line hge hsent, Drive.noConfusion, fun t1 s1 h1 => ?_⟩
        cases h1
        exact le_rfl
  | drive h hne =>
      refine ⟨hp.readout, fun hstart => absurd hstart h.ne_starting, fun t0 s hs => ?_⟩
      rcases h.seq_le hs with hstart | ⟨t1, s1, hs1, hle⟩
      · exact (hp.starting hstart).le.trans (Nat.zero_le _)
      · exact (hp.sent t1 s1 hs1).trans hle
  | other h => exact ⟨hp.readout, hp.starting, hp.sent⟩

theorem Showing.tracks_of_reachable (h : Reachable Init (Step neg false) p) : p.Tracks neg := by
  refine h.invariant (fun p hp => ?_) fun p p' hp hstep => hstep.tracks hp
  obtain ⟨hdrive, hreadout, hpasses, hmarks⟩ := hp
  constructor
  · rw [hreadout, hpasses, hmarks]
    exact Readout.atLastLine_init neg
  · rw [hreadout]
    exact fun _ => rfl
  · intro t0 s hs
    rw [hdrive] at hs
    cases hs

theorem Showing.marks_of_quiet (h : Reachable Init (Step neg true) p) : p.marks = [] := by
  refine h.invariant (fun p hp => hp.2.2.2) fun p p' hp hstep => ?_
  cases hstep with
  | @pass net t0 next now s hd h hnow =>
      rw [emit, Readout.emit_of_silent s.seq (.inl rfl)]
      exact (List.append_nil _).trans hp
  | drive h hne => exact hp
  | other h => exact hp

/-- Whatever the bursts and the clock, the lines show true interval rates exactly when the
    run is quiet or every line due came on schedule. -/
theorem Showing.trueRates_iff (h : Reachable Init (Step neg quiet) p) :
    TrueRates p.marks ↔ quiet = true ∨ ((0, 0) :: due p.passes).IsChain OnSchedule := by
  cases quiet with
  | true =>
      rw [marks_of_quiet h]
      exact ⟨fun _ => .inl rfl, fun _ => trueRates_nil⟩
  | false =>
      have hp := (tracks_of_reachable h).readout
      constructor
      · exact fun htrue => .inr (hp.rates.mp htrue.rates)
      · rintro (hquiet | hchain)
        · exact absurd hquiet Bool.false_ne_true
        · exact .of_weighs (hp.rates.mpr hchain) (hp.weighs hchain)

end Andri.Udp

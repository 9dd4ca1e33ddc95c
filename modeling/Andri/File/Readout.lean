/-
  Andri.File.Readout

  The send-side progress lines of `file::drive` in `src/modes/file.rs`: the `report`
  closure, called with a clock reading after every pass of a copy loop.  A line
  falls due one second after the line before, and shows what was sent since then
  over all the time since the start.

  The first line is therefore right and every later one is wrong: a run shows true
  interval rates exactly when a second line never falls due.
-/
import Andri.File.Copy
import Andri.Lib.Rates
import Andri.Meter
import Mathlib.Tactic.Linarith

namespace Andri.File

open Lib

/-! ## The readout -/

/-- What the `report` closure captures. -/
structure Report where
  nextReport : ℕ
  lastSent : U64

/-- Before the loop: `Duration::from_secs(1)`, and nothing sent. -/
def Report.init : Report := ⟨SECOND, 0⟩

/-- A progress line. -/
structure Line where
  secs : ℚ
  bps : ℚ
  percent : ℚ
  sent : U64
  total : U64

/-- The closure `report`, called `elapsed` after the start. -/
def Report.report (quiet : Bool) (total : U64) (elapsed : ℕ) (sent : U64) (force : Bool)
    (r : Report) : Report × Option Line :=
  if quiet ∨ (!force ∧ elapsed < r.nextReport) then (r, none)
  else
    let interval := sent - r.lastSent
    let secs := asSecsF64 elapsed
    let bps := if secs > 0 then interval.toNat * 8 / secs else 0
    let percent : ℚ := if total > 0 then sent.toNat / total.toNat * 100 else 100
    (⟨elapsed + SECOND, sent⟩, some ⟨secs, bps, percent, sent, total⟩)

/-- Where the bytes come from: a buffer filled once, or a file, whose length is a
    `u64`. -/
inductive Source
  | null (start : Start) (buf : List Byte) (hbuf : nullBuffer start = some buf)
  | disk (file : List Byte) (hlen : file.length < 2 ^ 64)

/-- What there is to read from disk. -/
def Source.file : Source → List Byte
  | .null _ _ _ => []
  | .disk file _ => file

/-- A pass of the branch the source selects. -/
inductive Pass (total : U64) : Source → Copy → Copy → Prop
  | null {start : Start} {buf : List Byte} {hbuf : nullBuffer start = some buf} {c c' : Copy}
      (h : NullPass 64 buf total c c') : Pass total (.null start buf hbuf) c c'
  | disk {file : List Byte} {hlen : file.length < 2 ^ 64} {n : ℕ} {c c' : Copy}
      (h : DiskPass total n c c') : Pass total (.disk file hlen) c c'

/-- A copy loop with its readout: the latest clock reading, and a mark for every line
    printed so far, with the bytes then on the stream. -/
structure Reporting where
  copy : Copy
  report : Report
  clock : ℕ
  marks : List Mark

/-- Before the first pass. -/
def Reporting.start (src : Source) : Reporting := ⟨.start src.file, .init, 0, []⟩

/-- The mark of a line. -/
def Line.mark (elapsed : ℕ) (c : Copy) (l : Line) : Mark :=
  ⟨asSecsF64 elapsed, 8 * (c.wire.length : ℚ), l.bps⟩

/-- The call of `report` after a pass to `c`. -/
def Reporting.after (quiet : Bool) (total : U64) (elapsed : ℕ) (c : Copy) (p : Reporting) :
    Reporting :=
  let called := p.report.report quiet total elapsed c.sent false
  ⟨c, called.1, elapsed, p.marks ++ (called.2.map (Line.mark elapsed c)).toList⟩

/-- A pass, labelled with the clock reading of its report. -/
inductive Reporting.Step (quiet : Bool) (total : U64) (src : Source) :
    ℕ → Reporting → Reporting → Prop
  | pass {p : Reporting} {c : Copy} {elapsed : ℕ} (h : Pass total src p.copy c)
      (hnow : p.clock ≤ elapsed) : Step quiet total src elapsed p (p.after quiet total elapsed c)

/-! ## What is counted -/

/-- The invariant of the source's branch. -/
def Source.Holds (total : U64) (c : Copy) : Source → Prop
  | .null _ _ _ => c.Kept total
  | .disk file _ => ∃ ns, c.Read total file ns

variable {total : U64} {src : Source} {c c' : Copy}

theorem Source.holds_start (total : U64) (src : Source) : src.Holds total (.start src.file) := by
  cases src with
  | null start buf hbuf => exact Copy.kept_start total
  | disk file hlen => exact ⟨[], Copy.read_of_run .refl⟩

/-- The count is what is on the stream. -/
theorem Source.Holds.wire_length (h : src.Holds total c) : c.wire.length = c.sent.toNat := by
  cases src with
  | null start buf hbuf => exact h.wire
  | disk file hlen =>
      obtain ⟨ns, hc⟩ := h
      have hwithin := hc.within
      rw [hc.wire_length, hc.sent, BitVec.toNat_ofNat, Nat.mod_eq_of_lt (by omega)]

/-- Every pass sends something. -/
theorem Pass.holds (h : Pass total src c c') (hc : src.Holds total c) :
    src.Holds total c' ∧ c.sent.toNat < c'.sent.toNat := by
  cases h with
  | @null start buf hbuf _ _ hpass =>
      have hlen := nullBuffer_length hbuf
      exact ⟨(hpass.kept hlen hc).1, hpass.sent_lt total.isLt hlen hc⟩
  | @disk file hlen n _ _ hpass =>
      obtain ⟨ns, hread⟩ := hc
      have hread' := hpass.read hread
      have hbefore : (Source.disk file hlen).Holds total c := ⟨ns, hread⟩
      have hafter : (Source.disk file hlen).Holds total c' := ⟨_, hread'⟩
      refine ⟨hafter, ?_⟩
      rw [← hbefore.wire_length, ← hafter.wire_length, hread.wire_length, hread'.wire_length,
        List.sum_append, List.sum_singleton]
      obtain ⟨hmore, hn, hbuf, hrest⟩ := hpass
      omega

/-! ## One call of the closure -/

variable {quiet : Bool} {elapsed : ℕ} {p p' : Reporting} {es : List ℕ}

theorem Reporting.after_of_silent (h : quiet = true ∨ elapsed < p.report.nextReport) :
    p.after quiet total elapsed c = ⟨c, p.report, elapsed, p.marks⟩ := by
  have hguard : quiet = true ∨ ((!false) = true ∧ elapsed < p.report.nextReport) :=
    h.imp_right fun hlt => ⟨rfl, hlt⟩
  rw [after, Report.report, if_pos hguard]
  simp

theorem Reporting.after_of_due (hdue : p.report.nextReport ≤ elapsed) (hpos : 0 < elapsed) :
    p.after false total elapsed c = ⟨c, ⟨elapsed + SECOND, c.sent⟩, elapsed,
      p.marks ++ [⟨asSecsF64 elapsed, 8 * (c.wire.length : ℚ),
        ((c.sent - p.report.lastSent).toNat : ℚ) * 8 / asSecsF64 elapsed⟩]⟩ := by
  have hguard : ¬ (false = true ∨ ((!false) = true ∧ elapsed < p.report.nextReport)) := by
    rintro (h | ⟨-, hlt⟩)
    · exact Bool.false_ne_true h
    · omega
  rw [after, Report.report, if_neg hguard]
  simp [Line.mark, asSecsF64_pos hpos]

/-- The first line counts from the start on both scales. -/
theorem trueRates_first {m : Mark} (ht : 0 < m.time) (hrate : m.rate = m.count / m.time) :
    TrueRates [m] := by
  have hsince : Mark.start.RateSince m := by
    rw [Mark.RateSince, hrate, Mark.start, sub_zero, sub_zero]
  exact .of_weighs (List.isChain_pair.mpr hsince) (List.isChain_pair.mpr (hsince.weighs ht))

/-- A later line that divides by the time since the start is wrong if anything was
    sent. -/
theorem not_rateSince {a b : Mark} (ht : a.time ≠ 0) (hcount : a.count ≠ b.count)
    (hrate : b.rate = (b.count - a.count) / b.time) : ¬ a.RateSince b := by
  intro h
  have heq := hrate.symm.trans h
  rw [div_eq_mul_inv, div_eq_mul_inv, mul_right_inj' (sub_ne_zero.mpr hcount.symm), inv_inj] at heq
  exact ht (sub_eq_self.mp heq.symm)

/-! ## The lines of a run -/

/-- No line falls due at the reading `b` because of one at the earlier reading `a`: that is
    before the first line, or not a full second back. -/
def NoNewLine (a b : ℕ) : Prop := SECOND ≤ a → b < a + SECOND

/-- No line so far. -/
structure Reporting.Silent (es : List ℕ) (p : Reporting) : Prop where
  before : ∀ e ∈ es, e < SECOND
  report : p.report = .init
  marks : p.marks = []

/-- One line so far, at the reading `a`, with the mark `m`. -/
structure Reporting.Printed (es : List ℕ) (a : ℕ) (m : Mark) (p : Reporting) : Prop where
  mem : a ∈ es
  due : SECOND ≤ a
  first : ∀ e ∈ es, SECOND ≤ e → a ≤ e
  next : p.report.nextReport = a + SECOND
  sent : p.report.lastSent.toNat ≤ p.copy.sent.toNat
  marks : p.marks = [m]
  time : m.time = asSecsF64 a
  count : m.count = 8 * (p.report.lastSent.toNat : ℚ)
  rates : TrueRates [m]

/-- Where the readout stands: silent so far, one line printed, or past a wrong line. -/
inductive Reporting.Phase (es : List ℕ) (p : Reporting) : Prop
  | silent (h : p.Silent es) (hpair : es.Pairwise NoNewLine)
  | once {a : ℕ} {m : Mark} (h : p.Printed es a m) (hpair : es.Pairwise NoNewLine)
  | wrong (hpair : ¬ es.Pairwise NoNewLine)
      (hmarks : ¬ (Mark.start :: p.marks).IsChain Mark.RateSince)

/-- The invariant of a run that prints. -/
structure Reporting.Tracks (total : U64) (src : Source) (es : List ℕ) (p : Reporting) : Prop where
  holds : src.Holds total p.copy
  clock : ∀ e ∈ es, e ≤ p.clock
  phase : p.Phase es

theorem forall_mem_append_singleton {P : ℕ → Prop} (h : ∀ e ∈ es, P e) (hlast : P elapsed) :
    ∀ e ∈ es ++ [elapsed], P e :=
  List.forall_mem_append.mpr ⟨h, List.forall_mem_singleton.mpr hlast⟩

theorem pairwise_append_singleton (h : es.Pairwise NoNewLine)
    (hlast : ∀ e ∈ es, SECOND ≤ e → elapsed < e + SECOND) :
    (es ++ [elapsed]).Pairwise NoNewLine := by
  rw [List.pairwise_append]
  refine ⟨h, List.pairwise_singleton _ _, fun e he b hb => ?_⟩
  rw [List.mem_singleton.mp hb]
  exact hlast e he

/-- A reading before the first second leaves the readout silent. -/
theorem Reporting.Silent.after_early (hp : p.Silent es) (h : elapsed < SECOND) :
    (p.after false total elapsed c).Silent (es ++ [elapsed]) := by
  have hnext : elapsed < p.report.nextReport := by
    rw [hp.report]
    exact h
  rw [after_of_silent (.inr hnext)]
  exact ⟨forall_mem_append_singleton hp.before h, hp.report, hp.marks⟩

/-- The first reading of a second or more prints a line, and a right one. -/
theorem Reporting.Silent.after_due (hp : p.Silent es) (h : SECOND ≤ elapsed)
    (hwire : c.wire.length = c.sent.toNat) :
    ∃ m, (p.after false total elapsed c).Printed (es ++ [elapsed]) elapsed m := by
  have hpos : 0 < elapsed := SECOND_pos.trans_le h
  have hnext : p.report.nextReport ≤ elapsed := by
    rw [hp.report]
    exact h
  have hall : c.sent - p.report.lastSent = c.sent := by
    rw [hp.report]
    exact BitVec.sub_zero _
  rw [after_of_due hnext hpos, hp.marks, List.nil_append, hall, hwire]
  refine ⟨_, List.mem_append_right _ (List.mem_singleton_self _), h,
    forall_mem_append_singleton (fun e he hle => ?_) fun _ => le_rfl, rfl, le_rfl, rfl, rfl, rfl,
    trueRates_first (asSecsF64_pos hpos) ?_⟩
  · exact absurd (hp.before e he) (not_lt.mpr hle)
  · rw [mul_comm]

/-- After the first line, a reading less than a second later prints nothing. -/
theorem Reporting.Printed.after_early {a : ℕ} {m : Mark} (hp : p.Printed es a m)
    (hle : a ≤ elapsed) (h : elapsed < a + SECOND)
    (hsent : p.report.lastSent.toNat ≤ c.sent.toNat) :
    (p.after false total elapsed c).Printed (es ++ [elapsed]) a m := by
  rw [after_of_silent (.inr (hp.next ▸ h))]
  exact ⟨List.mem_append_left _ hp.mem, hp.due,
    forall_mem_append_singleton hp.first fun _ => hle, hp.next, hsent, hp.marks, hp.time, hp.count,
    hp.rates⟩

/-- Any later one prints a line that divides by too much. -/
theorem Reporting.Printed.after_due {a : ℕ} {m : Mark} (hp : p.Printed es a m)
    (h : a + SECOND ≤ elapsed) (hsent : p.report.lastSent.toNat < c.sent.toNat)
    (hwire : c.wire.length = c.sent.toNat) :
    ¬ (Mark.start :: (p.after false total elapsed c).marks).IsChain Mark.RateSince := by
  have hpos : 0 < elapsed := SECOND_pos.trans_le ((Nat.le_add_left _ _).trans h)
  have hgrown : ((c.sent - p.report.lastSent).toNat : ℚ) =
      (c.sent.toNat : ℚ) - p.report.lastSent.toNat := by
    rw [BitVec.toNat_sub_of_le hsent.le, Nat.cast_sub hsent.le]
  have hcast : (p.report.lastSent.toNat : ℚ) < c.sent.toNat := Nat.cast_lt.mpr hsent
  rw [after_of_due (hp.next ▸ h) hpos, hp.marks, isChain_cons_append_singleton]
  rintro ⟨-, hlast⟩
  have hsince : m.RateSince _ := hlast
  refine not_rateSince ?_ ?_ ?_ hsince
  · rw [hp.time]
    exact (asSecsF64_pos (SECOND_pos.trans_le hp.due)).ne'
  · show m.count ≠ 8 * (c.wire.length : ℚ)
    rw [hp.count, hwire]
    linarith
  · show ((c.sent - p.report.lastSent).toNat : ℚ) * 8 / asSecsF64 elapsed = _
    rw [hp.count, hgrown, hwire, mul_comm, mul_sub]

theorem Reporting.Step.tracks (h : Step false total src elapsed p p')
    (hp : p.Tracks total src es) : p'.Tracks total src (es ++ [elapsed]) := by
  obtain ⟨hpass, hnow⟩ := h
  rename_i c
  obtain ⟨hholds, hlt⟩ := hpass.holds hp.holds
  have hwire := hholds.wire_length
  have hclock : ∀ e ∈ es, e ≤ elapsed := fun e he => (hp.clock e he).trans hnow
  refine ⟨hholds, forall_mem_append_singleton hclock le_rfl, ?_⟩
  cases hp.phase with
  | silent hsilent hpair =>
      have hpair' : (es ++ [elapsed]).Pairwise NoNewLine :=
        pairwise_append_singleton hpair fun e he hle =>
          absurd (hsilent.before e he) (not_lt.mpr hle)
      rcases lt_or_ge elapsed SECOND with hearly | hdue
      · exact .silent (hsilent.after_early hearly) hpair'
      · have hprinted : ∃ m,
            (p.after false total elapsed c).Printed (es ++ [elapsed]) elapsed m :=
          hsilent.after_due hdue hwire
        obtain ⟨m, hm⟩ := hprinted
        exact .once hm hpair'
  | @once a m hprinted hpair =>
      have hsent := hprinted.sent.trans_lt hlt
      rcases lt_or_ge elapsed (a + SECOND) with hearly | hdue
      · refine .once (hprinted.after_early (hclock a hprinted.mem) hearly hsent.le) ?_
        refine pairwise_append_singleton hpair fun e he hle => hearly.trans_le ?_
        exact Nat.add_le_add_right (hprinted.first e he hle) SECOND
      · refine .wrong (fun h => ?_) (hprinted.after_due hdue hsent hwire)
        have hnear := (List.pairwise_append.mp h).2.2 a hprinted.mem elapsed
          (List.mem_singleton_self _) hprinted.due
        omega
  | wrong hpair hmarks =>
      -- a wrong line stays printed
      refine .wrong (fun h => hpair (List.pairwise_append.mp h).1) (fun h => hmarks ?_)
      rw [after, ← List.cons_append] at h
      exact h.left_of_append

theorem Reporting.tracks_of_run (h : LabelledRun (Step false total src) (.start src) es p) :
    p.Tracks total src es := by
  refine h.invariant (I := fun es p => p.Tracks total src es) ?_ fun es e p p' hp hstep =>
    hstep.tracks hp
  exact ⟨src.holds_start total, List.forall_mem_nil _,
    .silent ⟨List.forall_mem_nil _, rfl, rfl⟩ List.Pairwise.nil⟩

theorem Reporting.marks_of_quiet (h : LabelledRun (Step true total src) (.start src) es p) :
    p.marks = [] := by
  refine h.invariant (I := fun _ p => p.marks = []) rfl fun es e p p' hp hstep => ?_
  obtain ⟨hpass, hnow⟩ := hstep
  rw [after_of_silent (.inl rfl)]
  exact hp

/-- Whatever the passes and the clock, the lines of a run show true interval rates exactly
    when it is quiet or no second line has fallen due. -/
theorem Reporting.trueRates_iff
    (h : LabelledRun (Step quiet total src) (.start src) es p) :
    TrueRates p.marks ↔ quiet = true ∨ es.Pairwise NoNewLine := by
  cases quiet with
  | true =>
      rw [marks_of_quiet h]
      exact ⟨fun _ => .inl rfl, fun _ => trueRates_nil⟩
  | false =>
      cases (tracks_of_run h).phase with
      | silent hsilent hpair =>
          rw [hsilent.marks]
          exact ⟨fun _ => .inr hpair, fun _ => trueRates_nil⟩
      | once hprinted hpair =>
          rw [hprinted.marks]
          exact ⟨fun _ => .inr hpair, fun _ => hprinted.rates⟩
      | wrong hpair hmarks =>
          refine ⟨fun h => absurd h.rates hmarks, ?_⟩
          rintro (h | h)
          · exact absurd h Bool.false_ne_true
          · exact absurd h hpair

end Andri.File

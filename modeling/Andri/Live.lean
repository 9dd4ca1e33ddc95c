/-
  Andri.Live

  The live readout of `run_sampler` in `src/meter.rs`.  Every tick prints one line,
  tagged as warm-up up to 100 ms past the end of the warm-up window, and
  appends one sample.

  The tag goes by the tick's reading of the clock.  The tagged lines are therefore
  the first ones, and no more than the warm-up has seconds; and if no tick is
  more than 100 ms late they are exactly the ones of its seconds.
-/
import Andri.Lib.Ticks
import Andri.Tcp.Series
import Andri.Udp.Readout

namespace Andri

open Lib

/-! ## Lines -/

/-- A live line, with the rate before it is formatted. -/
structure LiveLine where
  elapsed : ℕ
  bps : ℚ
  tag : String

/-- The tag of a line in the warm-up window. -/
def WARMUP_TAG : String := "  (warm-up, excluded)"

/-- `warmup + Duration::from_millis(100)`. -/
def tagBound (warmup : ℕ) : ℕ := warmup + Udp.fromMillis 100

/-- The tag of a line printed `elapsed` after the start. -/
def warmupTag (warmup elapsed : ℕ) : String := if elapsed ≤ tagBound warmup then WARMUP_TAG else ""

/-- The line of a tick at `now` when the counters total `cur`. -/
def SampleLoop.line (t0 warmup now cur : ℕ) (l : SampleLoop) : LiveLine where
  elapsed := now - t0
  bps := bitsPerSec (BitVec.ofNat 64 (cur - l.lastBytes)) (asSecsF64 (now - l.lastT))
  tag := warmupTag warmup (now - t0)

/-- The line of a tick of `sample_until_done` in `src/modes/file.rs`: no time is warm-up. -/
def SampleLoop.plainLine (t0 now cur : ℕ) (l : SampleLoop) : LiveLine where
  elapsed := now - t0
  bps := bitsPerSec (BitVec.ofNat 64 (cur - l.lastBytes)) (asSecsF64 (now - l.lastT))
  tag := ""

/-- What a step of `run_sampler` prints. -/
def Sampler.prints (t0 warmup : ℕ) : Sampler → Sampler → List LiveLine
  | .reading l now _ sum, .waiting _ | .reading l now _ sum, .returned _ =>
      [l.line t0 warmup now sum]
  | _, _ => []

/-! ## Lines and samples -/

/-- What a line and a sample both tell. -/
def LiveLine.reading (l : LiveLine) : ℚ × ℚ := (asSecsF64 l.elapsed, l.bps)

def Sample.reading (s : Sample) : ℚ × ℚ := (s.tSecs, s.bitsPerSec)

/-- The lines printed up to the reading `latest`, and the samples taken: one line for each,
    at the clock readings of the ticks, tagged by them. -/
structure Shows (t0 warmup latest : ℕ) (samples : List Sample) (lines : List LiveLine) : Prop where
  ticks : Ticks SECOND (lines.map LiveLine.elapsed)
  latest : ∀ l ∈ lines, t0 + l.elapsed ≤ latest
  tags : lines.map LiveLine.tag = (lines.map LiveLine.elapsed).map (warmupTag warmup)
  samples : lines.map LiveLine.reading = samples.map Sample.reading

section Shows

variable {t0 warmup window latest now cur clock clock' : ℕ} {samples : List Sample}
  {lines : List LiveLine} {l : SampleLoop}

theorem Shows.nil (t0 warmup latest : ℕ) : Shows t0 warmup latest [] [] :=
  ⟨.nil _, fun l hl => (by cases hl), rfl, rfl⟩

theorem Shows.length_eq (h : Shows t0 warmup latest samples lines) :
    lines.length = samples.length := by
  have hlen := congrArg List.length h.samples
  rwa [List.length_map, List.length_map] at hlen

/-- A tick at `now` prints a line and takes a sample. -/
theorem Shows.snoc (h : Shows t0 warmup latest samples lines) {line : LiveLine} {sample : Sample}
    (hlast : latest ≤ now) (hdue : t0 + (lines.length + 1) * SECOND ≤ now)
    (helapsed : line.elapsed = now - t0) (htag : line.tag = warmupTag warmup (now - t0))
    (hreading : line.reading = sample.reading) :
    Shows t0 warmup now (samples ++ [sample]) (lines ++ [line]) where
  ticks := by
    rw [List.map_append, List.map_singleton, helapsed]
    apply h.ticks.snoc
    · intro t ht
      obtain ⟨x, hx, rfl⟩ := List.mem_map.mp ht
      have hbefore := h.latest x hx
      omega
    · rw [List.length_map]
      omega
  latest x hx := by
    rcases List.mem_append.mp hx with hold | hnew
    · exact (h.latest x hold).trans hlast
    · rw [List.mem_singleton.mp hnew, helapsed]
      omega
  tags := by
    rw [List.map_append, List.map_append, List.map_append, h.tags, List.map_singleton, htag,
      List.map_singleton, helapsed, List.map_singleton]
  samples := by
    rw [List.map_append, List.map_append, h.samples, List.map_singleton, hreading,
      List.map_singleton]

theorem Shows.record (h : Shows t0 warmup l.lastT l.samples lines) (hlast : l.lastT ≤ now)
    (hdue : t0 + (lines.length + 1) * SECOND ≤ now) :
    Shows t0 warmup now (l.record t0 now cur).samples (lines ++ [l.line t0 warmup now cur]) :=
  h.snoc hlast hdue rfl rfl rfl

/-- The tags are those of the readings within the bound, and then none. -/
theorem Shows.tags_eq (h : Shows t0 warmup latest samples lines) :
    lines.map LiveLine.tag =
      List.replicate (early (tagBound warmup) (lines.map LiveLine.elapsed)) WARMUP_TAG ++
      List.replicate (lines.length - early (tagBound warmup) (lines.map LiveLine.elapsed)) "" := by
  have hsplit := map_ite_eq_replicate (tagBound warmup) h.ticks.ordered WARMUP_TAG ""
  rw [List.length_map] at hsplit
  rw [h.tags, ← hsplit]
  rfl

/-- A warm-up of `n` seconds tags no more than `n` lines. -/
theorem Shows.early_le {n : ℕ} (h : Shows t0 (n * SECOND) latest samples lines) :
    early (tagBound (n * SECOND)) (lines.map LiveLine.elapsed) ≤ n := by
  apply h.ticks.early_le
  rw [tagBound, Nat.succ_mul]
  exact Nat.add_lt_add_left (by decide) _

/-- There are no more lines than seconds have passed. -/
theorem Shows.length_mul_le (h : Shows t0 warmup latest samples lines) :
    lines.length * SECOND ≤ latest - t0 := by
  have hall : early (latest - t0) (lines.map LiveLine.elapsed) = lines.length := by
    rw [early, ← List.length_map (f := LiveLine.elapsed), List.countP_eq_length]
    intro t ht
    obtain ⟨x, hx, rfl⟩ := List.mem_map.mp ht
    have hle := h.latest x hx
    rw [decide_eq_true_eq]
    omega
  rw [← hall]
  exact h.ticks.early_mul_le

/-! ## The samples behind the untagged lines -/

/-- The samples whose lines have no tag. -/
def untagged (lines : List LiveLine) (samples : List Sample) : List Sample :=
  ((lines.zip samples).filter fun p => p.1.tag = "").map Prod.snd

/-- How many lines are tagged. -/
def tagged (lines : List LiveLine) : ℕ := lines.countP fun l => l.tag = WARMUP_TAG

/-- Behind tagged lines come the untagged ones. -/
theorem untagged_eq_drop {lines : List LiveLine} {samples : List Sample} {k : ℕ}
    (hlen : lines.length = samples.length) (hk : k ≤ lines.length)
    (h : lines.map LiveLine.tag =
      List.replicate k WARMUP_TAG ++ List.replicate (lines.length - k) "") :
    tagged lines = k ∧ untagged lines samples = samples.drop k := by
  have hne : WARMUP_TAG ≠ "" := by decide
  induction k generalizing lines samples with
  | zero =>
      -- no line is tagged
      have hall : ∀ l ∈ lines, l.tag = "" := by
        intro l hl
        have hmem := List.mem_map_of_mem (f := LiveLine.tag) hl
        rw [h, List.replicate_zero, List.nil_append] at hmem
        exact List.eq_of_mem_replicate hmem
      refine ⟨?_, ?_⟩
      · rw [tagged, List.countP_eq_zero]
        intro l hl
        simp [hall l hl, hne.symm]
      · have hfilter : (lines.zip samples).filter (fun p => p.1.tag = "") = lines.zip samples :=
          List.filter_eq_self.mpr fun p hp => by simpa using hall p.1 (List.of_mem_zip hp).1
        rw [untagged, hfilter, List.map_snd_zip hlen.ge, List.drop_zero]
  | succ k ih =>
      cases lines with
      | nil => simp at hk
      | cons l lines =>
          cases samples with
          | nil => simp at hlen
          | cons s samples =>
              simp only [List.length_cons, Nat.add_right_cancel_iff] at hlen
              simp only [List.length_cons, Nat.add_le_add_iff_right] at hk
              rw [List.map_cons, List.replicate_succ, List.cons_append, List.length_cons,
                Nat.add_sub_add_right, List.cons.injEq] at h
              obtain ⟨htag, hrest⟩ := h
              obtain ⟨hcount, hdrop⟩ := ih hlen hk hrest
              refine ⟨?_, ?_⟩
              · rw [tagged, List.countP_cons_of_pos (by simpa using htag), ← hcount]
                rfl
              · have hout : ¬ (l.tag = "") := by
                  rw [htag]
                  exact hne
                rw [List.drop_succ_cons, ← hdrop, untagged, List.zip_cons_cons,
                  List.filter_cons_of_neg (by simpa using hout)]
                rfl

/-! ## Along the sampler -/

/-- The lines printed so far, at each program point. -/
def Sampler.Shows (t0 window warmup clock : ℕ) (lines : List LiveLine) : Sampler → Prop
  | .spawned => lines = []
  | .baseline next _ _ => lines = [] ∧ t0 + SECOND ≤ next
  | .waiting l => Andri.Shows t0 warmup l.lastT l.samples lines ∧ l.lastT ≤ clock ∧
      t0 + (lines.length + 1) * SECOND ≤ l.next ∧ ∀ x ∈ lines, x.elapsed < window
  | .reading l now _ _ => Andri.Shows t0 warmup l.lastT l.samples lines ∧ l.lastT ≤ now ∧
      now ≤ clock ∧ t0 + (lines.length + 1) * SECOND ≤ now ∧
      t0 + (lines.length + 2) * SECOND ≤ l.next ∧ ∀ x ∈ lines, x.elapsed < window
  | .returned samples => (∃ latest, Andri.Shows t0 warmup latest samples lines) ∧
      Ended window (lines.map LiveLine.elapsed)

theorem Sampler.Shows.later {s : Sampler} (h : s.Shows t0 window warmup clock lines)
    (hle : clock ≤ clock') : s.Shows t0 window warmup clock' lines := by
  cases s with
  | spawned | baseline | returned => exact h
  | waiting l => exact ⟨h.1, h.2.1.trans hle, h.2.2⟩
  | reading l now k sum => exact ⟨h.1, h.2.1, h.2.2.1.trans hle, h.2.2.2⟩

theorem Sampler.Step.shows {counters : List ℕ} {s s' : Sampler}
    (h : Step t0 window counters clock s clock' s') (hclock : t0 ≤ clock)
    (hs : s.Shows t0 window warmup clock lines) :
    s'.Shows t0 window warmup clock' (lines ++ s.prints t0 warmup s') := by
  cases h with
  | poll hnow =>
      obtain rfl : lines = [] := hs
      refine ⟨rfl, ?_⟩
      omega
  | baselineLoad hk =>
      obtain ⟨rfl, hnext⟩ := hs
      exact ⟨rfl, hnext⟩
  | baselineDone hk =>
      obtain ⟨rfl, hnext⟩ := hs
      refine ⟨.nil _ _ _, hclock, ?_, fun x hx => by cases hx⟩
      show t0 + (0 + 1) * SECOND ≤ _
      rw [Nat.zero_add, Nat.one_mul]
      exact hnext
  | @tick now l hnow hdue =>
      obtain ⟨hshows, hlast, hnext, hin⟩ := hs
      simp only [prints, List.append_nil]
      refine ⟨hshows, hlast.trans hnow, le_rfl, hnext.trans hdue, ?_, hin⟩
      show t0 + (lines.length + 1 + 1) * SECOND ≤ l.next + SECOND
      rw [Nat.succ_mul]
      omega
  | load hk =>
      simp only [prints, List.append_nil]
      exact hs
  | @record now k sum l hk =>
      obtain ⟨hshows, hlast, hnow, hdue, hnext, hin⟩ := hs
      have hrecord : Andri.Shows t0 warmup now (l.record t0 now sum).samples
          (lines ++ [l.line t0 warmup now sum]) := hshows.record hlast hdue
      by_cases hpast : window ≤ now - t0
      · rw [if_pos hpast]
        refine ⟨⟨now, hrecord⟩, lines.map LiveLine.elapsed, now - t0, ?_, fun t ht => ?_, hpast⟩
        · rw [prints, List.map_append]
          rfl
        · obtain ⟨x, hx, rfl⟩ := List.mem_map.mp ht
          exact hin x hx
      · rw [if_neg hpast]
        refine ⟨hrecord, hnow, ?_, fun x hx => ?_⟩
        · simp only [prints, List.length_append, List.length_singleton]
          exact hnext
        · rcases List.mem_append.mp hx with hold | hnew
          · exact hin x hold
          · rw [List.mem_singleton.mp hnew]
            exact not_le.mp hpast

end Shows

/-! ## What a readout tells -/

/-- A readout of a test of `duration` seconds after `warmup` seconds.  It shows the samples,
    one line each; the tagged lines come first, no more than the warm-up has seconds.
    One that is over has no more lines than the window has seconds, and at least one
    untagged if any time is measured; and if no tick came more than 100 ms late, it has
    one line for every second, and exactly those of the warm-up are tagged. -/
structure LiveReadout (duration warmup : ℕ) (s : Sampler) (lines : List LiveLine) : Prop where
  samples : lines.map LiveLine.reading = (Tcp.recorded s).map Sample.reading
  tags : ∃ k ≤ warmup, k ≤ lines.length ∧
    lines.map LiveLine.tag =
      List.replicate k WARMUP_TAG ++ List.replicate (lines.length - k) ""
  few : ∀ samples, s = .returned samples → lines.length ≤ max 1 (duration + warmup)
  measured : ∀ samples, s = .returned samples → 0 < duration →
    ∃ line, lines.getLast? = some line ∧ line.tag = ""
  prompt : ∀ samples, s = .returned samples → 0 < duration + warmup →
    Prompt SECOND (Udp.fromMillis 100) (lines.map LiveLine.elapsed) →
    lines.map LiveLine.tag =
      List.replicate warmup WARMUP_TAG ++ List.replicate duration ""

theorem Sampler.Shows.readout {t0 duration warmup clock : ℕ} {s : Sampler} {lines : List LiveLine}
    (h : s.Shows t0 ((duration + warmup) * SECOND) (warmup * SECOND) clock lines) :
    LiveReadout duration warmup s lines := by
  -- unless nothing is printed yet, the lines show the samples
  have hshows : (lines = [] ∧ Tcp.recorded s = []) ∨
      ∃ latest, Andri.Shows t0 (warmup * SECOND) latest (Tcp.recorded s) lines := by
    cases s with
    | spawned => exact .inl ⟨h, rfl⟩
    | baseline => exact .inl ⟨h.1, rfl⟩
    | waiting l => exact .inr ⟨_, h.1⟩
    | reading l => exact .inr ⟨_, h.1⟩
    | returned samples => exact .inr h.1
  have hended : ∀ samples, s = .returned samples →
      (∃ latest, Andri.Shows t0 (warmup * SECOND) latest samples lines) ∧
      Ended ((duration + warmup) * SECOND) (lines.map LiveLine.elapsed) := by
    rintro samples rfl
    exact h
  have hgrace : Udp.fromMillis 100 < SECOND := by decide
  refine ⟨?_, ?_, fun samples hs => ?_, fun samples hs hpos => ?_,
    fun samples hs hpos hprompt => ?_⟩
  · rcases hshows with ⟨rfl, hnone⟩ | ⟨latest, hshows⟩
    · rw [hnone]
      rfl
    · exact hshows.samples
  · rcases hshows with ⟨rfl, -⟩ | ⟨latest, hshows⟩
    · exact ⟨0, Nat.zero_le _, le_rfl, rfl⟩
    · refine ⟨_, hshows.early_le, ?_, hshows.tags_eq⟩
      simpa using early_le_length (tagBound (warmup * SECOND)) (lines.map LiveLine.elapsed)
  · obtain ⟨⟨latest, hshows⟩, hended⟩ := hended samples hs
    simpa using hshows.ticks.length_le_of_ended hended
  · -- the last line is at the end of the window or past it
    obtain ⟨⟨latest, hshows⟩, before, last, hlines, -, hlast⟩ := hended samples hs
    have hget := congrArg List.getLast? hlines
    rw [List.getLast?_map, List.getLast?_concat] at hget
    obtain ⟨line, hline, rfl⟩ := Option.map_eq_some_iff.mp hget
    refine ⟨line, hline, ?_⟩
    have htags := congrArg List.getLast? hshows.tags
    rw [List.getLast?_map, List.map_map, List.getLast?_map, hline] at htags
    have hpast : ¬ line.elapsed ≤ tagBound (warmup * SECOND) := by
      have hbound : tagBound (warmup * SECOND) < (duration + warmup) * SECOND := by
        rw [tagBound, Nat.add_mul]
        have hsecond : SECOND ≤ duration * SECOND := Nat.le_mul_of_pos_left _ hpos
        omega
      omega
    rw [Option.some.inj htags]
    exact if_neg hpast
  · obtain ⟨⟨latest, hshows⟩, hended⟩ := hended samples hs
    have hlen := hshows.ticks.length_of_ended hended hprompt hgrace
    have hearly := hshows.ticks.early_eq (n := warmup) hprompt hgrace
    rw [List.length_map] at hlen hearly
    rw [hshows.tags_eq, tagBound, hearly, hlen]
    congr 2 <;> omega

end Andri

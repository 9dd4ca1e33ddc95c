/-
  Andri.Report

  What is printed about rates: `Format::render` of `src/cli.rs`, the live lines of the
  modes, and of `connect` in `src/session.rs` the target rate in its banner and the
  result it ends with.  The rates, ratios and durations of the lines and of the Result
  are taken as exact; what the printing computes of them (the seconds of a `Duration`,
  a rate in another unit, a percentage) is rounded to a double, and all is rounded
  where it is written.

  The texts read back: their numbers are the values so rounded, and a rate is within
  half of its last digit and one rounding to a double.
-/
import Andri.Client.Opts
import Andri.File.Readout
import Andri.Lib.Binary64
import Andri.Lib.Decimal
import Andri.Udp.Live

namespace Andri

open Lib

/-! ## Rates -/

/-- Throughput unit shown in output. -/
inductive Format
  | bits
  | bytes
  | mbps
  | gbps

/-- What `render` writes. -/
def Format.pieces : Format → ℚ → List Piece
  | .bits, bps => [.number 0 0 bps, .word " bit/s"]
  | .bytes, bps => [.number 0 0 (binary64 (bps / 8)), .word " byte/s"]
  | .mbps, bps => [.number 0 2 (binary64 (bps / 10 ^ 6)), .word " Mbps"]
  | .gbps, bps => [.number 0 2 (binary64 (bps / 10 ^ 9)), .word " Gbps"]

/-- `Format::render`. -/
def Format.render (self : Format) (bps : ℚ) : String := text (self.pieces bps)

/-- The bits per second of one unit. -/
def Format.unit : Format → ℚ
  | .bits => 1
  | .bytes => 8
  | .mbps => 10 ^ 6
  | .gbps => 10 ^ 9

/-- The decimals shown. -/
def Format.decimals : Format → ℕ
  | .bits | .bytes => 0
  | .mbps | .gbps => 2

/-- A rate in the unit, as the program computes it. -/
def Format.inUnit (self : Format) (bps : ℚ) : ℚ :=
  match self with
  | .bits => bps
  | .bytes | .mbps | .gbps => binary64 (bps / self.unit)

/-- The number shown for a rate. -/
def Format.figure (self : Format) (bps : ℚ) : ℚ := rounded self.decimals (self.inUnit bps)

section Figure

variable (fmt : Format) {bps : ℚ}

theorem Format.unit_pos : 0 < fmt.unit := by
  cases fmt <;> simp [unit]

theorem Format.inUnit_nonneg (h : 0 ≤ bps) : 0 ≤ fmt.inUnit bps := by
  cases fmt with
  | bits => exact h
  | bytes | mbps | gbps => exact binary64_nonneg _

/-- The unit takes one rounding to a double. -/
theorem Format.abs_inUnit_sub_le (h : 0 ≤ bps) :
    |fmt.inUnit bps - bps / fmt.unit| ≤ bps / fmt.unit / 2 ^ 53 + 2 ^ (-1075 : ℤ) := by
  have hunit := fmt.unit_pos
  have hquotient : 0 ≤ bps / fmt.unit := div_nonneg h hunit.le
  cases fmt with
  | bits =>
      rw [inUnit, unit, div_one, sub_self, abs_zero]
      positivity
  | bytes | mbps | gbps => exact abs_binary64_sub_le hquotient

/-- A rate is shown up to half of its last digit and one rounding to a double. -/
theorem Format.abs_figure_sub_le (h : 0 ≤ bps) :
    |fmt.figure bps * fmt.unit - bps| ≤
      fmt.unit / (2 * 10 ^ fmt.decimals) + bps / 2 ^ 53 + fmt.unit * 2 ^ (-1075 : ℤ) := by
  have hunit := fmt.unit_pos
  have hround := abs_rounded_sub_le fmt.decimals (fmt.inUnit_nonneg h)
  have hdouble := fmt.abs_inUnit_sub_le h
  have hscale : fmt.figure bps * fmt.unit - bps =
      (fmt.figure bps - fmt.inUnit bps + (fmt.inUnit bps - bps / fmt.unit)) * fmt.unit := by
    rw [sub_add_sub_cancel, sub_mul, div_mul_cancel₀ _ hunit.ne']
  calc |fmt.figure bps * fmt.unit - bps|
      = |fmt.figure bps - fmt.inUnit bps + (fmt.inUnit bps - bps / fmt.unit)| * fmt.unit := by
        rw [hscale, abs_mul, abs_of_pos hunit]
    _ ≤ (1 / (2 * 10 ^ fmt.decimals) + (bps / fmt.unit / 2 ^ 53 + 2 ^ (-1075 : ℤ))) * fmt.unit :=
        mul_le_mul_of_nonneg_right ((abs_add_le _ _).trans (add_le_add hround hdouble)) hunit.le
    _ = fmt.unit / (2 * 10 ^ fmt.decimals) + bps / 2 ^ 53 + fmt.unit * 2 ^ (-1075 : ℤ) := by
        generalize (2 : ℚ) ^ (-1075 : ℤ) = tiny
        field_simp
        ring

end Figure

/-! ## Lines -/

/-- `Duration::as_secs_f64` of a duration of `secs` seconds: the whole seconds and the
    quotient of the nanoseconds, in doubles. -/
def secsShown (secs : ℚ) : ℚ := binary64 (binary64 ⌊secs⌋₊ + binary64 (secs - ⌊secs⌋₊))

/-- A line: the seconds since the start, the rate and what else there is to say. -/
def linePieces (fmt : Format) (secs bps : ℚ) (after : List Piece) : List Piece :=
  [.word "[", .number 5 1 (secsShown secs), .word "s] "] ++ fmt.pieces bps ++ after

/-- The live line of `run_sampler`. -/
def LiveLine.pieces (fmt : Format) (l : LiveLine) : List Piece :=
  linePieces fmt (asSecsF64 l.elapsed) l.bps [.word l.tag]

/-- The live line of `udp::serve`. -/
def Udp.LossLine.pieces (fmt : Format) (l : Udp.LossLine) : List Piece :=
  linePieces fmt (asSecsF64 l.elapsed) l.bps
    [.word " | loss ", .number 0 0 l.lost, .word " | jitter ", .number 0 3 l.jitterMs,
      .word " ms", .word l.tag]

/-- The send-side line of `udp::drive`. -/
def Udp.Line.pieces (fmt : Format) (l : Udp.Line) : List Piece :=
  linePieces fmt l.secs l.bps
    [.word " sent | ", .number 0 0 l.intervalPackets, .word " pkts", .word l.tag]

/-- The `percent` of a line as the program computes it, in doubles. -/
def File.Line.percentShown (l : File.Line) : ℚ :=
  if l.total > 0 then
    binary64 (binary64 (binary64 l.sent.toNat / binary64 l.total.toNat) * 100)
  else 100

/-- With all sent the share is whole, however the lengths are rounded. -/
theorem File.Line.percentShown_of_all {l : File.Line} (h : l.sent = l.total) :
    l.percentShown = 100 := by
  unfold percentShown
  split
  · next htotal =>
      have hpos : 0 < l.total.toNat := htotal
      have hone : (2 : ℚ) ^ (-1074 : ℤ) ≤ l.total.toNat :=
        (zpow_le_one_of_nonpos₀ one_le_two (by norm_num)).trans (by exact_mod_cast hpos)
      have hself : binary64 1 = 1 := by exact_mod_cast binary64_natCast (n := 1) (by norm_num)
      have hhundred : binary64 100 = 100 := by
        exact_mod_cast binary64_natCast (n := 100) (by norm_num)
      rw [h, div_self (binary64_pos hone).ne', hself, one_mul, hhundred]
  · rfl

/-- The progress line of `file::drive`. -/
def File.Line.pieces (fmt : Format) (l : File.Line) : List Piece :=
  linePieces fmt l.secs l.bps
    [.word " sent | ", .number 0 0 l.percentShown, .word "% (", .number 0 0 l.sent.toNat, .word "/",
      .number 0 0 l.total.toNat, .word " bytes)"]

/-- `unwrap_or(0)` of a word. -/
def orZero (o : Option U64) : ℚ := (o.getD 0).toNat

/-- The target rate in the banner of `print_config`. -/
def ClientOpts.bitratePieces (fmt : Format) (opts : ClientOpts) : List Piece :=
  [.word "  bitrate    "] ++ fmt.pieces (binary64 (orZero opts.bitrate))

/-- The loss of a UDP test in percent. -/
def TestResult.lossPercent (r : TestResult) : ℚ := binary64 (r.lossRatio.getD 0 * 100)

/-- The result `connect` prints for people. -/
def TestResult.pieces (fmt : Format) (mode : Mode) (opts : ClientOpts) (r : TestResult) :
    List Piece :=
  match mode with
  | .udp =>
      [.word "\nUDP: "] ++ fmt.pieces r.bitsPerSec ++
        [.word " over ", .number 0 1 r.durationSecs, .word "s | loss ",
          .number 0 0 (orZero r.packetsLost), .word "/", .number 0 0 (orZero r.packetsExpected),
          .word " (", .number 0 2 r.lossPercent, .word "%) | jitter ",
          .number 0 3 (r.jitterMs.getD 0), .word " ms"]
  | .file =>
      [.word "\nFile transfer: "] ++ fmt.pieces r.bitsPerSec ++
        [.word " over ", .number 0 3 r.durationSecs, .word "s | ", .number 0 0 r.bytes.toNat,
          .word " bytes from ",
          .word (if opts.nullSource then "memory (--null-source)" else "disk")]
  | .tcp =>
      [.word "\nTCP throughput: "] ++ fmt.pieces r.bitsPerSec ++
        [.word " over ", .number 0 1 r.durationSecs, .word "s, ", .number 0 0 opts.parallel.toNat,
          .word " stream(s)"]

/-- The result `connect` prints; `pretty` is `serde_json::to_string_pretty`. -/
def TestResult.print (pretty : TestResult → String) (fmt : Format) (mode : Mode)
    (opts : ClientOpts) (r : TestResult) : String :=
  if opts.json then pretty r else text (r.pieces fmt mode opts)

/-! ## Read back -/

/-- The numbers in a text. -/
def ReadsBack (s : String) (qs : List ℚ) : Prop := numbers s = qs.map fun q => some (.fin q)

section Read

variable {fmt : Format} {bps : ℚ} {ps qs : List Piece}

/-- No word of a rate has a figure, and it ends with one. -/
theorem Format.readable_pieces (h : Readable ps = true) :
    Readable (fmt.pieces bps ++ ps) = true := by
  cases fmt <;> exact h

theorem Format.values_pieces :
    (fmt.pieces bps).filterMap Piece.value = [.fin (fmt.figure bps)] := by
  cases fmt <;> simp [pieces, Piece.value, figure, inUnit, decimals, unit]

/-- A text is read around its rate. -/
theorem reads_around (before : List Piece) {after : List Piece} (xs : List ℚ) {ys : List ℚ}
    (hbefore : ∀ rest, Readable rest = true → Readable (before ++ rest) = true)
    (hafter : Readable after = true)
    (hxs : before.filterMap Piece.value = xs.map .fin)
    (hys : after.filterMap Piece.value = ys.map .fin) :
    ReadsBack (text (before ++ fmt.pieces bps ++ after)) (xs ++ fmt.figure bps :: ys) := by
  have hreadable : Readable (before ++ (fmt.pieces bps ++ after)) = true :=
    hbefore _ (fmt.readable_pieces hafter)
  rw [ReadsBack, List.append_assoc, numbers_text hreadable, List.filterMap_append,
    List.filterMap_append, hxs, hys, Format.values_pieces]
  simp [Function.comp_def]

end Read

/-! ## The lines -/

/-- A tag has no figure. -/
def TagReadable (tag : String) : Prop := Readable [.word tag] = true

theorem readable_warmupTag (warmup elapsed : ℕ) : TagReadable (warmupTag warmup elapsed) := by
  unfold warmupTag
  split
  · show Readable [.word WARMUP_TAG] = true
    decide
  · rfl

theorem reads_line {fmt : Format} {bps secs : ℚ} {after : List Piece} {ys : List ℚ}
    (hafter : Readable after = true) (hys : after.filterMap Piece.value = ys.map .fin) :
    ReadsBack (text (linePieces fmt secs bps after))
      (rounded 1 (secsShown secs) :: fmt.figure bps :: ys) :=
  reads_around [.word "[", .number 5 1 (secsShown secs), .word "s] "] [rounded 1 (secsShown secs)]
    (fun _ h => h) hafter rfl hys

theorem LiveLine.reads {l : LiveLine} (h : TagReadable l.tag) (fmt : Format) :
    ReadsBack (text (l.pieces fmt))
      [rounded 1 (secsShown (asSecsF64 l.elapsed)), fmt.figure l.bps] :=
  reads_line h rfl

theorem Udp.LossLine.reads {l : Udp.LossLine} (h : TagReadable l.tag) (fmt : Format) :
    ReadsBack (text (l.pieces fmt))
      [rounded 1 (secsShown (asSecsF64 l.elapsed)), fmt.figure l.bps, l.lost,
        rounded 3 l.jitterMs] := by
  apply reads_line
  · exact readable_word (by decide) (readable_number rfl (readable_word (by decide)
      (readable_number rfl (readable_word (by decide) h))))
  simp [List.filterMap_cons, Piece.value, rounded_natCast]

theorem Udp.Line.reads {l : Udp.Line} (h : TagReadable l.tag) (fmt : Format) :
    ReadsBack (text (l.pieces fmt))
      [rounded 1 (secsShown l.secs), fmt.figure l.bps, l.intervalPackets] := by
  apply reads_line
  · exact readable_word (by decide) (readable_number rfl (readable_word (by decide) h))
  simp [List.filterMap_cons, Piece.value, rounded_natCast]

theorem File.Line.reads (l : File.Line) (fmt : Format) :
    ReadsBack (text (l.pieces fmt))
      [rounded 1 (secsShown l.secs), fmt.figure l.bps, rounded 0 l.percentShown, l.sent.toNat,
        l.total.toNat] := by
  apply reads_line (by rfl)
  simp [List.filterMap_cons, Piece.value, rounded_natCast]

/-- The line of an iteration is tagged as the others are. -/
theorem Udp.Readout.tag_emit {neg : Negotiate} {quiet : Bool} {elapsed seq : ℕ} {r : Readout}
    {l : Line} (h : (r.emit neg quiet elapsed seq).2 = some l) :
    l.tag = warmupTag (fromSecs neg.warmupSecs) elapsed := by
  unfold emit at h
  split at h
  · cases h
    rfl
  · cases h

theorem ClientOpts.reads_bitrate (opts : ClientOpts) (fmt : Format) :
    ReadsBack (text (opts.bitratePieces fmt)) [fmt.figure (binary64 (orZero opts.bitrate))] := by
  rw [bitratePieces, ← List.append_nil (_ ++ _)]
  exact reads_around [.word "  bitrate    "] [] (fun _ h => h) rfl rfl rfl

/-- The numbers in the result for people. -/
def TestResult.figures (fmt : Format) (mode : Mode) (opts : ClientOpts) (r : TestResult) :
    List ℚ :=
  match mode with
  | .udp =>
      [fmt.figure r.bitsPerSec, rounded 1 r.durationSecs, orZero r.packetsLost,
        orZero r.packetsExpected, rounded 2 r.lossPercent,
        rounded 3 (r.jitterMs.getD 0)]
  | .file => [fmt.figure r.bitsPerSec, rounded 3 r.durationSecs, r.bytes.toNat]
  | .tcp => [fmt.figure r.bitsPerSec, rounded 1 r.durationSecs, opts.parallel.toNat]

theorem TestResult.reads_print (pretty : TestResult → String) {opts : ClientOpts}
    (hjson : opts.json = false) (fmt : Format) (mode : Mode) (r : TestResult) :
    ReadsBack (r.print pretty fmt mode opts) (r.figures fmt mode opts) := by
  have hprint : r.print pretty fmt mode opts = text (r.pieces fmt mode opts) := by
    rw [print, hjson, if_neg Bool.false_ne_true]
  rw [hprint]
  cases mode with
  | udp =>
      apply reads_around [.word "\nUDP: "] [] (fun _ h => h) (by rfl) rfl
      simp [List.filterMap_cons, Piece.value, orZero, rounded_natCast]
  | file =>
      apply reads_around [.word "\nFile transfer: "] [] (fun _ h => h) _ rfl
      · simp [List.filterMap_cons, Piece.value, rounded_natCast]
      · cases opts.nullSource <;> rfl
  | tcp =>
      apply reads_around [.word "\nTCP throughput: "] [] (fun _ h => h) (by rfl) rfl
      simp [List.filterMap_cons, Piece.value, rounded_natCast]

/-- Every line printed about a rate reads back: the live lines of `run_sampler`, of
    `sample_until_done` and of `udp::serve`, the send-side lines of `udp::drive` and of
    `file::drive`, the result for people, and the target rate in the banner.  The numbers
    in its text are the values, the counts as they are and the others rounded to the
    decimals shown; those the printing computes were rounded to a double before.  A
    transfer that is over is shown at 100 percent, and a rate within half of its last
    digit and that rounding. -/
theorem lines_read_back (fmt : Format) :
    (∀ (t0 warmup now cur : ℕ) (l : SampleLoop),
      let x := l.line t0 warmup now cur
      ReadsBack (text (x.pieces fmt))
        [rounded 1 (secsShown (asSecsF64 x.elapsed)), fmt.figure x.bps]) ∧
    (∀ (t0 now cur : ℕ) (l : SampleLoop),
      let x := l.plainLine t0 now cur
      ReadsBack (text (x.pieces fmt))
        [rounded 1 (secsShown (asSecsF64 x.elapsed)), fmt.figure x.bps]) ∧
    (∀ (neg : Negotiate) (now : ℕ) (l : Udp.Loop),
      let x := l.line neg now
      ReadsBack (text (x.pieces fmt))
        [rounded 1 (secsShown (asSecsF64 x.elapsed)), fmt.figure x.bps, x.lost,
          rounded 3 x.jitterMs]) ∧
    (∀ (neg : Negotiate) (quiet : Bool) (elapsed seq : ℕ) (r : Udp.Readout) (x : Udp.Line),
      (r.emit neg quiet elapsed seq).2 = some x →
      ReadsBack (text (x.pieces fmt))
        [rounded 1 (secsShown x.secs), fmt.figure x.bps, x.intervalPackets]) ∧
    (∀ x : File.Line, ReadsBack (text (x.pieces fmt))
      [rounded 1 (secsShown x.secs), fmt.figure x.bps, rounded 0 x.percentShown, x.sent.toNat,
        x.total.toNat]) ∧
    (∀ x : File.Line, x.sent = x.total → rounded 0 x.percentShown = 100) ∧
    (∀ (pretty : TestResult → String) (mode : Mode) (opts : ClientOpts) (r : TestResult),
      opts.json = false → ReadsBack (r.print pretty fmt mode opts) (r.figures fmt mode opts)) ∧
    (∀ opts : ClientOpts, ReadsBack (text (opts.bitratePieces fmt))
      [fmt.figure (binary64 (orZero opts.bitrate))]) ∧
    ∀ bps : ℚ, 0 ≤ bps → |fmt.figure bps * fmt.unit - bps| ≤
      fmt.unit / (2 * 10 ^ fmt.decimals) + bps / 2 ^ 53 + fmt.unit * 2 ^ (-1075 : ℤ) := by
  refine ⟨fun t0 warmup now cur l => ?_, fun t0 now cur l => ?_, fun neg now l => ?_,
    fun neg quiet elapsed seq r x hx => ?_, fun x => x.reads fmt, fun x hx => ?_,
    fun pretty mode opts r hjson => r.reads_print pretty hjson fmt mode,
    fun opts => opts.reads_bitrate fmt, fun bps h => fmt.abs_figure_sub_le h⟩
  · intro x
    have htag : TagReadable x.tag := readable_warmupTag warmup (now - t0)
    exact x.reads htag fmt
  · intro x
    exact x.reads rfl fmt
  · intro x
    have htag : TagReadable x.tag := readable_warmupTag (fromSecs neg.warmupSecs) (now - l.t0)
    exact x.reads htag fmt
  · have htag : TagReadable x.tag := by
      rw [Udp.Readout.tag_emit hx]
      exact readable_warmupTag _ _
    exact x.reads htag fmt
  · rw [x.percentShown_of_all hx]
    exact_mod_cast rounded_natCast 0 100

/-- 625 bytes in a second. -/
def fiveKilobits : TestResult where
  role := .receive
  bytes := 625
  durationSecs := 1
  bitsPerSec := 5000
  bytesPerSec := 625
  packetsExpected := none
  packetsReceived := none
  packetsLost := none
  lossRatio := none
  jitterMs := none
  samples := []

/-- The double nearest to 0.005 is above it, and shown as 0.01. -/
theorem figure_fiveKilobits : Format.mbps.figure 5000 = 1 / 100 := by
  have hplace : lastPlace (5000 / 10 ^ 6) = -60 := by
    apply lastPlace_eq <;> norm_num
  have hdouble : binary64 (5000 / 10 ^ 6) = 5764607523034235 / 2 ^ 60 := by
    have hround : roundEven (5000 / 10 ^ 6 / 2 ^ (-60 : ℤ)) = 5764607523034235 := by
      apply roundEven_eq_of_abs_lt <;> norm_num [abs_lt]
    rw [binary64, hplace, hround]
    norm_num
  have hround : roundEven (5764607523034235 / 2 ^ 60 * 10 ^ 2) = 1 := by
    apply roundEven_eq_of_abs_lt <;> norm_num [abs_lt]
  show rounded 2 (binary64 (5000 / 10 ^ 6)) = 1 / 100
  rw [hdouble, rounded, hround]
  norm_num

theorem lines_read_back_fiveKilobits :
    ReadsBack (fiveKilobits.print (fun _ => "") .mbps .tcp ⟨some .tcp, 1, 1, false, none, 0, false,
      false⟩) [1 / 100, 1, 1] := by
  have hreads := (lines_read_back .mbps).2.2.2.2.2.2.1 (fun _ => "") .tcp
    ⟨some .tcp, 1, 1, false, none, 0, false, false⟩ fiveKilobits rfl
  have hsecs : rounded 1 fiveKilobits.durationSecs = 1 := by
    exact_mod_cast rounded_natCast 1 1
  rw [TestResult.figures, hsecs, show fiveKilobits.bitsPerSec = 5000 from rfl,
    figure_fiveKilobits] at hreads
  exact hreads

end Andri

/-
  Andri.Session.Reports

  A Result read on its own.  Whatever the peer did, its rates are those of its
  bytes and its duration, its samples are true interval rates one after the
  other, its UDP fields are there exactly in UDP mode and agree with each
  other.  In TCP mode the series covers the negotiated window, however early
  Stop came: the server joins the sampler before it reports.
-/
import Andri.Lib.Rates
import Andri.Session.Backed
import Andri.Session.Samples
import Mathlib.Algebra.Order.Field.Basic

namespace Andri

open Lib

/-- The rate of an amount over a duration; over none it is reported as zero. -/
structure IsRate (amount secs rate : ℚ) : Prop where
  nonneg : 0 ≤ secs
  none : secs = 0 → rate = 0
  mul : 0 < secs → rate * secs = amount

theorem asSecsF64_nonneg (ns : ℕ) : 0 ≤ asSecsF64 ns :=
  div_nonneg (Nat.cast_nonneg _) (Nat.cast_nonneg _)

theorem isRate_of_div {amount secs rate : ℚ} (hsecs : 0 ≤ secs) (h : rate = amount / secs) :
    IsRate amount secs rate where
  nonneg := hsecs
  none h0 := by rw [h, h0, div_zero]
  mul hpos := by rw [h, div_mul_cancel₀ _ hpos.ne']

theorem isRate_bitsPerSec (bytes : U64) {secs : ℚ} (h : 0 ≤ secs) :
    IsRate (bytes.toNat * 8) secs (bitsPerSec bytes secs) := by
  refine isRate_of_div h ?_
  unfold bitsPerSec
  split
  · next hle => rw [le_antisymm hle h, div_zero]
  · rfl

theorem isRate_of_guarded {amount secs : ℚ} (h : 0 ≤ secs) :
    IsRate amount secs (if secs > 0 then amount / secs else 0) := by
  refine isRate_of_div h ?_
  split
  · rfl
  · next hle => rw [le_antisymm (not_lt.mp hle) h, div_zero]

/-! ## Series -/

/-- The start of every series. -/
def Sample.start : Sample := ⟨0, 0, 0, none, none⟩

/-- A sample after another: its rate is that of its bytes over the time between. -/
def Sample.Follows (a b : Sample) : Prop :=
  IsRate (b.bytes.toNat * 8) (b.tSecs - a.tSecs) b.bitsPerSec

/-- A series of samples of one kind, from the start of the measurement. -/
structure TrueSeries (kind : Sample → Prop) (samples : List Sample) : Prop where
  chain : (Sample.start :: samples).IsChain Sample.Follows
  kinds : ∀ s ∈ samples, kind s

/-- A sampling loop started at `t0` that last read the clock at `lastT`. -/
structure Timed (kind : Sample → Prop) (t0 clock lastT : ℕ) (samples : List Sample) : Prop where
  start : t0 ≤ lastT
  clock : lastT ≤ clock
  last : (samples.getLastD .start).tSecs = asSecsF64 (lastT - t0)
  series : TrueSeries kind samples

variable {kind : Sample → Prop}

theorem Timed.init (kind : Sample → Prop) {t0 clock : ℕ} (h : t0 ≤ clock) :
    Timed kind t0 clock t0 [] where
  start := le_rfl
  clock := h
  last := by
    rw [Nat.sub_self]
    exact (zero_div _).symm
  series := ⟨List.isChain_singleton _, fun s hs => by cases hs⟩

theorem Timed.later {t0 clock clock' lastT : ℕ} {samples : List Sample}
    (h : Timed kind t0 clock lastT samples) (hle : clock ≤ clock') :
    Timed kind t0 clock' lastT samples :=
  ⟨h.start, h.clock.trans hle, h.last, h.series⟩

/-- A reading at `now` that takes its rate from the last one goes on the series. -/
theorem Timed.snoc {t0 clock now lastT : ℕ} {samples : List Sample} {s : Sample}
    (h : Timed kind t0 clock lastT samples) (hnow : clock ≤ now) (hkind : kind s)
    (ht : s.tSecs = asSecsF64 (now - t0))
    (hrate : IsRate (s.bytes.toNat * 8) (asSecsF64 (now - lastT)) s.bitsPerSec) :
    Timed kind t0 now now (samples ++ [s]) where
  start := (h.start.trans h.clock).trans hnow
  clock := le_rfl
  last := by rw [List.getLastD_concat, ht]
  series := by
    constructor
    · rw [isChain_cons_append_singleton]
      refine ⟨h.series.chain, ?_⟩
      -- the interval is the time since the last reading
      have hinterval : s.tSecs - (samples.getLastD .start).tSecs = asSecsF64 (now - lastT) := by
        have hstart := h.start
        have hclock := h.clock
        rw [ht, h.last, asSecsF64, asSecsF64, asSecsF64, ← sub_div, ← Nat.cast_sub (by omega)]
        congr 2
        omega
      rw [Sample.Follows, hinterval]
      exact hrate
    · intro x hx
      rcases List.mem_append.mp hx with hold | hnew
      · exact h.series.kinds x hold
      · rw [List.mem_singleton.mp hnew]
        exact hkind

theorem Timed.record {t0 clock now : ℕ} {l : SampleLoop}
    (h : Timed Sample.Plain t0 clock l.lastT l.samples) (hnow : clock ≤ now) (cur : ℕ) :
    Timed Sample.Plain t0 now (l.record t0 now cur).lastT (l.record t0 now cur).samples :=
  h.snoc hnow ⟨rfl, rfl⟩ rfl (isRate_bitsPerSec _ (asSecsF64_nonneg _))

/-! ## What is reported -/

/-- The fields a UDP Result adds, and what they say of each other. -/
def TestResult.Lossy (r : TestResult) : Prop :=
  ∃ (expected received lost : U64) (ratio jitter : ℚ),
    r.packetsExpected = some expected ∧ r.packetsReceived = some received ∧
    r.packetsLost = some lost ∧ r.lossRatio = some ratio ∧ r.jitterMs = some jitter ∧
    lost.toNat ≤ expected.toNat ∧ 0 ≤ ratio ∧ ratio ≤ 1 ∧
    ratio * expected.toNat = lost.toNat

/-- A UDP sample carries its loss and its jitter. -/
def Sample.Lossy (s : Sample) : Prop := s.packetsLost.isSome ∧ s.jitterMs.isSome

/-- The samples of a mode. -/
def Sample.OfMode (m : Mode) (s : Sample) : Prop :=
  match m with
  | .udp => s.Lossy
  | .tcp | .file => s.Plain

/-- A Result that can be taken at its word. -/
structure TestResult.Sound (m : Mode) (r : TestResult) : Prop where
  role : r.role = .receive
  bits : IsRate (r.bytes.toNat * 8) r.durationSecs r.bitsPerSec
  bytes : IsRate r.bytes.toNat r.durationSecs r.bytesPerSec
  series : TrueSeries (Sample.OfMode m) r.samples
  plain : m ≠ .udp → r.Plain
  lossy : m = .udp → r.Lossy

/-- The samples of a window: all of them inside it. -/
def Inside (window : ℕ) (samples : List Sample) : Prop :=
  ∀ s ∈ samples, s.tSecs < asSecsF64 window

/-- A series over a whole window: one sample at its end or past it, the others inside. -/
def Covers (window : ℕ) (samples : List Sample) : Prop :=
  ∃ init s, samples = init ++ [s] ∧ asSecsF64 window ≤ s.tSecs ∧ Inside window init

theorem asSecsF64_le_iff {a b : ℕ} : asSecsF64 a ≤ asSecsF64 b ↔ a ≤ b := by
  unfold asSecsF64
  rw [div_le_div_iff_of_pos_right (Nat.cast_pos.mpr SECOND_pos)]
  exact Nat.cast_le

theorem asSecsF64_lt_iff {a b : ℕ} : asSecsF64 a < asSecsF64 b ↔ a < b := by
  rw [← not_le, asSecsF64_le_iff, not_le]

/-! ### TCP -/

/-- The series of `run_sampler`. -/
def Sampler.Reported (t0 window clock : ℕ) : Sampler → Prop
  | .spawned | .baseline _ _ _ => True
  | .waiting l => Timed Sample.Plain t0 clock l.lastT l.samples ∧ Inside window l.samples
  | .reading l now _ _ =>
      Timed Sample.Plain t0 now l.lastT l.samples ∧ now ≤ clock ∧ Inside window l.samples
  | .returned samples =>
      TrueSeries Sample.Plain samples ∧ Covers window samples ∧ t0 + window ≤ clock

theorem Sampler.Reported.later {t0 window clock clock' : ℕ} {s : Sampler}
    (h : s.Reported t0 window clock) (hle : clock ≤ clock') : s.Reported t0 window clock' := by
  cases s with
  | spawned | baseline => trivial
  | waiting l => exact ⟨h.1.later hle, h.2⟩
  | reading l now k sum => exact ⟨h.1, h.2.1.trans hle, h.2.2⟩
  | returned samples => exact ⟨h.1, h.2.1, h.2.2.trans hle⟩

theorem Sampler.Step.reported {t0 window clock clock' : ℕ} {counters : List ℕ} {s s' : Sampler}
    (h : Step t0 window counters clock s clock' s') (hclock : t0 ≤ clock)
    (hs : s.Reported t0 window clock) : s'.Reported t0 window clock' := by
  cases h with
  | poll | baselineLoad => trivial
  | baselineDone => exact ⟨.init _ hclock, fun s hs => by cases hs⟩
  | @tick _ l hnow hdue => exact ⟨hs.1.later hnow, le_rfl, hs.2⟩
  | load => exact hs
  | @record now k sum l hk =>
      obtain ⟨htimed, hnow, hinside⟩ := hs
      have hrecord := htimed.record (le_refl now) sum
      split
      -- the tick past the window is the last
      · next hpast =>
          refine ⟨hrecord.series, ⟨l.samples, _, rfl, ?_, hinside⟩, ?_⟩
          · exact asSecsF64_le_iff.mpr hpast
          · have hstart := htimed.start
            have hlast := htimed.clock
            omega
      · next hopen =>
          refine ⟨hrecord.later hnow, fun x hx => ?_⟩
          rcases List.mem_append.mp hx with hold | hnew
          · exact hinside x hold
          · rw [List.mem_singleton.mp hnew]
            exact asSecsF64_lt_iff.mpr (not_le.mp hopen)

/-- The series the main task has joined. -/
def Tcp.Main.Reported (t0 window clock : ℕ) : Tcp.Main → Prop
  | .joiningWarmup _ _ samples =>
      TrueSeries Sample.Plain samples ∧ Covers window samples ∧ t0 + window ≤ clock
  | _ => True

/-- The measurement of a test that runs. -/
def Tcp.Tasks.Reported (neg : Negotiate) (clock : ℕ) (t : Tcp.Tasks) : Prop :=
  t.t0 ≤ clock ∧ t.sampler.Reported t.t0 (window neg) clock ∧
    t.main.Reported t.t0 (window neg) clock

/-- The series and the Result of `tcp::serve`, whose measurement starts at `since` or later. -/
def Tcp.Serve.Reported (since : ℕ) (neg : Negotiate) (clock : ℕ) : Tcp.Serve → Prop
  | .accepting _ => since ≤ clock
  | .measuring t => since ≤ t.t0 ∧ t.Reported neg clock
  | .returned r => r.Sound .tcp ∧ Covers (window neg) r.samples ∧ since + window neg ≤ clock

theorem Tcp.Main.Reported.later {t0 window clock clock' : ℕ} {m : Tcp.Main}
    (h : m.Reported t0 window clock) (hle : clock ≤ clock') : m.Reported t0 window clock' := by
  cases m with
  | joiningWarmup bytes at_ samples => exact ⟨h.1, h.2.1, h.2.2.trans hle⟩
  | awaitingStop | reading | joiningSampler => trivial

theorem Tcp.Tasks.Reported.later {neg : Negotiate} {clock clock' : ℕ} {t : Tcp.Tasks}
    (h : t.Reported neg clock) (hle : clock ≤ clock') : t.Reported neg clock' :=
  ⟨h.1.trans hle, h.2.1.later hle, h.2.2.later hle⟩

theorem Tcp.Serve.Reported.later {since : ℕ} {neg : Negotiate} {clock clock' : ℕ} {s : Tcp.Serve}
    (h : s.Reported since neg clock) (hle : clock ≤ clock') : s.Reported since neg clock' := by
  cases s with
  | accepting => exact Nat.le_trans h hle
  | measuring t => exact ⟨h.1, h.2.later hle⟩
  | returned r => exact ⟨h.1, h.2.1, h.2.2.trans hle⟩

/-- A TCP Result over a true series is sound. -/
theorem Tcp.sound_result (finalBytes finalAt warmupBytes warmupAt : ℕ) {samples : List Sample}
    (h : TrueSeries Sample.Plain samples) :
    (Tcp.result finalBytes finalAt warmupBytes warmupAt samples).Sound .tcp where
  role := rfl
  bits := isRate_bitsPerSec _ (asSecsF64_nonneg _)
  bytes := isRate_of_guarded (asSecsF64_nonneg _)
  series := h
  plain _ := ⟨rfl, rfl, rfl, rfl, rfl, h.kinds⟩
  lossy hm := by cases hm

theorem Tcp.Step.reported {since : ℕ} {neg : Negotiate} {net net' : Net} {s s' : Tcp.Serve}
    (h : Tcp.Step neg net s net' s') (hs : s.Reported since neg net.clock) :
    s'.Reported since neg net'.clock := by
  have hclock := h.clock_le
  cases h with
  | accept => exact hs
  | spawn hk hnow => exact ⟨Nat.le_trans hs hnow, le_rfl, trivial, trivial⟩
  | recv => exact hs
  | sampler h =>
      obtain ⟨hsince, ht, hsampler, hmain⟩ := hs
      exact ⟨hsince, ht.trans hclock, h.reported ht hsampler, hmain.later hclock⟩
  | warmup => exact ⟨hs.1, hs.2.later hclock⟩
  | finalLoad => exact ⟨hs.1, hs.2.1, hs.2.2.1, trivial⟩
  | finalDone => exact ⟨hs.1, hs.2.1.trans hclock, hs.2.2.1.later hclock, trivial⟩
  | joinSampler hmain hret =>
      obtain ⟨hsince, ht, hsampler, -⟩ := hs
      refine ⟨hsince, ht, hsampler, ?_⟩
      rw [hret] at hsampler
      exact hsampler
  | joinWarmup hmain hw =>
      obtain ⟨hsince, -, -, hjoined⟩ := hs
      rw [hmain] at hjoined
      obtain ⟨hseries, hcovers, hpast⟩ := hjoined
      exact ⟨Tcp.sound_result _ _ _ _ hseries, hcovers, (Nat.add_le_add_right hsince _).trans hpast⟩

/-! ### File -/

/-- The series of `sample_until_done`. -/
def File.Sampler.Reported (t0 clock : ℕ) : File.Sampler → Prop
  | .spawned => True
  | .waiting l => Timed Sample.Plain t0 clock l.lastT l.samples
  | .returned samples => TrueSeries Sample.Plain samples

theorem File.Sampler.Reported.later {t0 clock clock' : ℕ} {s : File.Sampler}
    (h : s.Reported t0 clock) (hle : clock ≤ clock') : s.Reported t0 clock' := by
  cases s with
  | spawned => trivial
  | waiting l => exact Timed.later h hle
  | returned samples => exact h

theorem File.Sampler.Step.reported {t0 len counter clock clock' : ℕ} {s s' : File.Sampler}
    (h : Step t0 len counter clock s clock' s') (hclock : t0 ≤ clock) (hs : s.Reported t0 clock) :
    clock ≤ clock' ∧ s'.Reported t0 clock' := by
  cases h with
  | poll hnow => exact ⟨hnow, .init _ (hclock.trans hnow)⟩
  | @tick _ l hnow hdue =>
      have htimed : Timed Sample.Plain t0 clock l.lastT l.samples := hs
      have hrecord := Timed.record (l := { l with next := l.next + SECOND }) htimed hnow counter
      refine ⟨hnow, ?_⟩
      dsimp only
      split
      · exact hrecord.series
      · exact hrecord

/-- The series and the Result of `file::serve`. -/
def File.Serve.Reported (clock : ℕ) : File.Serve → Prop
  | .accepting => True
  | .receiving t => t.t0 ≤ clock ∧ t.sampler.Reported t.t0 clock
  | .joining t secs => t.t0 ≤ clock ∧ t.sampler.Reported t.t0 clock ∧ 0 ≤ secs
  | .returned r => r.Sound .file

theorem File.Serve.Reported.later {clock clock' : ℕ} {s : File.Serve} (h : s.Reported clock)
    (hle : clock ≤ clock') : s.Reported clock' := by
  cases s with
  | accepting => trivial
  | receiving t => exact ⟨h.1.trans hle, h.2.later hle⟩
  | joining t secs => exact ⟨h.1.trans hle, h.2.1.later hle, h.2.2⟩
  | returned r => exact h

theorem File.Step.reported {neg : Negotiate} {net net' : Net} {s s' : File.Serve}
    (h : File.Step neg net s net' s') (hs : s.Reported net.clock) : s'.Reported net'.clock := by
  cases h with
  | accept => exact ⟨le_rfl, trivial⟩
  | read => exact hs
  | eof _ _ _ _ hnow | done _ hnow =>
      exact ⟨hs.1.trans hnow, hs.2.later hnow, asSecsF64_nonneg _⟩
  | samplerReceiving h =>
      obtain ⟨hle, hsampler⟩ := h.reported hs.1 hs.2
      exact ⟨hs.1.trans hle, hsampler⟩
  | samplerJoining h =>
      obtain ⟨hle, hsampler⟩ := h.reported hs.1 hs.2.1
      exact ⟨hs.1.trans hle, hsampler, hs.2.2⟩
  | @join t secs samples hret =>
      obtain ⟨-, hsampler, hsecs⟩ := hs
      rw [hret] at hsampler
      have hseries : TrueSeries Sample.Plain samples := hsampler
      exact
        { role := rfl
          bits := isRate_bitsPerSec _ hsecs
          bytes := isRate_of_guarded hsecs
          series := hseries
          plain := fun _ => ⟨rfl, rfl, rfl, rfl, rfl, hseries.kinds⟩
          lossy := fun hm => by cases hm }

/-! ### UDP -/

/-- The series and the Result of `udp::serve`. -/
def Udp.Serve.Reported (clock : ℕ) : Udp.Serve → Prop
  | .starting => True
  | .selecting l => Timed Sample.Lossy l.t0 clock l.lastT l.samples
  | .stopped l => TrueSeries Sample.Lossy l.samples
  | .returned r => r.Sound .udp

/-- The fields of a UDP Result agree with each other. -/
theorem Udp.LossJitter.intoResult_lossy (acc : Udp.LossJitter) (secs : ℚ) :
    (acc.intoResult secs).Lossy := by
  have hle : acc.lost ≤ acc.expected.toNat := Nat.sub_le _ _
  have hword : (BitVec.ofNat 64 acc.lost).toNat = acc.lost := by
    rw [BitVec.toNat_ofNat, Nat.mod_eq_of_lt acc.lost_lt]
  refine ⟨_, _, _, _, _, rfl, rfl, rfl, rfl, rfl, by rw [hword]; exact hle, ?_⟩
  rw [hword]
  split
  · next hpos =>
      have hpos' : 0 < acc.expected.toNat := hpos
      have hcast : (0 : ℚ) < acc.expected.toNat := Nat.cast_pos.mpr hpos'
      refine ⟨div_nonneg (Nat.cast_nonneg _) hcast.le, ?_, div_mul_cancel₀ _ hcast.ne'⟩
      rw [div_le_one hcast]
      exact Nat.cast_le.mpr hle
  -- nothing expected, nothing lost
  · next hzero =>
      have hzero' : acc.expected.toNat = 0 := Nat.eq_zero_of_not_pos hzero
      have hlost : acc.lost = 0 := by omega
      simp [hzero', hlost]

theorem Udp.Loop.sound_result {l : Udp.Loop} (h : TrueSeries Sample.Lossy l.samples) (now : ℕ) :
    (l.result now).Sound .udp := by
  have hsecs : 0 ≤ (l.result now).durationSecs := by
    cases hm : l.measureStart with
    | none => simp [Udp.Loop.result, Udp.LossJitter.intoResult, hm]
    | some s =>
        have h := asSecsF64_nonneg (now - s)
        simpa [Udp.Loop.result, Udp.LossJitter.intoResult, hm] using h
  obtain ⟨e, v, k, q, j, hlossy⟩ :=
    Udp.LossJitter.intoResult_lossy l.acc (l.result now).durationSecs
  exact
    { role := rfl
      bits := isRate_of_guarded hsecs
      bytes := isRate_of_guarded hsecs
      series := h
      plain := fun hm => absurd rfl hm
      lossy := fun _ => ⟨e, v, k, q, j, hlossy⟩ }

theorem Udp.Step.reported {neg : Negotiate} {net net' : Net} {s s' : Udp.Serve}
    (h : Udp.Step neg net s net' s') (hs : s.Reported net.clock) : s'.Reported net'.clock := by
  cases h with
  | start hnow hle => exact .init _ hle
  | @tick l now hnow hdue =>
      have htimed : Timed Sample.Lossy l.t0 net.clock l.lastT l.samples := hs
      exact htimed.snoc hnow ⟨rfl, rfl⟩ rfl (isRate_of_guarded (asSecsF64_nonneg _))
  | @recv l now started buf rest hbuf hnow hle =>
      have hlater := Timed.later hs (hnow.trans hle)
      unfold Udp.Loop.receive
      split <;> exact hlater
  | @finish l now hnow => exact Udp.Loop.sound_result hs now

/-! ## Every Result -/

/-- The series of a data path, and its Result. -/
def DataPath.Reported (since : ℕ) (neg : Negotiate) (net : Net) : DataPath → Prop
  | .tcp s => s.Reported since neg net.clock
  | .udp s => s.Reported net.clock
  | .file s => s.Reported net.clock

/-- A Result as a client can rely on it: sound, and in TCP mode over the whole window,
    `since` when there was no measurement. -/
structure Reliable (since : ℕ) (neg : Negotiate) (net : Net) (r : TestResult) : Prop where
  sound : r.Sound neg.mode
  window : neg.mode = .tcp →
    Covers (Tcp.window neg) r.samples ∧ since + Tcp.window neg ≤ net.clock

theorem carries_reported (since : ℕ) :
    Carries since (DataPath.Reported since) (Reliable since) where
  entry {n net} _ hsince := by
    cases hm : n.mode with
    | tcp => exact hsince
    | udp | file => trivial
  step hplaced hs h := by
    cases h with
    | tcp h => exact h.reported hs
    | udp h => exact h.reported hs
    | file h => exact h.reported hs
  stop {n net path path'} hs h := by
    cases h with
    | @tcp s s' hstop =>
        cases s with
        | measuring t =>
            simp only [Tcp.Serve.onStop] at hstop
            split at hstop <;> cases hstop
            exact ⟨hs.1, hs.2.1, hs.2.2.1, trivial⟩
        | accepting | returned => cases hstop
    | @udp s s' hstop =>
        cases s with
        | selecting l =>
            cases hstop
            exact Timed.series hs
        | starting | stopped | returned => cases hstop
  peer {n path w w'} h hplaced hs := by
    cases path with
    | tcp s => exact Tcp.Serve.Reported.later hs h.clock_le
    | udp s =>
        cases s with
        | selecting l => exact Timed.later hs h.clock_le
        | starting | stopped | returned => exact hs
    | file s => exact File.Serve.Reported.later hs h.clock_le
  returned {n net path r} hmode hplaced hs hr := by
    cases path with
    | tcp s =>
        cases s with
        | returned r' =>
            cases hr
            exact ⟨hmode ▸ hs.1, fun _ => hs.2⟩
        | accepting | measuring => cases hr
    | udp s =>
        cases s with
        | returned r' =>
            cases hr
            exact ⟨hmode ▸ hs, fun hm => by rw [hm] at hmode; cases hmode⟩
        | starting | selecting | stopped => cases hr
    | file s =>
        cases s with
        | returned r' =>
            cases hr
            exact ⟨hmode ▸ hs, fun hm => by rw [hm] at hmode; cases hmode⟩
        | accepting | receiving | joining => cases hr
  kept h hs := ⟨hs.sound, fun hm => ⟨(hs.window hm).1, (hs.window hm).2.trans h.clock_le⟩⟩

theorem World.Requested.eq {w : World} {m n : Negotiate} (hm : w.Requested m)
    (hn : w.Requested n) : m = n := by
  unfold Requested at hm hn
  rw [hm] at hn
  cases hn
  rfl

/-- Every Result is sound, whatever the peer did: it describes what was received; its rates
    times its duration are its bytes, and zero if it had none; its samples are rates of
    consecutive intervals in the same sense; it has no UDP fields outside UDP mode, and in
    UDP mode all of them, with no more lost than expected and their ratio between 0 and 1. -/
theorem result_sound {w : World} (h : SessionReachable w) {r : TestResult}
    (hr : .result r ∈ w.ctrl.written) : ∃ n, w.Requested n ∧ r.Sound n.mode := by
  obtain ⟨n, hn, hreliable⟩ := (carries_reported 0).result h hr
  exact ⟨n, hn, hreliable.sound⟩

/-- A session whose measurement starts at `since` or later, and whose clock has got there. -/
structure World.MeasuresSince (since : ℕ) (w : World) : Prop where
  clock : since ≤ w.net.clock
  started : ∀ n t, w.session.phase = .running n (.tcp (.measuring t)) → since ≤ t.t0
  unreported : ∀ n r, w.session.phase ≠ .running n (.tcp (.returned r))
  noResult : ∀ r, ¬ w.HasResult r

/-- Such a session has nothing to report before `since` plus its window. -/
theorem World.MeasuresSince.carried {since : ℕ} {w : World} (hw : w.MeasuresSince since)
    (h : SessionReachable w) : Carried (DataPath.Reported since) (Reliable since) w := by
  have hcarried := (carries_reported 0).carried h
  refine ⟨fun n path hrun => ?_, fun r hr => absurd hr (hw.noResult r)⟩
  have hpath := hcarried.running n path hrun
  cases path with
  | tcp s =>
      cases s with
      | accepting => exact hw.clock
      | measuring t => exact ⟨hw.started n t hrun, hpath.2⟩
      | returned r => exact absurd hrun (hw.unreported n r)
  | udp | file => exact hpath

theorem World.MeasuresSince.of_measuring {w : World} {n : Negotiate} {t : Tcp.Tasks}
    (h : SessionReachable w) (hp : w.session.phase = .running n (.tcp (.measuring t))) :
    w.MeasuresSince t.t0 where
  clock := (((carries_reported 0).carried h).running n _ hp).2.1
  started m u hm := by
    rw [hp] at hm
    cases hm
    exact le_rfl
  unreported m r hm := by
    rw [hp] at hm
    cases hm
  noResult := h.sound.not_hasResult hp

theorem World.MeasuresSince.of_accepting {w : World} {n : Negotiate} {k : ℕ}
    (h : SessionReachable w) (hp : w.session.phase = .running n (.tcp (.accepting k))) :
    w.MeasuresSince w.net.clock where
  clock := le_rfl
  started m u hm := by
    rw [hp] at hm
    cases hm
  unreported m r hm := by
    rw [hp] at hm
    cases hm
  noResult := h.sound.not_hasResult hp

/-- A TCP Result comes with a series over the whole window negotiated, one sample at its end
    or past it and the others inside: a Stop that comes early does not shorten the series.
    And it is not there before the window is over, counted from the start of the
    measurement, or from any time the server was still accepting connections. -/
theorem tcp_result_covers {u w : World} (h : SessionReachable u) (hrun : Run Step u w)
    {r : TestResult} (hr : .result r ∈ w.ctrl.written) {n : Negotiate} (hn : w.Requested n)
    (hm : n.mode = .tcp) :
    (∃ init s, r.samples = init ++ [s] ∧ asSecsF64 (Tcp.window n) ≤ s.tSecs ∧
      ∀ x ∈ init, x.tSecs < asSecsF64 (Tcp.window n)) ∧
    (∀ m t, u.session.phase = .running m (.tcp (.measuring t)) →
      t.t0 + Tcp.window n ≤ w.net.clock) ∧
    (∀ m k, u.session.phase = .running m (.tcp (.accepting k)) →
      u.net.clock + Tcp.window n ≤ w.net.clock) := by
  have hsince : ∀ since, u.MeasuresSince since → since + Tcp.window n ≤ w.net.clock := by
    intro since hu
    have hcarried := (hu.carried h).run (carries_reported since) h hu.clock hrun
    obtain ⟨m, hreq, hreliable⟩ := hcarried.result r (.inr (.inr hr))
    obtain rfl := hn.eq hreq
    exact (hreliable.window hm).2
  obtain ⟨m, hreq, hreliable⟩ := (carries_reported 0).result (h.run hrun) hr
  obtain rfl := hn.eq hreq
  exact ⟨(hreliable.window hm).1, fun m t hp => hsince _ (.of_measuring h hp),
    fun m k hp => hsince _ (.of_accepting h hp)⟩

theorem result_sound_threeByteFile :
    ∃ (w : World) (r : TestResult), .result r ∈ w.ctrl.written ∧ r.Sound .file := by
  obtain ⟨w, r, hw, hr, hreq⟩ := threeByteFile_reported
  obtain ⟨n, hn, hsound⟩ := result_sound hw hr
  unfold World.Requested at hreq hn
  rw [hreq] at hn
  cases hn
  exact ⟨w, r, hr, hsound⟩

/-- A TCP test of one stream and one second, without warm-up. -/
def oneSecond : Negotiate := { twoStreams with durationSecs := 1, warmupSecs := 0, parallel := 1 }

/-- Its session a second in, as the measurement starts; Stop was sent before. -/
def oneSecondStarted : World where
  session := ⟨.running oneSecond (.tcp (.measuring (.spawn SECOND 1))), some 5000, none⟩
  ctrl := { (World.entered currentHello oneSecond 5000).ctrl with inbox := [.ok .stop] }
  net := { World.init.net with clock := SECOND, conns := [.fresh], accepted := 1 }

theorem oneSecondStarted_reachable : SessionReachable oneSecondStarted := by
  have hentered : SessionReachable (World.entered currentHello oneSecond 5000) :=
    entered_reachable currentHello rfl oneSecond 5000
  have h := hentered.peer (.send (.ok .stop) rfl)
  have h := h.peer (.connect rfl)
  have h := h.server (.data rfl (.tcp (.accept (by decide) (by decide))))
  exact h.server (.data rfl (.tcp (.spawn rfl (Nat.zero_le SECOND))))

/-- It goes on to a Result. -/
theorem oneSecondStarted_reported :
    ∃ w r, Run Step oneSecondStarted w ∧ .result r ∈ w.ctrl.written ∧ w.Requested oneSecond := by
  have h : Run ServerStep oneSecondStarted oneSecondStarted := .refl
  -- Stop is read at once, and the final snapshot taken
  have h := h.tail (.read rfl rfl)
  have h := h.tail (.data rfl (.tcp (.finalLoad rfl rfl)))
  have h := h.tail (.data rfl (.tcp (.finalDone rfl rfl (Nat.le_refl SECOND))))
  have h := h.tail (.data rfl (.tcp (.warmup (.poll (Nat.le_refl SECOND)))))
  have h := h.tail (.data rfl (.tcp (.warmup (.wake (Nat.le_refl SECOND) (Nat.le_refl SECOND)))))
  have h := h.tail (.data rfl (.tcp (.warmup (.load rfl))))
  have h := h.tail (.data rfl (.tcp (.warmup (.done (Nat.le_refl SECOND) rfl))))
  -- but the sampler is joined only past the window
  have hpast : Tcp.window oneSecond ≤ 2 * SECOND - SECOND := by decide
  have h := h.tail (.data rfl (.tcp (.sampler (.poll (Nat.le_refl SECOND)))))
  have h := h.tail (.data rfl (.tcp (.sampler (.baselineLoad rfl))))
  have h := h.tail (.data rfl (.tcp (.sampler (.baselineDone rfl))))
  have htwo : SECOND ≤ 2 * SECOND := by decide
  have h := h.tail (.data rfl (.tcp (.sampler (.tick htwo (Nat.two_mul SECOND).ge))))
  have h := h.tail (.data rfl (.tcp (.sampler (.load rfl))))
  have h := h.tail (.data rfl (.tcp (.sampler (.record_past rfl hpast))))
  have h := h.tail (.data rfl (.tcp (.joinSampler rfl rfl)))
  have h := h.tail (.data rfl (.tcp (.joinWarmup rfl rfl)))
  have h := h.tail (.finish rfl rfl)
  have h := h.tail (.write rfl)
  exact ⟨_, _, Relation.ReflTransGen.mono (fun _ _ => .inl) _ _ h,
    List.mem_append_right _ List.mem_cons_self, rfl⟩

theorem tcp_result_covers_oneSecond :
    ∃ (w : World) (r : TestResult), .result r ∈ w.ctrl.written ∧
      SECOND + Tcp.window oneSecond ≤ w.net.clock := by
  obtain ⟨w, r, hrun, hr, hreq⟩ := oneSecondStarted_reported
  have hcovers := tcp_result_covers oneSecondStarted_reachable hrun hr hreq rfl
  exact ⟨w, r, hr, hcovers.2.1 _ _ rfl⟩

end Andri

/-
  Andri.Session.ResultSize

  Whether the Result of a session fits a frame.  A session in time reports one that
  does; a TCP test of fifteen minutes and more, on time, reports one that does
  not, and its measurement is lost.
-/
import Andri.Session.DataPlane
import Andri.Session.Handshake
import Andri.Session.OnTime

namespace Andri

open Lib Lib.Json

/-! ## Up to the data path -/

/-- The session is before its data path, or enters it for the request. -/
def World.Entering (neg : Negotiate) (w : World) : Prop :=
  w.session.phase.BeforeData ∨ w.session.phase = .running neg (.entry neg.mode)

/-- No step of a data path leads to its entry. -/
theorem DataStep.ne_entry {neg : Negotiate} {net net' : Net} {path path' : DataPath}
    (h : DataStep neg net path net' path') (m : Mode) : path' ≠ .entry m := by
  intro he
  cases m <;> cases h <;> cases he
  · next h => cases h
  · next h => cases h
  · next h => cases h

theorem OnRead.entering {s : Session} {x : Input} {q : Phase} {neg : Negotiate}
    (h : OnRead s x q) (hq : q.BeforeData ∨ q = .running neg (.entry neg.mode)) :
    s.phase.BeforeData := by
  cases h with
  | hello hs | negotiate hs | run hs =>
      rw [hs]
      trivial
  | unexpected | failed | drained =>
      rcases hq with hq | hq
      · exact hq.elim
      · cases hq
  | tcpStop hs | udpStop hs =>
      rcases hq with hq | hq
      · exact hq.elim
      · cases hm : neg.mode <;> rw [hm] at hq <;> cases hq

/-- A session that enters its data path has been on the way to it. -/
theorem Step.entering {neg : Negotiate} {w w' : World} (h : Step w w') (hw : w'.Entering neg) :
    w.Entering neg := by
  -- before its data path a session only reads, writes and binds
  rcases h with hserver | hfail | hpeer
  · cases hserver with
    | read htake hq => exact .inl ((Session.onRead_cases hq).entering hw)
    | @write m q hq =>
        left
        cases Phase.onWrite_cases hq with
        | welcome hs | turnedAway hs | start hs =>
            rw [hs]
            trivial
        | error | result =>
            rcases hw with hw | hw
            · exact hw.elim
            · cases hw
    | bind hp =>
        rw [World.Entering, hp]
        exact .inl trivial
    | data hp hdata =>
        rcases hw with hw | hw
        · exact hw.elim
        · cases hw
          exact absurd rfl (hdata.ne_entry _)
    | @finish n path r hp hr =>
        rcases hw with hw | hw
        · exact absurd hw (afterData_not_beforeData path r)
        · exact absurd hw (afterData_ne_running path r neg _)
  · cases hfail with
    | fail =>
        rcases hw with hw | hw
        · exact hw.elim
        · cases hw
  · rw [World.Entering, hpeer.frame.1] at hw
    exact hw

/-- The handshake is on time, as no sampler runs yet. -/
theorem entered_onTime (hello : Hello) (hv : accepts hello = true) (neg : Negotiate)
    (port : U16) : OnTimeReachable (World.entered hello neg port) := by
  refine Reachable.within (Q := World.Entering neg) (fun _ _ => Step.entering)
    (fun w w' _ hstep hw' => ⟨hstep, fun n t hp => ?_⟩) (entered_reachable hello hv neg port)
    (.inr rfl)
  rcases hw' with hb | he
  · rw [hp] at hb
    exact hb.elim
  · rw [hp] at he
    cases hm : neg.mode <;> rw [hm] at he <;> cases he

/-- The handshake for a request of a mode without window is in time. -/
theorem entered_inTime (hello : Hello) (hv : accepts hello = true) (neg : Negotiate)
    (port : U16) (hmode : neg.mode ≠ .tcp) : InTimeReachable (World.entered hello neg port) := by
  refine Reachable.within (Q := World.Entering neg) (fun _ _ => Step.entering)
    (fun w w' hw hstep _ => ⟨fun n path hp => ?_, hstep⟩) (entered_reachable hello hv neg port)
    (.inr rfl)
  rcases hw with hb | he
  · rw [hp] at hb
    exact hb.elim
  · rw [hp] at he
    cases hm : neg.mode <;> rw [hm] at he <;> cases he
    · exact absurd hm hmode
    · trivial
    · trivial

/-! ## An hour of TCP -/

/-- A test of one stream and an hour, the longest documented. -/
def hourLong : Negotiate where
  mode := .tcp
  durationSecs := 3600
  warmupSecs := 1
  parallel := 1
  bufferBytes := 65536
  bidir := false
  bitrateBps := none
  packetBytes := none
  fileLen := none
  nullSource := none

/-- The samples of an idle stream, one on every second. -/
def idleSamples (n : ℕ) : List Sample :=
  (List.range n).map fun k => ⟨(k + 1 : ℕ), 0, 0, none, none⟩

/-- The sampler's loop after `n` of them, started at 0. -/
def idleLoop (n : ℕ) : SampleLoop := ⟨(n + 1) * SECOND, 0, n * SECOND, idleSamples n⟩

/-- The Result of that hour. -/
def hourResult : TestResult :=
  Tcp.result 0 (3601 * SECOND) 0 SECOND (idleSamples 3601)

theorem asSecsF64_mul_second (n : ℕ) : asSecsF64 (n * SECOND) = n := by
  have hsecond : (SECOND : ℚ) ≠ 0 := by simp [SECOND]
  rw [asSecsF64, Nat.cast_mul, mul_div_cancel_right₀ _ hsecond]

theorem bitsPerSec_zero (secs : ℚ) : bitsPerSec 0#64 secs = 0 := by
  simp [bitsPerSec]

/-- The loop at the tick after them. -/
def idleTick (n : ℕ) : SampleLoop := { idleLoop n with next := (idleLoop n).next + SECOND }

/-- A tick on the second appends the next idle sample. -/
theorem idleTick_record (n : ℕ) :
    (idleTick n).record 0 ((n + 1) * SECOND) 0 = idleLoop (n + 1) := by
  have hreading : (idleTick n).reading 0 ((n + 1) * SECOND) 0 =
      ⟨(n + 1 : ℕ), 0, 0, none, none⟩ := by
    simp only [SampleLoop.reading, idleTick, idleLoop, Nat.sub_zero, asSecsF64_mul_second,
      Nat.sub_self, bitsPerSec_zero]
    rfl
  have hsamples : idleSamples (n + 1) = idleSamples n ++ [⟨(n + 1 : ℕ), 0, 0, none, none⟩] := by
    rw [idleSamples, List.range_succ, List.map_append]
    rfl
  rw [SampleLoop.record, hreading]
  simp only [idleTick, idleLoop, hsamples, Nat.succ_mul]

/-- The tasks of that hour, from its sampler and its warm-up snapshot. -/
def hourTasks (s : Sampler) (snap : Tcp.WarmupSnap) (main : Tcp.Main) : Tcp.Tasks :=
  ⟨0, [0], s, snap, main⟩

/-- The session measuring that hour. -/
def hourWorld (clock : ℕ) (s : Sampler) (snap : Tcp.WarmupSnap) : World :=
  { (World.entered currentHello hourLong 5000).goto
      (.running hourLong (.tcp (.measuring (hourTasks s snap .awaitingStop)))) with
    net := ⟨clock, [.fresh], 1, []⟩ }

theorem hourWorld_spawned : OnTimeReachable (hourWorld 0 .spawned .spawned) := by
  have hentered : OnTimeReachable (World.entered currentHello hourLong 5000) :=
    entered_onTime currentHello rfl hourLong 5000
  -- nothing is sampled yet
  have hquiet : ∀ k net, ({ (World.entered currentHello hourLong 5000).goto
      (.running hourLong (.tcp (.accepting k))) with net := net } : World).OnTime :=
    fun k net neg t hp => by cases hp
  have hconnected := hentered.next ⟨.inr (.inr (.connect rfl)), hquiet 0 _⟩
  have haccept : Tcp.Step hourLong ⟨0, [.fresh], 0, []⟩ (.accepting 0) ⟨0, [.fresh], 1, []⟩
      (.accepting 1) := .accept (by decide) (by decide)
  have haccepted := hconnected.next ⟨.inl (.data rfl (.tcp haccept)), hquiet 1 _⟩
  refine haccepted.next ⟨.inl (.data rfl (.tcp (.spawn rfl le_rfl))), fun neg t hp => ?_⟩
  cases hp
  trivial

section Hour

variable {clock clock' : ℕ} {s s' : Sampler} {snap snap' : Tcp.WarmupSnap}

/-- A step of the sampler is one of the session. -/
theorem hourWorld_sampler (h : OnTimeReachable (hourWorld clock s snap))
    (hstep : Sampler.Step 0 (Tcp.window hourLong) [0] clock s clock' s')
    (hon : s'.OnTime 0 clock') : OnTimeReachable (hourWorld clock' s' snap) := by
  refine h.next ⟨.inl (.data rfl (.tcp (.sampler hstep))), fun neg t hp => ?_⟩
  cases hp
  exact hon

/-- A step of the warm-up snapshot is one of the session. -/
theorem hourWorld_warmup (h : OnTimeReachable (hourWorld clock s snap))
    (hstep : Tcp.WarmupSnap.Step (fromSecs hourLong.warmupSecs) [0] clock snap clock' snap')
    (hon : s.OnTime 0 clock') : OnTimeReachable (hourWorld clock' s snap') := by
  refine h.next ⟨.inl (.data rfl (.tcp (.warmup hstep))), fun neg t hp => ?_⟩
  cases hp
  exact hon

/-- The first second: the sampler reads its baseline, and the snapshot is taken at the
    end of warm-up. -/
theorem hourWorld_started :
    OnTimeReachable (hourWorld SECOND (.waiting (idleLoop 0)) (.returned 0 SECOND)) := by
  have hwarmup : fromSecs hourLong.warmupSecs = SECOND := by decide
  have hload : Sampler.Step 0 (Tcp.window hourLong) [0] 0 (.baseline (0 + SECOND) 0 0) 0
      (.baseline (0 + SECOND) 1 (0 + 0)) := .baselineLoad rfl
  have hsnap : Tcp.WarmupSnap.Step SECOND [0] SECOND (.reading 0 0) SECOND
      (.reading 1 (0 + 0)) := .load rfl
  have hstart : idleLoop 0 = ⟨0 + SECOND, 0, 0, []⟩ := by simp [idleLoop, idleSamples]
  have hpolled := hourWorld_sampler hourWorld_spawned (.poll le_rfl)
    (show 0 + SECOND < 0 + 2 * SECOND by decide)
  have hloaded := hourWorld_sampler hpolled hload (show 0 + SECOND < 0 + 2 * SECOND by decide)
  have hwaiting := hourWorld_sampler hloaded (.baselineDone rfl)
    (show 0 < 0 + SECOND + SECOND by decide)
  have hsleeping := hourWorld_warmup hwaiting (.poll le_rfl)
    (show 0 < 0 + SECOND + SECOND by decide)
  have hwoken := hourWorld_warmup hsleeping
    (.wake (Nat.zero_le SECOND) (by rw [hwarmup, Nat.zero_add]))
    (show SECOND < 0 + SECOND + SECOND by decide)
  have hread := hourWorld_warmup hwoken (hwarmup ▸ hsnap)
    (show SECOND < 0 + SECOND + SECOND by decide)
  rw [hstart]
  exact hourWorld_warmup hread (.done le_rfl rfl) (show SECOND < 0 + SECOND + SECOND by decide)

/-- The tick comes on its second, and the one counter is read. -/
theorem hourWorld_read {n : ℕ} (hle : clock ≤ (n + 1) * SECOND)
    (h : OnTimeReachable (hourWorld clock (.waiting (idleLoop n)) snap)) :
    OnTimeReachable (hourWorld ((n + 1) * SECOND)
      (.reading (idleTick n) ((n + 1) * SECOND) 1 0) snap) := by
  have hlt : (n + 1) * SECOND < (idleLoop n).next + SECOND := by
    have hpos : 0 < SECOND := by decide
    show (n + 1) * SECOND < (n + 1) * SECOND + SECOND
    omega
  have htick := hourWorld_sampler h (.tick hle le_rfl) hlt
  have hload : Sampler.Step 0 (Tcp.window hourLong) [0] ((n + 1) * SECOND)
      (.reading (idleTick n) ((n + 1) * SECOND) 0 0) ((n + 1) * SECOND)
      (.reading (idleTick n) ((n + 1) * SECOND) 1 (0 + 0)) := .load rfl
  exact hourWorld_sampler htick hload hlt

theorem hour_record (n : ℕ) :
    Sampler.Step 0 (Tcp.window hourLong) [0] ((n + 1) * SECOND)
      (.reading (idleTick n) ((n + 1) * SECOND) 1 0) ((n + 1) * SECOND)
      (if 3601 ≤ n + 1 then .returned (idleSamples (n + 1)) else .waiting (idleLoop (n + 1))) := by
  have hrecord : Sampler.Step 0 (Tcp.window hourLong) [0] ((n + 1) * SECOND)
      (.reading (idleTick n) ((n + 1) * SECOND) 1 0) ((n + 1) * SECOND) _ := .record rfl
  have hwindow : Tcp.window hourLong = 3601 * SECOND := rfl
  have hpast : 3601 * SECOND ≤ (n + 1) * SECOND - 0 ↔ 3601 ≤ n + 1 :=
    Nat.mul_le_mul_right_iff (by decide)
  simp only [idleTick_record, hwindow, hpast] at hrecord
  exact hrecord

/-- Inside the window the sampler goes on, second by second. -/
theorem hourWorld_waiting {n : ℕ} (hn : n ≤ 3600) :
    ∃ clock ≤ (n + 1) * SECOND,
      OnTimeReachable (hourWorld clock (.waiting (idleLoop n)) (.returned 0 SECOND)) := by
  induction n with
  | zero => exact ⟨SECOND, by simp, hourWorld_started⟩
  | succ n ih =>
      obtain ⟨clock, hle, hwaiting⟩ := ih (by omega)
      -- the tick on the second, inside the window
      have hread := hourWorld_read hle hwaiting
      have hrecord := hour_record n
      rw [if_neg (by omega)] at hrecord
      refine ⟨(n + 1) * SECOND, Nat.mul_le_mul_right _ (Nat.le_succ _),
        hourWorld_sampler hread hrecord ?_⟩
      show (n + 1) * SECOND < (n + 1 + 1) * SECOND + SECOND
      have hpos : 0 < SECOND := by decide
      rw [Nat.succ_mul (n + 1)]
      omega

/-- The tick at 3601 s is the last. -/
theorem hourWorld_returned :
    OnTimeReachable (hourWorld (3601 * SECOND) (.returned (idleSamples 3601))
      (.returned 0 SECOND)) := by
  obtain ⟨clock, hle, hwaiting⟩ := hourWorld_waiting (le_refl 3600)
  -- the tick that ends it
  have hread := hourWorld_read hle hwaiting
  have hrecord := hour_record 3600
  rw [if_pos (le_refl 3601)] at hrecord
  exact hourWorld_sampler hread hrecord trivial

/-- Then Stop is read, the tasks are joined, and the session has its Result. -/
theorem hour_reporting :
    ∃ w, OnTimeReachable w ∧ w.session.phase = .reporting hourResult ∧
      w.ctrl.read[1]? = some (.ok (.negotiate hourLong)) := by
  have hsent := hourWorld_returned.next
    ⟨.inr (.inr (.send (.ok .stop) rfl)), fun neg t hp => by cases hp; trivial⟩
  have hstopped := hsent.next ⟨.inl (.read rfl rfl), fun neg t hp => by cases hp; trivial⟩
  -- the final snapshot of the one counter
  have hload : Tcp.Step hourLong (hourWorld (3601 * SECOND) .spawned .spawned).net
      (.measuring (hourTasks (.returned (idleSamples 3601)) (.returned 0 SECOND) (.reading 0 0)))
      (hourWorld (3601 * SECOND) .spawned .spawned).net
      (.measuring (hourTasks (.returned (idleSamples 3601)) (.returned 0 SECOND)
        (.reading 1 (0 + 0)))) := .finalLoad rfl rfl
  have hloaded := hstopped.next
    ⟨.inl (.data rfl (.tcp hload)), fun neg t hp => by cases hp; trivial⟩
  have hfinal := hloaded.next
    ⟨.inl (.data rfl (.tcp (.finalDone rfl rfl le_rfl))), fun neg t hp => by cases hp; trivial⟩
  have hsampler := hfinal.next
    ⟨.inl (.data rfl (.tcp (.joinSampler rfl rfl))), fun neg t hp => by cases hp; trivial⟩
  have hwarmup := hsampler.next
    ⟨.inl (.data rfl (.tcp (.joinWarmup rfl rfl))), fun neg t hp => by cases hp⟩
  have hfinished := hwarmup.next ⟨.inl (.finish rfl rfl), fun neg t hp => by cases hp⟩
  exact ⟨_, hfinished, rfl, rfl⟩

end Hour

/-! ## Whether the Result fits -/

/-- A spelling of the whole numbers, as serde_json has it. -/
def wholeF64 (x : ℚ) : List Byte :=
  if x < 10 ^ 16 then decimal x.floor.toNat ++ ascii ".0" else ascii "1e16"

/-- A codec that writes Results and nothing else. -/
def resultSerde (f64 : ℚ → List Byte) : Serde where
  toVec
    | .result r => .ok (r.json f64)
    | _ => .error ⟨.other, "not a Result"⟩
  fromSlice _ := .error ⟨.other, "not a Result"⟩

theorem resultSerde_writesResults (f64 : ℚ → List Byte) : (resultSerde f64).WritesResults f64 :=
  fun _ => rfl

theorem wholeF64_spelled : Spelled wholeF64 := by
  intro x
  unfold wholeF64
  split
  · next hlt =>
      have hfloor : x.floor.toNat < 10 ^ 16 := by
        have hle : (x.floor : ℚ) < 10 ^ 16 := lt_of_le_of_lt (Rat.floor_le x) hlt
        have hint : x.floor < 10 ^ 16 := by exact_mod_cast hle
        omega
      have hpos := length_decimal_pos x.floor.toNat
      have hle := length_decimal_le (by decide) hfloor
      have hpoint : ".0".length = 2 := rfl
      rw [List.length_append, length_ascii]
      omega
  · have hexp : "1e16".length = 4 := rfl
    rw [length_ascii]
    omega

/-- The Result of the hour has 3601 samples, and `write_msg` refuses it. -/
theorem hourResult_lost :
    (∃ w, OnTimeReachable w ∧ w.session.phase = .reporting hourResult) ∧
    hourLong.durationSecs.toNat ≤ 3600 ∧ hourResult.samples.length = 3601 ∧
    MAX_FRAME_BYTES < (hourResult.json wholeF64).length ∧
    ¬ Writable (resultSerde wholeF64) (.result hourResult) := by
  obtain ⟨w, hw, hphase, -⟩ := hour_reporting
  have hlen : hourResult.samples.length = 3601 := by
    simp [hourResult, Tcp.result, idleSamples]
  have hlost : ¬ Writable (resultSerde wholeF64) (.result hourResult) :=
    not_writable_of_le_length wholeF64_spelled (resultSerde_writesResults _) (by omega)
  refine ⟨⟨w, hw, hphase⟩, by decide, hlen, ?_, hlost⟩
  rw [writable_result_iff (resultSerde_writesResults _)] at hlost
  omega

/-- In time, a Result reported fits a frame: in TCP with a window of up to 459 s; in
    UDP when the receive loop has run for less than 367 s, in a file transfer when
    it has for less than 460 s.  A TCP session on time with a window of 922 s and
    more reports none that does. -/
theorem result_fits {f64 : ℚ → List Byte} (hf : Spelled f64) {serde : Serde}
    (hserde : serde.WritesResults f64) {w : World} {r : TestResult}
    (hr : w.session.phase = .reporting r) :
    (InTimeReachable w →
      (r.json f64).length ≤ MAX_FRAME_BYTES ∧ Writable serde (.result r)) ∧
    (OnTimeReachable w → ∀ neg, w.ctrl.read[1]? = some (.ok (.negotiate neg)) →
      neg.mode = .tcp → 922 ≤ (Tcp.windowSecs neg).toNat →
      MAX_FRAME_BYTES < (r.json f64).length ∧ ¬ Writable serde (.result r)) := by
  have hiff := writable_result_iff hserde r
  refine ⟨fun hin => ?_, fun hon neg hneg hmode hlong => ?_⟩
  · have hshort : r.Short := by
      have hsampled := hin.sampled
      rw [hr] at hsampled
      exact hsampled
    have hfits : Writable serde (.result r) := by
      rcases hshort with ⟨hplain, hlen⟩ | hlen
      · exact hplain.writable_of_length_le hf hserde hlen
      · exact writable_of_length_le hf hserde hlen
    exact ⟨hiff.mp hfits, hfits⟩
  · have hticked := hon.ticked.2.reporting neg r hneg hmode hr
    have hlost := not_writable_of_le_length hf hserde (r := r) (by omega)
    exact ⟨by rw [hiff] at hlost; omega, hlost⟩

/-- A UDP request. -/
def tenSeconds : Negotiate where
  mode := .udp
  durationSecs := 10
  warmupSecs := 0
  parallel := 1
  bufferBytes := 65536
  bidir := false
  bitrateBps := some 1000000
  packetBytes := some 1472
  fileLen := none
  nullSource := none

/-- A UDP session stopped after its first sample is in time. -/
theorem tenSeconds_reporting :
    ∃ w r, InTimeReachable w ∧ w.session.phase = .reporting r ∧ r.samples.length = 1 := by
  have hstart : 0 < 0 + (366 + 1) * SECOND := by decide
  have hlate : SECOND < 0 + (366 + 1) * SECOND := by decide
  have hentered : InTimeReachable (World.entered currentHello tenSeconds 5000) :=
    entered_inTime currentHello rfl tenSeconds 5000 (by decide)
  have hstarted := hentered.next
    ⟨fun n path hp => by cases hp; trivial,
      .inl (.data rfl (.udp (.start (Nat.le_refl 0) (Nat.le_refl 0))))⟩
  have hticked := hstarted.next
    ⟨fun n path hp => by cases hp; exact hstart,
      .inl (.data rfl (.udp (.tick (Nat.zero_le SECOND) (Nat.zero_add SECOND).le)))⟩
  have hsent := hticked.next
    ⟨fun n path hp => by cases hp; exact hlate, .inr (.inr (.send (.ok .stop) rfl))⟩
  have hstopped := hsent.next
    ⟨fun n path hp => by cases hp; exact hlate, .inl (.read rfl rfl)⟩
  have hreturned := hstopped.next
    ⟨fun n path hp => by cases hp; trivial, .inl (.data rfl (.udp (.finish le_rfl)))⟩
  have hfinished := hreturned.next
    ⟨fun n path hp => by cases hp; trivial, .inl (.finish rfl rfl)⟩
  exact ⟨_, _, hfinished, rfl, rfl⟩

/-- Its Result fits; that of the hour does not. -/
theorem result_fits_tenSeconds :
    (∃ w r, InTimeReachable w ∧ w.session.phase = .reporting r ∧ r.samples.length = 1 ∧
      Writable (resultSerde wholeF64) (.result r)) ∧
    ∃ w r, OnTimeReachable w ∧ w.session.phase = .reporting r ∧
      ¬ Writable (resultSerde wholeF64) (.result r) := by
  obtain ⟨w, r, hin, hr, hlen⟩ := tenSeconds_reporting
  obtain ⟨w', hon, hr', hneg⟩ := hour_reporting
  exact ⟨⟨w, r, hin, hr, hlen,
      ((result_fits wholeF64_spelled (resultSerde_writesResults _) hr).1 hin).2⟩,
    w', _, hon, hr',
      ((result_fits wholeF64_spelled (resultSerde_writesResults _) hr').2 hon hourLong hneg rfl
        (by decide)).2⟩

end Andri

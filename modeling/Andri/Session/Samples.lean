/-
  Andri.Session.Samples

  How many samples a session takes.  No two ticks of a one-second ticker are due
  within the same second, so a loop that has run for less than `n + 1` seconds
  has taken at most `n` samples; `run_sampler` takes no more than its window has
  seconds, however long it runs.  A session in time therefore reports a Result
  that fits a frame.
-/
import Andri.Proto.Json
import Andri.Session.DataPlane

namespace Andri

open Lib

/-- A loop started at `t0` that has taken `n` samples: when its next tick is due,
    and what the clock shows at least. -/
structure Paced (t0 next clock n : ℕ) : Prop where
  next : t0 + (n + 1) * SECOND ≤ next
  clock : t0 + n * SECOND ≤ clock

theorem Paced.start {t0 tick0 : ℕ} (h : t0 ≤ tick0) : Paced t0 (tick0 + SECOND) tick0 0 :=
  ⟨by omega, by omega⟩

theorem Paced.tick {t0 next clock now n : ℕ} (h : Paced t0 next clock n) (hdue : next ≤ now) :
    Paced t0 (next + SECOND) now (n + 1) := by
  have hnext := h.next
  refine ⟨?_, hnext.trans hdue⟩
  rw [Nat.succ_mul]
  omega

theorem Paced.later {t0 next clock clock' n : ℕ} (h : Paced t0 next clock n)
    (hle : clock ≤ clock') : Paced t0 next clock' n :=
  ⟨h.next, h.clock.trans hle⟩

/-- Within `k + 1` seconds at most `k` samples are taken. -/
theorem Paced.le {t0 next clock n k : ℕ} (h : Paced t0 next clock n)
    (hin : clock < t0 + (k + 1) * SECOND) : n ≤ k := by
  have hlt : n * SECOND < (k + 1) * SECOND := by
    have hclock := h.clock
    omega
  exact Nat.le_of_lt_succ (Nat.lt_of_mul_lt_mul_right hlt)

/-- The samples of a loop have no UDP fields. -/
def PlainSamples (samples : List Sample) : Prop := ∀ s ∈ samples, s.Plain

theorem plain_record {l : SampleLoop} (h : PlainSamples l.samples) (t0 now cur : ℕ) :
    PlainSamples (l.record t0 now cur).samples := by
  intro s hs
  rcases List.mem_append.mp hs with hold | hnew
  · exact h s hold
  · rw [List.mem_singleton.mp hnew]
    exact ⟨rfl, rfl⟩

theorem length_record (l : SampleLoop) (t0 now cur : ℕ) :
    (l.record t0 now cur).samples.length = l.samples.length + 1 := by
  simp [SampleLoop.record]

/-! ## TCP -/

/-- The samples a window of `secs` seconds can have: its last tick is the first past
    the window. -/
def Windowed (secs n : ℕ) : Prop := n = 0 ∨ n < secs

/-- The samples of `run_sampler` with a window of `secs` seconds. -/
def Sampler.Sampled (t0 secs : ℕ) : Sampler → Prop
  | .spawned => True
  | .baseline next _ _ => t0 + SECOND ≤ next
  | .waiting l => t0 + (l.samples.length + 1) * SECOND ≤ l.next ∧
      Windowed secs l.samples.length ∧ PlainSamples l.samples
  | .reading l now _ _ => t0 + (l.samples.length + 1) * SECOND ≤ now ∧
      t0 + (l.samples.length + 2) * SECOND ≤ l.next ∧
      Windowed secs l.samples.length ∧ PlainSamples l.samples
  | .returned samples => samples.length ≤ max 1 secs ∧ PlainSamples samples

theorem Sampler.Step.sampled {t0 secs clock clock' : ℕ} {counters : List ℕ} {s s' : Sampler}
    (h : Step t0 (secs * SECOND) counters clock s clock' s') (hclock : t0 ≤ clock)
    (hs : s.Sampled t0 secs) : s'.Sampled t0 secs := by
  cases h with
  | poll hnow =>
      show t0 + SECOND ≤ _ + SECOND
      omega
  | baselineLoad => exact hs
  | baselineDone =>
      have hnext : t0 + SECOND ≤ _ := hs
      refine ⟨?_, .inl rfl, fun s hs => by cases hs⟩
      simpa using hnext
  | @tick _ l hnow hdue =>
      obtain ⟨hnext, hwindow, hplain⟩ := hs
      refine ⟨hnext.trans hdue, ?_, hwindow, hplain⟩
      show t0 + (l.samples.length + 1 + 1) * SECOND ≤ l.next + SECOND
      rw [Nat.succ_mul]
      omega
  | load => exact hs
  | @record now k sum l hk =>
      obtain ⟨hnow, hnext, hwindow, hplain⟩ := hs
      have hrecord := plain_record hplain t0 now sum
      have hlen := length_record l t0 now sum
      split
      -- the last tick: one sample more than the window had room for
      · refine ⟨?_, hrecord⟩
        rw [hlen]
        rcases hwindow with hzero | hlt <;> omega
      · next hopen =>
          refine ⟨?_, .inr ?_, hrecord⟩
          · rw [hlen]
            exact hnext
          · have hlt : (l.samples.length + 1) * SECOND < secs * SECOND := by omega
            rw [hlen]
            exact Nat.lt_of_mul_lt_mul_right hlt

/-- A Result without UDP fields and with at most `n` samples. -/
def TestResult.Few (n : ℕ) (r : TestResult) : Prop := r.Plain ∧ r.samples.length ≤ n

/-- The samples the main task has joined. -/
def Tcp.Main.Sampled (secs : ℕ) : Tcp.Main → Prop
  | .joiningWarmup _ _ samples => samples.length ≤ max 1 secs ∧ PlainSamples samples
  | _ => True

/-- The samples of `tcp::serve`. -/
def Tcp.Serve.Sampled (neg : Negotiate) (clock : ℕ) : Tcp.Serve → Prop
  | .accepting _ => True
  | .measuring t => t.t0 ≤ clock ∧ t.sampler.Sampled t.t0 (windowSecs neg).toNat ∧
      t.main.Sampled (windowSecs neg).toNat
  | .returned r => r.Few (max 1 (windowSecs neg).toNat)

theorem Tcp.Step.sampled {neg : Negotiate} {net net' : Net} {s s' : Tcp.Serve}
    (h : Tcp.Step neg net s net' s') (hs : s.Sampled neg net.clock) :
    s'.Sampled neg net'.clock := by
  have hclock := h.clock_le
  cases h with
  | accept => trivial
  | spawn => exact ⟨le_rfl, trivial, trivial⟩
  | recv => exact hs
  | sampler h => exact ⟨hs.1.trans hclock, h.sampled hs.1 hs.2.1, hs.2.2⟩
  | warmup => exact ⟨hs.1.trans hclock, hs.2⟩
  | finalLoad | finalDone => exact ⟨hs.1.trans hclock, hs.2.1, trivial⟩
  | joinSampler hmain hret =>
      obtain ⟨ht, hsampler, -⟩ := hs
      refine ⟨ht, hsampler, ?_⟩
      rw [hret] at hsampler
      exact hsampler
  | joinWarmup hmain hw =>
      obtain ⟨-, -, hjoined⟩ := hs
      rw [hmain] at hjoined
      exact ⟨⟨rfl, rfl, rfl, rfl, rfl, hjoined.2⟩, hjoined.1⟩

/-! ## UDP -/

/-- The samples of `udp::serve`; past its `break` there are at most `n`. -/
def Udp.Serve.Sampled (n clock : ℕ) : Udp.Serve → Prop
  | .starting => True
  | .selecting l => Paced l.t0 l.next clock l.samples.length
  | .stopped l => l.samples.length ≤ n
  | .returned r => r.samples.length ≤ n

theorem Udp.Step.sampled {n : ℕ} {neg : Negotiate} {net net' : Net} {s s' : Udp.Serve}
    (h : Udp.Step neg net s net' s') (hs : s.Sampled n net.clock) : s'.Sampled n net'.clock := by
  cases h with
  | start hnow hle => exact ⟨by simpa [Loop.start] using hle, by simpa [Loop.start] using hle⟩
  | @tick l now hnow hdue =>
      have htick := Paced.tick hs hdue
      simpa [Serve.Sampled, Loop.tick] using htick
  | @recv l now started buf rest hbuf hnow hle =>
      have hlater := Paced.later hs (hnow.trans hle)
      unfold Loop.receive
      split <;> exact hlater
  | finish => exact hs

/-! ## File -/

/-- The samples of `sample_until_done`. -/
def File.Sampler.Sampled (t0 clock : ℕ) : File.Sampler → Prop
  | .spawned => True
  | .waiting l => Paced t0 l.next clock l.samples.length ∧ PlainSamples l.samples
  | .returned samples => t0 + samples.length * SECOND ≤ clock ∧ PlainSamples samples

/-- The samples of `file::serve`. -/
def File.Serve.Sampled (n clock : ℕ) : File.Serve → Prop
  | .accepting => True
  | .receiving t | .joining t _ => t.t0 ≤ clock ∧ t.sampler.Sampled t.t0 clock
  | .returned r => r.Few n

theorem File.Sampler.Sampled.later {t0 clock clock' : ℕ} {s : File.Sampler}
    (hs : s.Sampled t0 clock) (hle : clock ≤ clock') : s.Sampled t0 clock' := by
  cases s with
  | spawned => trivial
  | waiting l => exact ⟨hs.1.later hle, hs.2⟩
  | returned samples => exact ⟨hs.1.trans hle, hs.2⟩

theorem File.Sampler.Step.sampled {t0 len counter clock clock' : ℕ} {s s' : File.Sampler}
    (h : Step t0 len counter clock s clock' s') (hclock : t0 ≤ clock) (hs : s.Sampled t0 clock) :
    clock ≤ clock' ∧ s'.Sampled t0 clock' := by
  cases h with
  | poll hnow => exact ⟨hnow, .start (hclock.trans hnow), fun s hs => by cases hs⟩
  | @tick _ l hnow hdue =>
      obtain ⟨hpaced, hplain⟩ := hs
      have htick := hpaced.tick hdue
      have hrecord : PlainSamples
          (({ l with next := l.next + SECOND } : SampleLoop).record t0 clock' counter).samples :=
        plain_record hplain t0 clock' counter
      refine ⟨hnow, ?_⟩
      dsimp only
      split
      · refine ⟨?_, hrecord⟩
        rw [length_record]
        exact htick.clock
      · refine ⟨?_, hrecord⟩
        rw [length_record]
        exact htick

/-! ## Sessions in time -/

/-- The receive loop has run for less than `n + 1` seconds. -/
def Udp.Serve.InTime (n clock : ℕ) : Udp.Serve → Prop
  | .selecting l => clock < l.t0 + (n + 1) * SECOND
  | _ => True

/-- The transfer, up to its sampler's last tick, has run for less than `n + 1`
    seconds. -/
def File.Serve.InTime (n clock : ℕ) : File.Serve → Prop
  | .receiving t | .joining t _ => clock < t.t0 + (n + 1) * SECOND
  | _ => True

/-- A data path that has not taken more samples than a frame holds: in TCP by the
    window negotiated, in the other modes by the time it has run. -/
def DataPath.InTime (neg : Negotiate) (clock : ℕ) : DataPath → Prop
  | .tcp _ => (Tcp.windowSecs neg).toNat ≤ 459
  | .udp s => s.InTime 366 clock
  | .file s => s.InTime 459 clock

/-- A session that is in time, or not on its data path. -/
def World.InTime (w : World) : Prop :=
  ∀ neg path, w.session.phase = .running neg path → path.InTime neg w.net.clock

/-- The samples of a data path. -/
def DataPath.Sampled (neg : Negotiate) (clock : ℕ) : DataPath → Prop
  | .tcp s => s.Sampled neg clock
  | .udp s => s.Sampled 366 clock
  | .file s => s.Sampled 459 clock

/-- A Result with no more samples than a frame holds. -/
def TestResult.Short (r : TestResult) : Prop := r.Few 459 ∨ r.samples.length ≤ 366

/-- The samples of a session. -/
def Phase.Sampled (clock : ℕ) : Phase → Prop
  | .running neg path => path.Sampled neg clock
  | .draining r | .reporting r => r.Short
  | _ => True

theorem File.Step.sampled {n : ℕ} {neg : Negotiate} {net net' : Net} {s s' : File.Serve}
    (h : File.Step neg net s net' s') (hs : s.Sampled n net.clock)
    (hin : s.InTime n net.clock) : s'.Sampled n net'.clock := by
  cases h with
  | accept => exact ⟨le_rfl, trivial⟩
  | read => exact hs
  | eof _ _ _ _ hnow | done _ hnow => exact ⟨hs.1.trans hnow, hs.2.later hnow⟩
  | samplerReceiving h | samplerJoining h =>
      obtain ⟨hle, hsampled⟩ := h.sampled hs.1 hs.2
      exact ⟨hs.1.trans hle, hsampled⟩
  | @join t secs samples hret =>
      obtain ⟨-, hsampler⟩ := hs
      rw [hret] at hsampler
      obtain ⟨hclock, hplain⟩ := hsampler
      refine ⟨⟨rfl, rfl, rfl, rfl, rfl, hplain⟩, ?_⟩
      -- the sampler has returned while the transfer is in time
      have hlt : samples.length * SECOND < (n + 1) * SECOND := by
        change net.clock < t.t0 + (n + 1) * SECOND at hin
        omega
      exact Nat.le_of_lt_succ (Nat.lt_of_mul_lt_mul_right hlt)

theorem DataStep.sampled {neg : Negotiate} {net net' : Net} {path path' : DataPath}
    (h : DataStep neg net path net' path') (hs : path.Sampled neg net.clock)
    (hin : path.InTime neg net.clock) : path'.Sampled neg net'.clock := by
  cases h with
  | tcp h => exact h.sampled hs
  | udp h => exact h.sampled hs
  | file h => exact h.sampled hs hin

/-- Time passing takes no sample. -/
theorem Phase.Sampled.later {p : Phase} {clock clock' : ℕ} (hs : p.Sampled clock)
    (hle : clock ≤ clock') : p.Sampled clock' := by
  cases p with
  | running neg path =>
      cases path with
      | tcp s =>
          cases s with
          | measuring t => exact ⟨hs.1.trans hle, hs.2⟩
          | accepting | returned => exact hs
      | udp s =>
          cases s with
          | selecting l => exact Paced.later hs hle
          | starting | stopped | returned => exact hs
      | file s =>
          cases s with
          | receiving t | joining t secs => exact ⟨hs.1.trans hle, hs.2.later hle⟩
          | accepting | returned => exact hs
  | greeting | welcoming | rejecting | negotiating | binding | starting | connecting | draining
  | reporting | closed | panicked => exact hs

/-- What a data path in time returns is short. -/
theorem DataPath.Sampled.short {neg : Negotiate} {clock : ℕ} {path : DataPath} {r : TestResult}
    (hs : path.Sampled neg clock) (hin : path.InTime neg clock) (hr : path.returned = some r) :
    r.Short := by
  cases path with
  | tcp s =>
      cases s with
      | returned r' =>
          cases hr
          have hwindow : (Tcp.windowSecs neg).toNat ≤ 459 := hin
          exact .inl ⟨hs.1, hs.2.trans (by omega)⟩
      | accepting | measuring => cases hr
  | udp s =>
      cases s with
      | returned r' =>
          cases hr
          exact .inr hs
      | starting | selecting | stopped => cases hr
  | file s =>
      cases s with
      | returned r' =>
          cases hr
          exact .inl hs
      | accepting | receiving | joining => cases hr

theorem dispatch_sampled (s : Session) (neg : Negotiate) (clock : ℕ) :
    (dispatch s neg).Sampled clock := by
  rcases dispatch_cases s neg with hd | hd <;> rw [hd]
  · cases hm : neg.mode <;> trivial
  · trivial

theorem OnRead.sampled {s : Session} {x : Input} {q : Phase} {clock : ℕ} (h : OnRead s x q)
    (hs : s.phase.Sampled clock)
    (hin : ∀ neg path, s.phase = .running neg path → path.InTime neg clock) :
    q.Sampled clock := by
  cases h with
  | hello | negotiate | unexpected | failed => trivial
  | run => exact dispatch_sampled _ _ _
  | tcpStop hphase hmain =>
      rw [hphase] at hs
      exact ⟨hs.1, hs.2.1, trivial⟩
  -- Stop comes while the loop is in time
  | udpStop hphase =>
      have hin := hin _ _ hphase
      rw [hphase] at hs
      exact Paced.le hs hin
  | drained hphase =>
      rw [hphase] at hs
      exact hs

/-- In time, every step keeps the count of the samples. -/
theorem Step.sampled {w w' : World} (h : Step w w') (hs : w.session.phase.Sampled w.net.clock)
    (hin : w.InTime) : w'.session.phase.Sampled w'.net.clock := by
  rcases h with hserver | hfail | hpeer
  · cases hserver with
    | read htake hq => exact (Session.onRead_cases hq).sampled hs hin
    | @write m q hq =>
        show q.Sampled w.net.clock
        cases Phase.onWrite_cases hq <;> trivial
    | @bind n hp port =>
        show (bindData n port).phase.Sampled w.net.clock
        rw [bindData_phase]
        trivial
    | @data n path path' net' hp hdata =>
        rw [hp] at hs
        exact hdata.sampled hs (hin n path hp)
    | @finish n path r hp hr =>
        rw [hp] at hs
        have hshort := DataPath.Sampled.short hs (hin n path hp) hr
        show (afterData path r).Sampled w.net.clock
        rcases afterData_cases path r with ha | ha <;> rw [ha] <;> exact hshort
  · cases hfail with
    | fail => trivial
  · rw [hpeer.frame.1]
    exact hs.later hpeer.clock_le

/-- The runs of a session that is in time at every step. -/
def InTimeReachable : World → Prop :=
  Reachable (· = World.init) fun w w' => w.InTime ∧ Step w w'

theorem InTimeReachable.sampled {w : World} (h : InTimeReachable w) :
    w.session.phase.Sampled w.net.clock :=
  Reachable.invariant (I := fun w => w.session.phase.Sampled w.net.clock) h
    (fun _ hinit => hinit ▸ trivial) fun _ _ hI hstep => hstep.2.sampled hI hstep.1

end Andri

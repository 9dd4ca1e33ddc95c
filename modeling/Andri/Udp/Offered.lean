/-
  Andri.Udp.Offered

  Pacing against the offered load.  The send loop of `udp::drive` after `k` ticks
  has sent the floor of `k` times the per-tick rate, so between two ticks it is
  within one datagram of the rate.  With ticks that never fire early this
  bounds what has left by any time: the bitrate times the elapsed time, and
  one tick's share for the tick that fires at the start.

  The bound is carried over runs of `drive` whose clock other tasks advance too.
-/
import Andri.Lib.Transition
import Andri.Udp.Drive

namespace Andri.Udp

open Lib

/-! ## Ticks and load -/

section Load

variable (bitrate : U64) {packetBytes : Usize}

/-- The load of `k` ticks in bits: the packet size cancels. -/
theorem ticks_mul_rate_bits (hp : 16 ≤ packetBytes.toNat) (k : ℕ) :
    8 * (packetBytes.toNat : ℚ) * (k * packetsPerTick bitrate packetBytes TICKS_PER_SEC) =
      k * (bitrate.toNat / 1000) := by
  have hpos : (packetBytes.toNat : ℚ) ≠ 0 := by
    have hne : packetBytes.toNat ≠ 0 := by omega
    exact_mod_cast hne
  have hticks : ((TICKS_PER_SEC.toNat : ℕ) : ℚ) = 1000 := rfl
  simp only [packetsPerTick, hticks]
  field_simp

/-- What `k` ticks send, when the last of them fired `k - 1` milliseconds after the
    start or later. -/
theorem bits_sent_le (hp : 16 ≤ packetBytes.toNat) {k : ℕ} {t : ℚ} (h0 : 0 ≤ t)
    (hfired : 1 ≤ k → ((k : ℚ) - 1) / 1000 ≤ t) :
    8 * (packetBytes.toNat : ℚ) *
        (SendLoop.after (packetsPerTick bitrate packetBytes TICKS_PER_SEC) k).seq ≤
      bitrate.toNat * t + bitrate.toNat / 1000 := by
  have hrate := packetsPerTick_nonneg bitrate packetBytes TICKS_PER_SEC
  have htracks := SendLoop.tracks_after hrate (packetsPerTick_lt bitrate hp) k
  have hfloor := Nat.floor_le (mul_nonneg (Nat.cast_nonneg k) hrate)
  have hb : (0 : ℚ) ≤ bitrate.toNat := Nat.cast_nonneg _
  -- the ticks that fired fit the elapsed time and one tick more
  have hk : (k : ℚ) ≤ 1000 * t + 1 := by
    rcases Nat.eq_zero_or_pos k with rfl | hpos
    · rw [Nat.cast_zero]
      linarith
    · have h := hfired hpos
      linarith
  calc 8 * (packetBytes.toNat : ℚ) *
          (SendLoop.after (packetsPerTick bitrate packetBytes TICKS_PER_SEC) k).seq
      ≤ 8 * packetBytes.toNat * (k * packetsPerTick bitrate packetBytes TICKS_PER_SEC) := by
        rw [htracks.seq, FloorCarry.offered]
        gcongr
    _ = k * (bitrate.toNat / 1000) := ticks_mul_rate_bits bitrate hp k
    _ ≤ (1000 * t + 1) * (bitrate.toNat / 1000) := by gcongr
    _ = bitrate.toNat * t + bitrate.toNat / 1000 := by ring

end Load

/-! ## Runs of the drive -/

/-- The start and the send loop of a drive under way. -/
def Drive.sending : Drive → Option (ℕ × SendLoop)
  | .checking t0 _ s | .ticking t0 _ s | .bursting t0 _ s => some (t0, s)
  | .starting | .returned => none

/-- A step of `drive`, or of another task that reads the clock or touches the
    net. -/
inductive Drive.Move (neg : Negotiate) : Net × Drive → Net × Drive → Prop
  | own {net net' : Net} {d d' : Drive} (h : Step neg net d net' d') :
      Move neg (net, d) (net', d')
  | other {net net' : Net} {d : Drive} (h : net.clock ≤ net'.clock) :
      Move neg (net, d) (net', d)

/-- Where the pacing loop stands against the clock: `k` ticks are behind it, the
    last of which fired on time or late, and the ticker is `k` periods along. -/
structure Ticked (neg : Negotiate) (t0 next clock k : ℕ) : Prop where
  due : t0 + k * TICK ≤ next
  fired : 1 ≤ k → t0 + (k - 1) * TICK ≤ clock

theorem Ticked.later {neg : Negotiate} {t0 next clock clock' k : ℕ}
    (h : Ticked neg t0 next clock k) (hle : clock ≤ clock') : Ticked neg t0 next clock' k where
  due := h.due
  fired hk := (h.fired hk).trans hle

/-- The tick that fires counts as the next. -/
theorem Ticked.tick {neg : Negotiate} {t0 next clock now k : ℕ} (h : Ticked neg t0 next clock k)
    (hdue : next ≤ now) : Ticked neg t0 (next + TICK) now (k + 1) where
  due := by
    have hstep := h.due
    rw [Nat.add_mul, Nat.one_mul]
    omega
  fired _ := by
    rw [Nat.add_sub_cancel]
    exact h.due.trans hdue

/-- The drive's loop is the send loop after some number of ticks, or part of the
    way through a burst. -/
def Drive.Paced (neg : Negotiate) (clock : ℕ) : Drive → Prop
  | .starting | .returned => True
  | .checking t0 next s | .ticking t0 next s =>
      ∃ k, s = .after (driveRate neg) k ∧ Ticked neg t0 next clock k
  | .bursting t0 next s =>
      ∃ k n, n ≤ ((SendLoop.after (driveRate neg) k).tick (driveRate neg)).toSend ∧
        s = SendLoop.send^[n] ((SendLoop.after (driveRate neg) k).tick (driveRate neg)) ∧
        Ticked neg t0 next clock (k + 1)

section Paced

variable {neg : Negotiate} {clock clock' : ℕ} {net net' : Net} {d d' : Drive}

theorem Drive.Paced.later (h : d.Paced neg clock) (hle : clock ≤ clock') :
    d.Paced neg clock' := by
  cases d with
  | starting | returned => trivial
  | checking t0 next s | ticking t0 next s =>
      obtain ⟨k, hs, ht⟩ := h
      exact ⟨k, hs, ht.later hle⟩
  | bursting t0 next s =>
      obtain ⟨k, n, hn, hs, ht⟩ := h
      exact ⟨k, n, hn, hs, ht.later hle⟩

/-- One more datagram of the burst, delivered or lost. -/
theorem Drive.Paced.send {t0 next : ℕ} {s : SendLoop} (hmore : 0 < s.toSend)
    (h : (Drive.bursting t0 next s).Paced neg clock) :
    (Drive.bursting t0 next s.send).Paced neg clock := by
  obtain ⟨k, n, hn, rfl, ht⟩ := h
  rw [SendLoop.iterate_send] at hmore
  refine ⟨k, n + 1, ?_, (Function.iterate_succ_apply' _ _ _).symm, ht⟩
  simp only at hmore
  omega

/-- The burst that has nothing left to send closes the iteration. -/
theorem Drive.Paced.sent {t0 next : ℕ} {s : SendLoop} (hnone : s.toSend = 0)
    (h : (Drive.bursting t0 next s).Paced neg clock) :
    (Drive.checking t0 next s).Paced neg clock := by
  obtain ⟨k, n, hn, rfl, ht⟩ := h
  refine ⟨k + 1, ?_, ht⟩
  rw [SendLoop.iterate_send] at hnone
  simp only at hnone
  have hall : n = ((SendLoop.after (driveRate neg) k).tick (driveRate neg)).toSend := by omega
  rw [SendLoop.after_succ, SendLoop.iteration, SendLoop.burst, hall]

theorem Drive.Paced.step (h : d.Paced neg net.clock) (hs : Step neg net d net' d') :
    d'.Paced neg net'.clock := by
  cases hs with
  | start hnow hle =>
      exact ⟨0, rfl, by simpa using hle, fun hk => absurd hk (by decide)⟩
  | go hnow hbefore => exact h.later hnow
  | finish hnow hpast => trivial
  | tick hnow hdue =>
      obtain ⟨k, rfl, ht⟩ := h
      exact ⟨k, 0, Nat.zero_le _, rfl, ht.tick hdue⟩
  | send hmore hnow hlen => exact (h.send hmore).later hnow
  | lose hmore hnow => exact (h.send hmore).later hnow
  | sent hnone => exact h.sent hnone

theorem Drive.Move.paced {x y : Net × Drive} (h : Move neg x y) (hx : x.2.Paced neg x.1.clock) :
    y.2.Paced neg y.1.clock := by
  cases h with
  | own hs => exact hx.step hs
  | other hle => exact hx.later hle

/-- A burst under way has sent at most what its iteration sends. -/
theorem Drive.Paced.exists_seq_le {t0 : ℕ} {s : SendLoop} (h : d.Paced neg clock)
    (hd : d.sending = some (t0, s)) :
    ∃ k, s.seq ≤ (SendLoop.after (driveRate neg) k).seq ∧
      (1 ≤ k → t0 + (k - 1) * TICK ≤ clock) := by
  cases d with
  | starting | returned => cases hd
  | checking t1 next s' | ticking t1 next s' =>
      cases hd
      obtain ⟨k, rfl, ht⟩ := h
      exact ⟨k, le_rfl, ht.fired⟩
  | bursting t1 next s' =>
      cases hd
      obtain ⟨k, n, hn, rfl, ht⟩ := h
      refine ⟨k + 1, ?_, ht.fired⟩
      rw [SendLoop.after_succ, SendLoop.iteration, SendLoop.burst_eq, SendLoop.iterate_send]
      exact Nat.add_le_add_left hn _

end Paced

/-- At every moment of every run of `drive`, the bits sent are within the bitrate
    times the elapsed time and one tick's share. -/
theorem Drive.bits_sent_le {neg : Negotiate} {net₀ net : Net} {d : Drive} {t0 : ℕ} {s : SendLoop}
    (hrun : Run (Move neg) (net₀, .starting) (net, d)) (hd : d.sending = some (t0, s)) :
    8 * ((packetBytes neg).toNat : ℚ) * s.seq ≤
      (driveBitrate neg).toNat * asSecsF64 (net.clock - t0) +
        (driveBitrate neg).toNat / 1000 := by
  have hpaced : d.Paced neg net.clock :=
    run_invariant (I := fun x : Net × Drive => x.2.Paced neg x.1.clock)
      (fun _ _ hx hm => hm.paced hx) hrun trivial
  obtain ⟨k, hseq, hfired⟩ := hpaced.exists_seq_le hd
  have hp := packetBytes_ge neg
  -- a tick's period is a millisecond of the clock
  have htime : 1 ≤ k → ((k : ℚ) - 1) / 1000 ≤ asSecsF64 (net.clock - t0) := by
    intro hk
    have hTICK : TICK = 1000000 := by decide
    have hns : (k - 1) * 1000000 ≤ net.clock - t0 := by
      have h := hfired hk
      rw [hTICK] at h
      omega
    have hcast : (((k - 1) * 1000000 : ℕ) : ℚ) ≤ ((net.clock - t0 : ℕ) : ℚ) := by
      exact_mod_cast hns
    rw [Nat.cast_mul, Nat.cast_sub hk] at hcast
    have hSECOND : ((SECOND : ℕ) : ℚ) = 1000000000 := rfl
    rw [asSecsF64, hSECOND, le_div_iff₀ (by norm_num)]
    push_cast at hcast
    linarith
  have h0 : 0 ≤ asSecsF64 (net.clock - t0) := by
    unfold asSecsF64
    positivity
  calc 8 * ((packetBytes neg).toNat : ℚ) * s.seq
      ≤ 8 * (packetBytes neg).toNat * (SendLoop.after (driveRate neg) k).seq := by
        gcongr
    _ ≤ _ := Udp.bits_sent_le (driveBitrate neg) hp h0 htime

/-! ## Pacing -/

/-- After `k` ticks the loop has stamped 0, 1, … up to the floor of `k` rates, once each
    and in order, and carries the fraction; between any two ticks it is within
    one datagram of the rate; and with no tick fired early, no more bits have
    left by any time than the bitrate allows and one tick's share, also while
    a burst of a run of `drive` is under way. -/
theorem pacing_exact (bitrate : U64) (packetBytes : Usize) (hp : 16 ≤ packetBytes.toNat) :
    let r := packetsPerTick bitrate packetBytes TICKS_PER_SEC
    let loop := SendLoop.after r
    (∀ k : ℕ, (loop k).seq = ⌊k * r⌋₊ ∧ (loop k).carry = k * r - (loop k).seq ∧
      0 ≤ (loop k).carry ∧ (loop k).carry < 1 ∧ (loop k).stamped = List.range (loop k).seq) ∧
    (∀ j k : ℕ, j ≤ k →
      |((loop k).seq - (loop j).seq : ℚ) - ((k : ℚ) - j) * r| < 1) ∧
    (∀ fires : ℕ → ℚ, (∀ i : ℕ, 1 ≤ i → ((i : ℚ) - 1) / 1000 ≤ fires i) →
      ∀ (k : ℕ) (t : ℚ), 0 ≤ t → (1 ≤ k → fires k ≤ t) →
        8 * (packetBytes.toNat : ℚ) * (loop k).seq ≤ bitrate.toNat * t + bitrate.toNat / 1000) ∧
    ∀ (neg : Negotiate) (net₀ net : Net) (d : Drive) (t0 : ℕ) (s : SendLoop),
      driveBitrate neg = bitrate → Udp.packetBytes neg = packetBytes →
      Run (Drive.Move neg) (net₀, .starting) (net, d) → d.sending = some (t0, s) →
      8 * (packetBytes.toNat : ℚ) * s.seq ≤
        bitrate.toNat * asSecsF64 (net.clock - t0) + bitrate.toNat / 1000 := by
  intro r loop
  have hr : 0 ≤ r := packetsPerTick_nonneg bitrate packetBytes TICKS_PER_SEC
  have hloop : ∀ k, SendLoop.Tracks (loop k) (FloorCarry.offered (k * r)) :=
    SendLoop.tracks_after hr (packetsPerTick_lt bitrate hp)
  have hoffer : ∀ k : ℕ, 0 ≤ k * r := fun k => mul_nonneg (Nat.cast_nonneg k) hr
  refine ⟨fun k => ?_, fun j k _ => ?_, fun fires hfires k t h0 hk => ?_, ?_⟩
  · obtain ⟨hlow, hhigh⟩ := FloorCarry.carry_offered (hoffer k)
    rw [← (hloop k).carry] at hlow hhigh
    refine ⟨(hloop k).seq, ?_, hlow, hhigh, ?_⟩
    · rw [(hloop k).carry, (hloop k).seq]
      rfl
    · rw [(hloop k).stamped, (hloop k).seq]
  · rw [(hloop j).seq, (hloop k).seq, sub_mul]
    exact FloorCarry.abs_emitted_sub_lt (hoffer j) (hoffer k)
  · exact bits_sent_le bitrate hp h0 fun h1 => (hfires k h1).trans (hk h1)
  · rintro neg net₀ net d t0 s rfl rfl hrun hd
    exact Drive.bits_sent_le hrun hd

/-- A second of the default load in packets of the default size. -/
theorem pacing_exact_gigabit :
    (SendLoop.after (packetsPerTick 1000000000 1472 TICKS_PER_SEC) 1000).seq = 84918 := by
  rw [((pacing_exact 1000000000 1472 (by decide)).1 1000).1, Nat.floor_eq_iff]
  · have hbits : ((1000000000 : U64).toNat : ℚ) = 1000000000 := rfl
    have hsize : ((1472 : Usize).toNat : ℚ) = 1472 := rfl
    have hticks : ((TICKS_PER_SEC.toNat : ℕ) : ℚ) = 1000 := rfl
    simp only [packetsPerTick, hbits, hsize, hticks]
    norm_num
  · exact mul_nonneg (Nat.cast_nonneg _) (packetsPerTick_nonneg _ _ _)

end Andri.Udp

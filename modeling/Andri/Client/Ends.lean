/-
  Andri.Client.Ends

  A client whose server is gone ends.  Once the control connection is closed and
  the data connections are lost, no program point waits: a read meets the end of
  what was sent, a write that finds no room fails, and all else waits for time
  only.  And no run goes on: the stages of `connect` come first, inside a drive
  the room left on the streams, the ticks left before the deadline, or the bytes
  missing of the file.

  With a data connection neither read nor lost, a write that finds no room would
  wait for good.
-/
import Andri.Client.Exit
import Andri.Lib.Inevitable

namespace Andri

open Lib

/-! ## The sampler -/

/-- Steps a sampler of `n` counters can take.  A tick that is not the last comes inside the
    window, and the next one is due a second later. -/
def Sampler.cost (t0 window n : ℕ) : Sampler → ℕ
  | .spawned => (n + 2) * (t0 + window + 1) + n + 3
  | .baseline next k _ => (n + 2) * (t0 + window - next + 1) + (n - k) + 1
  | .waiting l => (n + 2) * (t0 + window - l.next + 1)
  | .reading l now k _ =>
      (if window ≤ now - t0 then 0 else (n + 2) * (t0 + window - l.next + 1)) + (n - k) + 1
  | .returned _ => 0

theorem Sampler.Step.cost_lt {t0 window clock clock' : ℕ} {counters : List ℕ} {s s' : Sampler}
    (h : Step t0 window counters clock s clock' s') :
    s'.cost t0 window counters.length < s.cost t0 window counters.length := by
  cases h with
  | poll =>
      have hticks : (counters.length + 2) * (t0 + window - (clock' + SECOND) + 1) ≤
          (counters.length + 2) * (t0 + window + 1) := Nat.mul_le_mul_left _ (by omega)
      simp only [cost]
      omega
  | baselineLoad hk =>
      have hlt := (List.getElem?_eq_some_iff.mp hk).1
      simp only [cost]
      omega
  | baselineDone =>
      simp only [cost]
      omega
  | @tick _ l hnow hdue =>
      have hsecond := SECOND_pos
      have hround : counters.length + 2 ≤ (counters.length + 2) * (t0 + window - l.next + 1) :=
        Nat.le_mul_of_pos_right _ (Nat.succ_pos _)
      simp only [cost]
      split
      · omega
      -- inside the window, the tick after it is due later
      · next hwithin =>
          have hticks : (counters.length + 2) * (t0 + window - (l.next + SECOND) + 1 + 1) ≤
              (counters.length + 2) * (t0 + window - l.next + 1) := by
            apply Nat.mul_le_mul_left
            omega
          rw [Nat.mul_add_one] at hticks
          omega
  | load hk =>
      have hlt := (List.getElem?_eq_some_iff.mp hk).1
      simp only [cost]
      omega
  | @record now k sum l hk =>
      by_cases hpast : window ≤ now - t0
      · simp only [cost, if_pos hpast]
        omega
      · simp only [cost, if_neg hpast, SampleLoop.record]
        omega

/-! ## Drives -/

/-- Program points of a drive that are behind one another. -/
def DriveState.stage : DriveState → ℕ
  | .tcp (.connecting _) | .udp .starting | .file .connecting => 2
  | .tcp .returned | .udp .returned | .file .returned => 0
  | _ => 1

/-- Bytes a stream still takes that nobody reads. -/
def Conn.room (cap : ℕ) (c : Conn) : ℕ := cap + c.taken - c.sent

/-- Steps a send loop can take but for the bytes it writes. -/
def Tcp.SendLoop.cost : Tcp.SendLoop → ℕ
  | .checking => 2
  | .writing left => if left = 0 then 3 else 1
  | .returned => 0

/-- Steps the tasks of a sending client can take. -/
def Tcp.Senders.cost (neg : Negotiate) (cap : ℕ) (conns : List Conn) (t : Tcp.Senders) : ℕ :=
  (t.loops.map SendLoop.cost).sum + 3 * (conns.map (Conn.room cap)).sum +
    match t.sampler with
    | some s => s.cost t.t0 (Tcp.total neg) t.counters.length
    | none => 0

/-- Ticks a pacing loop can still take: none that is due after the end, but for one it has
    checked for. -/
def Udp.Drive.ticks (neg : Negotiate) (clock : ℕ) : Udp.Drive → ℕ
  | .ticking t0 next _ => t0 + Udp.total neg - next + 1
  | .checking t0 next _ | .bursting t0 next _ =>
      if t0 + Udp.total neg ≤ clock then 0 else t0 + Udp.total neg - next + 1
  | _ => 0

/-- Steps left inside a tick. -/
def Udp.Drive.burstLeft : Udp.Drive → ℕ
  | .bursting _ _ s => s.toSend + 2
  | .checking _ _ _ => 1
  | _ => 0

/-- Bytes of the file not taken in hand. -/
def File.Drive.missing (neg : Negotiate) : File.Drive → ℕ
  | .looping sent => File.expected neg - sent
  | .writing sent chunk _ => File.expected neg - (sent + chunk)
  | _ => 0

/-- Steps left with the chunk in hand. -/
def File.Drive.chunkLeft : File.Drive → ℕ
  | .writing _ _ left => left + 1
  | _ => 0

/-- How far a drive is from its end: its stage, then what is left of its main loop, then
    what is left of one pass. -/
def DriveState.measure (neg : Negotiate) (cap : ℕ) (net : Net) (d : DriveState) : ℕ × ℕ × ℕ :=
  match d with
  | .tcp (.connecting k) => (2, neg.parallel.toNat - k, 0)
  | .tcp (.sending t) => (1, t.cost neg cap net.conns, 0)
  | .udp u => (d.stage, u.ticks neg net.clock, u.burstLeft)
  | .file f => (d.stage, f.missing neg, f.chunkLeft)
  | .tcp .returned => (0, 0, 0)

/-- The lexicographic order. -/
abbrev Below : ℕ × ℕ × ℕ → ℕ × ℕ × ℕ → Prop :=
  Prod.Lex (· < ·) (Prod.Lex (· < ·) (· < ·))

theorem below_wf : WellFounded Below :=
  WellFounded.prod_lex Nat.lt_wfRel.wf (WellFounded.prod_lex Nat.lt_wfRel.wf Nat.lt_wfRel.wf)

section Measure

variable {neg : Negotiate} {cap : ℕ} {quiet : Bool} {listening : Prop} {net net' : Net}

/-- A loop that moves on, with its stream as it was. -/
theorem Tcp.Senders.cost_setLoop (neg : Negotiate) (cap : ℕ) (conns : List Conn) {t : Senders}
    {i : ℕ} {l l' : SendLoop} (hl : t.loops[i]? = some l) (hlt : l'.cost < l.cost) :
    ({ t with loops := t.loops.set i l' } : Senders).cost neg cap conns < t.cost neg cap conns := by
  have hsum := sum_map_set SendLoop.cost hl l'
  simp only [cost]
  omega

/-- A stream closed takes as much as before. -/
theorem sum_room_close (cap : ℕ) {conns : List Conn} {i : ℕ} {c : Conn} (hc : conns[i]? = some c) :
    ((conns.set i { c with closed := true }).map (Conn.room cap)).sum =
      (conns.map (Conn.room cap)).sum := by
  have hsum := sum_map_set (Conn.room cap) hc { c with closed := true }
  simp only [Conn.room] at hsum ⊢
  omega

theorem Tcp.Drive.Step.below {d d' : Tcp.Drive} (hbuf : 0 < neg.bufferBytes.toNat)
    (h : Tcp.Drive.Step neg quiet cap listening net d net' d') :
    Below ((DriveState.tcp d').measure neg cap net') ((DriveState.tcp d).measure neg cap net) := by
  simp only [Below, Prod.lex_def]
  cases h with
  | @connect k hk hl =>
      refine .inr ⟨rfl, .inl ?_⟩
      show neg.parallel.toNat - (k + 1) < neg.parallel.toNat - k
      omega
  | spawn hk hnow => exact .inl Nat.one_lt_two
  | check hl hnow hbefore =>
      refine .inr ⟨rfl, .inl (Senders.cost_setLoop _ _ _ hl ?_)⟩
      simp only [SendLoop.cost, if_neg hbuf.ne']
      exact Nat.one_lt_two
  | @finish t i now c hl hc hnow hpast =>
      refine .inr ⟨rfl, .inl ?_⟩
      have hcost : SendLoop.returned.cost < SendLoop.checking.cost := Nat.two_pos
      have hloop := Senders.cost_setLoop neg cap net.conns hl hcost
      simp only [DriveState.measure, Senders.cost, setConn, sum_room_close cap hc] at hloop ⊢
      exact hloop
  | @write t i left n c hl hc hopen hn hleft hroom =>
      refine .inr ⟨rfl, .inl ?_⟩
      -- the room taken outweighs what the loop has still to do
      have hloops := sum_map_set SendLoop.cost hl (.writing (left - n))
      have hconns := sum_map_set (Conn.room cap) hc { c with sent := c.sent + n }
      have hcost : (SendLoop.writing (left - n)).cost ≤ 3 := by
        simp only [SendLoop.cost]
        split <;> omega
      have hone : (SendLoop.writing left).cost = 1 := by
        simp only [SendLoop.cost]
        rw [if_neg (by omega)]
      simp only [Conn.room, Conn.unread] at hconns hroom
      simp only [DriveState.measure, Senders.cost, setConn]
      omega
  | @wrote t i b hl hb =>
      refine .inr ⟨rfl, .inl ?_⟩
      have hcost : SendLoop.checking.cost < (SendLoop.writing 0).cost := Nat.lt_succ_self 2
      have hloop := Senders.cost_setLoop neg cap net.conns hl hcost
      simp only [DriveState.measure, Senders.cost, List.length_set] at hloop ⊢
      exact hloop
  | @sampler t clock' s s' hs h =>
      refine .inr ⟨rfl, .inl ?_⟩
      have hcost := h.cost_lt
      simp only [DriveState.measure, Senders.cost, hs]
      omega
  | join hj => exact .inl Nat.zero_lt_one

/-- A datagram leaves the tick with less to send, later or not. -/
theorem Udp.Drive.below_send {clock clock' t0 next : ℕ} {s : SendLoop} (hclock : clock ≤ clock')
    (hmore : 0 < s.toSend) :
    (bursting t0 next s.send).ticks neg clock' < (bursting t0 next s).ticks neg clock ∨
    (bursting t0 next s.send).ticks neg clock' = (bursting t0 next s).ticks neg clock ∧
      (bursting t0 next s.send).burstLeft < (bursting t0 next s).burstLeft := by
  have hticks : (bursting t0 next s.send).ticks neg clock' ≤
      (bursting t0 next s).ticks neg clock := by
    simp only [ticks]
    split <;> split <;> omega
  have hburst : (bursting t0 next s.send).burstLeft < (bursting t0 next s).burstLeft := by
    simp only [burstLeft, SendLoop.send]
    omega
  exact (Nat.lt_or_eq_of_le hticks).imp_right fun h => ⟨h, hburst⟩

theorem Udp.Drive.Step.below {d d' : Udp.Drive} (h : Udp.Drive.Step neg net d net' d') :
    Below ((DriveState.udp d').measure neg cap net') ((DriveState.udp d).measure neg cap net) := by
  simp only [Below, Prod.lex_def]
  cases h with
  | start | finish => exact .inl (by simp [DriveState.measure, DriveState.stage])
  | @go t0 next now s hnow hbefore =>
      have hclock : ¬ t0 + total neg ≤ net.clock := by omega
      refine .inr ⟨rfl, ?_⟩
      simp [DriveState.measure, ticks, burstLeft, hclock]
  | @tick t0 next now s hnow hdue =>
      have htick : 0 < TICK := by decide
      refine .inr ⟨rfl, .inl ?_⟩
      simp only [DriveState.measure, ticks]
      split <;> omega
  | send hmore hnow => exact .inr ⟨rfl, below_send hnow hmore⟩
  | lose hmore hnow => exact .inr ⟨rfl, below_send hnow hmore⟩
  | sent hnone =>
      refine .inr ⟨rfl, ?_⟩
      simp [DriveState.measure, ticks, burstLeft]

theorem File.Drive.Step.below {d d' : File.Drive}
    (h : File.Drive.Step neg cap listening net d net' d') :
    Below ((DriveState.file d').measure neg cap net')
      ((DriveState.file d).measure neg cap net) := by
  simp only [Below, Prod.lex_def]
  cases h with
  | connect | finish => exact .inl (by simp [DriveState.measure, DriveState.stage])
  | chunk hmore hn =>
      have hbounds := hn.bounds hmore
      refine .inr ⟨rfl, .inl ?_⟩
      simp only [DriveState.measure, missing]
      omega
  | write hc hopen hn hleft hroom =>
      refine .inr ⟨rfl, .inr ⟨rfl, ?_⟩⟩
      simp only [DriveState.measure, chunkLeft]
      omega
  | wrote => simp [DriveState.measure, DriveState.stage, missing, chunkLeft]

theorem DiskStep.below {d d' : File.Drive} (h : DiskStep neg net d net' d') :
    Below ((DriveState.file d').measure neg cap net')
      ((DriveState.file d).measure neg cap net) := by
  simp only [Below, Prod.lex_def]
  cases h with
  | overread hmore hdisk hn hbuf =>
      refine .inr ⟨rfl, .inl ?_⟩
      simp only [DriveState.measure, File.Drive.missing]
      omega
  | eof => exact .inl (by simp [DriveState.measure, DriveState.stage])

/-- A drive's measure goes into the process's. -/
theorem below_add {k : ℕ} {a b : ℕ × ℕ × ℕ} (h : Below a b) :
    Below (k + a.1, a.2) (k + b.1, b.2) := by
  simp only [Below, Prod.lex_def] at h ⊢
  omega

/-- A stream whose write fails is dropped with its loop. -/
theorem Tcp.Senders.cost_drop {t : Senders} {i left : ℕ} {c : Conn}
    (hl : t.loops[i]? = some (.writing left)) (hc : net.conns[i]? = some c) :
    ({ t with loops := t.loops.set i .returned } : Senders).cost neg cap
      (setConn net i { c with closed := true }).conns < t.cost neg cap net.conns := by
  have hcost : SendLoop.returned.cost < (SendLoop.writing left).cost := by
    simp only [SendLoop.cost]
    split <;> omega
  have hloop := cost_setLoop neg cap net.conns hl hcost
  simp only [cost, setConn, sum_room_close cap hc] at hloop ⊢
  exact hloop

end Measure

/-! ## The process -/

/-- What is left of a client: its program points, and inside a drive the drive. -/
def Process.measure (cap : ℕ) (w : Process) : ℕ × ℕ × ℕ :=
  match w.point with
  | .resolving => (27, 0, 0)
  | .dialing _ => (26, 0, 0)
  | .talking neg (.driving _ d) =>
      (10 + (d.measure neg cap w.net).1, (d.measure neg cap w.net).2)
  | .talking _ p => (3 * p.rank + 1, 0, 0)
  | .returned _ => (0, 0, 0)

/-- The process has ended. -/
def Process.Exited (w : Process) : Prop := ∃ o, w.point = .returned o

/-- The send loops of a client are those of its streams. -/
def Process.Placed (w : Process) : Prop :=
  ∀ neg s d, w.point = .talking neg (.driving s (.tcp d)) → d.Placed neg w.net

/-- Dropping a stream with its loop keeps the others together. -/
theorem Tcp.Senders.Placed.drop {neg : Negotiate} {net : Net} {t : Senders} {i left : ℕ} {c : Conn}
    (h : t.Placed neg net) (hl : t.loops[i]? = some (.writing left)) :
    ({ t with loops := t.loops.set i .returned } : Senders).Placed neg
      (setConn net i { c with closed := true }) := by
  refine ⟨by simpa [setConn] using h.conns, by simpa using h.loops, h.counters,
    fun j c' hc' hj => ?_, h.sampler⟩
  by_cases hij : i = j
  · subst hij
    exact absurd (List.getElem?_set_self (List.getElem?_eq_some_iff.mp hl).1) hj
  · simp only [setConn, List.getElem?_set_ne hij] at hc'
    exact h.opened j c' hc' (by rwa [List.getElem?_set_ne hij] at hj)

section Process

variable {launch : Launch} {w w' : Process}

theorem Process.Placed.call (h : w.Placed) (ht : w.Traced launch)
    (hstep : CallStep launch w w') : w'.Placed := by
  intro neg s d hp'
  cases hstep with
  | resolve | dial | driven | print => cases hp'
  | read hp htake hq => cases ClientPhase.onRead_cases hq <;> cases hp'
  | @write neg' p q m hp hq =>
      -- the drive is entered before anything has been opened
      have hhist := ht.history
      rw [hp] at hhist
      obtain ⟨-, -, hsaid, -⟩ := hhist
      cases p with
      | starting start =>
          cases hq
          have hrun : .run ∉ w.ctrl.written := by
            rw [show w.ctrl.written = [.hello clientHello, .negotiate neg'] from hsaid]
            simp
          have hquiet := ht.quiet hrun
          have hentry : _ ∧ DriveState.Placed neg' w.net (.entry neg'.mode) :=
            DriveState.placed_entry hquiet.1 neg'.mode
          cases hmode : neg'.mode with
          | tcp =>
              rw [hmode] at hentry
              rw [show ({ w.goto _ with ctrl := _ } : Process).point = _ from rfl, hmode] at hp'
              cases hp'
              exact hentry.2
          | udp | file =>
              rw [show ({ w.goto _ with ctrl := _ } : Process).point = _ from rfl, hmode] at hp'
              cases hp'
      | greeting | negotiating | stopping =>
          cases hq
          cases hp'
      | awaitingWelcome | awaitingStart | driving | awaitingResult | done | failed => cases hq
  | drive hp hd =>
      cases hd with
      | tcp hd =>
          cases hp'
          exact hd.placed (h _ _ _ hp)
      | udp | file => cases hp'
  | disk => cases hp'

theorem Process.Placed.error (h : w.Placed) (hstep : ErrorStep launch w w') : w'.Placed := by
  intro neg s d hp'
  cases hstep with
  | stream hp hl hleft hc =>
      cases hp'
      exact Tcp.Senders.Placed.drop (h _ _ _ hp) hl
  | refuse | dial | read | write | drive | leave | encode => cases hp'

theorem Process.Placed.server (h : w.Placed) (hstep : ServerMove w w') : w'.Placed := by
  intro neg s d hp'
  cases hstep with
  | send | close | reset => exact h neg s d hp'
  | take hc hn => exact (h neg s d hp').congr (peerSide_set hc rfl)
  | wait hnow => exact (h neg s d hp').congr rfl
  | drop => exact h neg s d hp'

theorem Launched.placed (h : Launched launch w) : w.Placed := by
  have hinv : Launched launch w ∧ w.Placed := by
    refine Reachable.invariant h (I := fun w => Launched launch w ∧ w.Placed) (fun w hw => ?_)
      fun w w' hw hstep => ?_
    · subst hw
      exact ⟨Reachable.start rfl, fun neg s d hp => by cases hp⟩
    · refine ⟨hw.1.next hstep, ?_⟩
      rcases hstep with (hcall | herror) | hserver
      · exact hw.2.call hw.1.traced hcall
      · exact hw.2.error herror
      · exact hw.2.server hserver
  exact hinv.2

/-- Past its connect, a file's drive has a stream. -/
def Process.Streaming (w : Process) : Prop :=
  ∀ neg s d, w.point = .talking neg (.driving s (.file d)) → d ≠ .connecting → w.net.conns ≠ []

theorem Process.Streaming.call (h : w.Streaming) (hstep : CallStep launch w w') :
    w'.Streaming := by
  intro neg s d hp' hd'
  cases hstep with
  | resolve | dial | driven | print => cases hp'
  | read hp htake hq => cases ClientPhase.onRead_cases hq <;> cases hp'
  | @write neg' p q m hp hq =>
      cases p with
      | starting start =>
          cases hq
          rw [show ({ w.goto _ with ctrl := _ } : Process).point = _ from rfl] at hp'
          -- the drive is at its entry
          cases hmode : neg'.mode <;> rw [hmode] at hp' <;> cases hp'
          exact absurd rfl hd'
      | greeting | negotiating | stopping =>
          cases hq
          cases hp'
      | awaitingWelcome | awaitingStart | driving | awaitingResult | done | failed => cases hq
  | drive hp hd =>
      cases hd with
      | tcp | udp => cases hp'
      | file hd =>
          cases hp'
          cases hd with
          | connect => exact List.append_ne_nil_of_right_ne_nil _ (List.cons_ne_nil _ _)
          | chunk | wrote => exact h _ _ _ hp File.Drive.noConfusion
          | write hc | finish _ hc =>
              have hconns := h _ _ _ hp File.Drive.noConfusion
              exact fun hnil => hconns ((List.set_eq_nil_iff _ _).mp hnil)
  | disk hp hd =>
      cases hp'
      cases hd with
      | overread => exact h _ _ _ hp File.Drive.noConfusion
      | eof =>
          have hconns := h _ _ _ hp File.Drive.noConfusion
          exact fun hnil => hconns ((List.set_eq_nil_iff _ _).mp hnil)

theorem Launched.streaming (h : Launched launch w) : w.Streaming := by
  refine Reachable.invariant h (fun w hw => ?_) fun w w' hw hstep => ?_
  · subst hw
    exact fun neg s d hp => by cases hp
  · rcases hstep with (hcall | herror) | hserver
    · exact hw.call hcall
    · cases herror <;> exact fun neg s d hp' => by cases hp'
    · intro neg s d hp' hd
      cases hserver with
      | send | close | reset | drop | wait => exact hw neg s d hp' hd
      | take => exact fun hnil => hw neg s d hp' hd ((List.set_eq_nil_iff _ _).mp hnil)

/-! ## Every run ends -/

/-- The server is gone: the control connection is closed, and every data connection lost, the
    ones included that a call of the client still opens. -/
structure Process.Abandoned (w : Process) : Prop where
  control : w.ctrl.closed = true
  data : ∀ i, i ∈ w.lost

/-- The request a client works for. -/
theorem Launched.buildable (h : Launched launch w) {neg : Negotiate} {p : ClientPhase}
    (hp : w.point = .talking neg p) : neg.Buildable := by
  have hhist := h.traced.history
  rw [hp] at hhist
  obtain ⟨len, hlen, -⟩ := Cli.request_ok hhist.1
  exact ClientOpts.buildable hlen

theorem CallStep.below (h : Launched launch w) (hstep : CallStep launch w w') :
    Below (w'.measure launch.cap) (w.measure launch.cap) := by
  cases hstep with
  | resolve hp | dial hp =>
      simp only [Process.measure, hp]
      exact .left _ _ (by decide)
  | @read neg p q m c' hp htake hq =>
      simp only [Process.measure, hp]
      cases ClientPhase.onRead_cases hq with
      | welcome | start | result => exact .left _ _ (by simp [ClientPhase.rank])
      | refused hreads =>
          cases p with
          | awaitingWelcome | awaitingStart | awaitingResult =>
              exact .left _ _ (by simp [ClientPhase.rank])
          | greeting | negotiating | starting | driving | stopping | done | failed =>
              exact hreads.elim
  | @write neg p q m hp hq =>
      simp only [Process.measure, hp]
      cases p with
      | greeting | negotiating | stopping =>
          cases hq
          exact .left _ _ (by simp [ClientPhase.rank])
      | starting =>
          cases hq
          refine .left _ _ ?_
          cases hmode : neg.mode <;>
            simp [Process.goto, DriveState.entry, DriveState.measure, DriveState.stage,
              ClientPhase.rank]
      | awaitingWelcome | awaitingStart | driving | awaitingResult | done | failed => cases hq
  | @drive neg start d d' net' hp hd =>
      have hbelow : Below (d'.measure neg launch.cap net') (d.measure neg launch.cap w.net) := by
        cases hd with
        | tcp hd =>
            refine hd.below ?_
            rw [show (launch.setup neg).neg.bufferBytes = _ from (h.buildable hp).bufferBytes]
            decide
        | udp hd => exact hd.below
        | file hd => exact hd.below
      simp only [Process.measure, hp]
      exact below_add hbelow
  | @disk neg start d d' net' hp hd =>
      simp only [Process.measure, hp]
      exact below_add hd.below
  | driven hp hd =>
      simp only [Process.measure, hp]
      refine .left _ _ ?_
      simp only [ClientPhase.rank]
      omega
  | print hp =>
      simp only [Process.measure, hp]
      exact .left _ _ (by simp [ClientPhase.rank])

theorem ErrorStep.below (hstep : ErrorStep launch w w') :
    Below (w'.measure launch.cap) (w.measure launch.cap) := by
  cases hstep with
  | refuse hp | dial hp e | drive hp hd e | leave hp | encode hp hjson e =>
      simp only [Process.measure, hp]
      exact .left _ _ (by simp)
  | @read neg p e c' hp hreads htake =>
      simp only [Process.measure, hp]
      cases p with
      | awaitingWelcome | awaitingStart | awaitingResult => exact .left _ _ (by simp)
      | greeting | negotiating | starting | driving | stopping | done | failed =>
          exact hreads.elim
  | @write neg p q m hp hq e =>
      simp only [Process.measure, hp]
      cases p with
      | greeting | negotiating | stopping | starting => exact .left _ _ (by simp)
      | awaitingWelcome | awaitingStart | driving | awaitingResult | done | failed => cases hq
  | stream hp hl hleft hc =>
      simp only [Process.measure, hp]
      exact .right _ (.left _ _ (Tcp.Senders.cost_drop hl hc))

/-- A send loop that has not returned goes on, or its write fails with its stream. -/
theorem Launched.exists_stream (h : Launched launch w) (hgone : w.Abandoned) {neg : Negotiate}
    {start : Start} {t : Tcp.Senders}
    (hp : w.point = .talking neg (.driving start (.tcp (.sending t))))
    {l : Tcp.SendLoop} (hl : l ∈ t.loops) (hne : l ≠ .returned) : ∃ w', Move launch w w' := by
  have hplaced : t.Placed neg w.net := h.placed neg start _ hp
  obtain ⟨i, hi⟩ := List.mem_iff_getElem?.mp hl
  have hlt : i < neg.parallel.toNat := hplaced.loops ▸ (List.getElem?_eq_some_iff.mp hi).1
  have hconn := List.getElem?_eq_getElem (hplaced.conns.symm ▸ hlt)
  by_cases hwriting : ∃ left, l = .writing left ∧ 0 < left
  · obtain ⟨left, rfl, hleft⟩ := hwriting
    exact ⟨_, .inr (.stream hp hi hleft hconn (hgone.data i))⟩
  · have hroom : ∀ left c, l = .writing left → 0 < left → w.net.conns[i]? = some c →
        c.unread < launch.cap := fun left c hw hleft => absurd ⟨left, hw, hleft⟩ hwriting
    obtain ⟨net', d', hd, -⟩ := Tcp.Senders.Placed.exists_send hplaced hi hne hroom
    exact ⟨_, .inl (.drive hp (.tcp hd))⟩

/-- A drive that has not returned goes on.  Only a write may find no room, and then its
    connection is lost. -/
theorem Launched.exists_driving (h : Launched launch w) (hgone : w.Abandoned) {neg : Negotiate}
    {start : Start} {d : DriveState} (hp : w.point = .talking neg (.driving start d)) :
    ∃ w', Move launch w w' := by
  by_cases hret : d.Returned
  · exact ⟨_, .inl (.driven hp hret)⟩
  cases d with
  | udp u =>
      have hne : u ≠ .returned := fun hu => hret (by rw [hu]; trivial)
      obtain ⟨net', u', hu, -⟩ := Udp.Drive.exists_step neg w.net hne
      exact ⟨_, .inl (.drive hp (.udp hu))⟩
  | file f =>
      cases f with
      | returned => exact absurd trivial hret
      | connecting => exact ⟨_, .inl (.drive hp (.file (.connect trivial)))⟩
      | looping sent =>
          by_cases hmore : sent < File.expected neg
          · obtain ⟨n, hn⟩ := File.exists_chunk neg hmore
            exact ⟨_, .inl (.drive hp (.file (.chunk hmore hn)))⟩
          · have hconns := h.streaming neg start _ hp File.Drive.noConfusion
            obtain ⟨c, rest, hc⟩ := List.exists_cons_of_ne_nil hconns
            have hfirst : w.net.conns[0]? = some c := by rw [hc]; rfl
            exact ⟨_, .inl (.drive hp (.file (.finish (not_lt.mp hmore) hfirst)))⟩
      | writing sent chunk left =>
          rcases Nat.eq_zero_or_pos left with rfl | hleft
          · exact ⟨_, .inl (.drive hp (.file .wrote))⟩
          · exact ⟨_, .inr (.drive hp ⟨hleft, hgone.data 0⟩ earlyEof)⟩
  | tcp t =>
      have hplaced := h.placed neg start t hp
      cases t with
      | returned => exact absurd trivial hret
      | connecting k =>
          rcases Nat.lt_or_eq_of_le hplaced.2.1 with hlt | hk
          · exact ⟨_, .inl (.drive hp (.tcp (.connect hlt trivial)))⟩
          · exact ⟨_, .inl (.drive hp (.tcp (.spawn hk le_rfl)))⟩
      | sending t =>
          by_cases hall : ∀ l ∈ t.loops, l = .returned
          · obtain ⟨net', d', hd, -⟩ := Tcp.Senders.Placed.exists_join hplaced hall
            exact ⟨_, .inl (.drive hp (.tcp hd))⟩
          · push Not at hall
            obtain ⟨l, hl, hne⟩ := hall
            exact h.exists_stream hgone hp hl hne

/-- Once its server is gone, a client that has not ended moves. -/
theorem Launched.exists_move (h : Launched launch w) (hgone : w.Abandoned)
    (hout : ¬ w.Exited) : ∃ w', Move launch w w' := by
  cases hp : w.point with
  | resolving =>
      cases hreq : launch.cli.request launch.fileLen with
      | ok neg => exact ⟨_, .inl (.resolve hp hreq)⟩
      | error e => exact ⟨_, .inr (.refuse hp hreq)⟩
  | dialing neg => exact ⟨_, .inl (.dial hp)⟩
  | returned o => exact absurd ⟨o, hp⟩ hout
  | talking neg p =>
      obtain ⟨x, c', htake⟩ := Ctrl.exists_take hgone.control
      cases p with
      | greeting | negotiating | starting | stopping => exact ⟨_, .inl (.write hp rfl)⟩
      | awaitingWelcome | awaitingStart | awaitingResult =>
          cases x with
          | error e => exact ⟨_, .inr (.read hp trivial htake)⟩
          | ok m => cases m <;> exact ⟨_, .inl (.read hp htake rfl)⟩
      | driving start d => exact h.exists_driving hgone hp
      | done r => exact ⟨_, .inl (.print hp)⟩
      | failed e => exact ⟨_, .inr (.leave hp)⟩

/-- A client takes no part in what it is sent. -/
theorem Move.frame (hstep : Move launch w w') :
    w'.ctrl.closed = w.ctrl.closed ∧ w'.lost = w.lost ∧
    ∀ m, .ok m ∈ w'.ctrl.read ++ w'.ctrl.inbox → .ok m ∈ w.ctrl.read ++ w.ctrl.inbox := by
  have htaken : ∀ {x : Input} {c c' : Ctrl}, c.take = some (x, c') → c'.closed = c.closed ∧
      ∀ m, .ok m ∈ c'.read ++ c'.inbox → .ok m ∈ c.read ++ c.inbox := by
    intro x c c' htake
    rcases Ctrl.take_eq_some htake with ⟨rest, hinbox, rfl⟩ | ⟨hinbox, -, rfl, rfl⟩
    · exact ⟨rfl, fun m hm => by simpa [hinbox] using hm⟩
    · exact ⟨rfl, fun m hm => by simpa [hinbox] using hm⟩
  rcases hstep with hcall | herror
  · cases hcall with
    | read hp htake hq => exact ⟨(htaken htake).1, rfl, (htaken htake).2⟩
    | resolve | dial | write | drive | disk | driven | print => exact ⟨rfl, rfl, fun m hm => hm⟩
  · cases herror with
    | read hp hreads htake => exact ⟨(htaken htake).1, rfl, (htaken htake).2⟩
    | refuse | dial | write | drive | stream | leave | encode => exact ⟨rfl, rfl, fun m hm => hm⟩

theorem Process.Abandoned.move (h : w.Abandoned) (hstep : Move launch w w') : w'.Abandoned :=
  ⟨hstep.frame.1.trans h.control, fun i => hstep.frame.2.1 ▸ h.data i⟩

/-- No departed server wedges a client: once it has closed the control connection and the
    data connections, every run of the client ends, at every program point, whichever of
    its calls fail.  It ends with success only if the Result was there when the server
    left. -/
theorem client_ends (h : Launched launch w) (hgone : w.Abandoned) :
    Inevitable (Move launch) Process.Exited w ∧
    ∀ w' o, Run (Move launch) w w' → w'.point = .returned o → exitCode o = .SUCCESS →
      ∃ r, .ok (.result r) ∈ w.ctrl.read ++ w.ctrl.inbox := by
  refine ⟨?_, fun w' o hrun ho hcode => ?_⟩
  · refine inevitable_of_rank (I := fun w => Launched launch w ∧ w.Abandoned) below_wf
      (Process.measure launch.cap) (fun w hw hout => hw.1.exists_move hw.2 hout)
      (fun w w' hw hstep => ⟨⟨hw.1.next (.inl hstep), hw.2.move hstep⟩, ?_⟩) ⟨h, hgone⟩
    rcases hstep with hcall | herror
    · exact hcall.below hw.1
    · exact herror.below
  · have hlast : Launched launch w' ∧
        ∀ m, .ok m ∈ w'.ctrl.read ++ w'.ctrl.inbox → .ok m ∈ w.ctrl.read ++ w.ctrl.inbox := by
      refine run_invariant (I := fun v => Launched launch v ∧
        ∀ m, .ok m ∈ v.ctrl.read ++ v.ctrl.inbox → .ok m ∈ w.ctrl.read ++ w.ctrl.inbox)
        (fun v v' hv hstep => ⟨hv.1.next (.inl hstep), fun m hm => hv.2 m (hstep.frame.2.2 m hm)⟩)
        hrun ⟨h, fun m hm => hm⟩
    obtain ⟨neg, g, s, r, -, -, -, hread, -⟩ := hlast.1.success ho hcode
    exact ⟨r, hlast.2 _ (by simp [hread])⟩

end Process

/-- A client that sends five bytes over a connection that holds one. -/
def fiveByteLaunch : Launch where
  cli := ⟨⟨false, false, some "five"⟩, fiveByteOpts, rfl⟩
  fileLen _ := .ok 5
  cap := 1

/-- It has written one byte and waits for room, and the server leaves. -/
def Process.stalled : Process where
  point := .talking fiveBytes (.driving ⟨5202, SERVER_SEED⟩ (.file (.writing 0 5 4)))
  ctrl :=
    { inbox := []
      closed := true
      read := [.ok (.welcome (welcomeTo clientHello)), .ok (.start ⟨5202, SERVER_SEED⟩)]
      written := [.hello clientHello, .negotiate fiveBytes, .run] }
  net := { Net.init with conns := [{ Conn.fresh with sent := 1 }] }
  lost := ∅ ∪ Set.univ
  printed := none

theorem stalled_launched : Launched fiveByteLaunch .stalled := by
  have hinit : Launched fiveByteLaunch .init := Reachable.start rfl
  have hrequest : fiveByteLaunch.cli.request fiveByteLaunch.fileLen = .ok fiveBytes := rfl
  have h := hinit.next (.inl (.inl (.resolve rfl hrequest)))
  have h := h.next (.inl (.inl (.dial rfl)))
  have h := h.next (.inl (.inl (.write rfl rfl)))
  have h := h.next (.inr (.send (.ok (.welcome (welcomeTo clientHello))) rfl))
  have h := h.next (.inl (.inl (.read rfl rfl rfl)))
  have h := h.next (.inl (.inl (.write rfl rfl)))
  have h := h.next (.inr (.send (.ok (.start ⟨5202, SERVER_SEED⟩)) rfl))
  have h := h.next (.inl (.inl (.read rfl rfl rfl)))
  have h := h.next (.inl (.inl (.write rfl rfl)))
  have h := h.next (.inl (.inl (.drive rfl (.file (.connect trivial)))))
  have hchunk : File.Chunk fiveBytes 0 5 := rfl
  have h := h.next (.inl (.inl (.drive rfl (.file (.chunk (by decide) hchunk)))))
  have h := h.next (.inl (.inl (.drive rfl (.file
    (.write (n := 1) rfl rfl Nat.one_pos (by decide) (by decide))))))
  have h := h.next (.inr .close)
  exact h.next (.inr (.drop Set.univ))

/-- Its write fails, and so does the client. -/
theorem client_ends_stalled :
    Inevitable (Move fiveByteLaunch) Process.Exited .stalled ∧
    ∀ w' o, Run (Move fiveByteLaunch) .stalled w' → w'.point = .returned o →
      exitCode o ≠ .SUCCESS := by
  have hends := client_ends stalled_launched ⟨rfl, fun i => .inr trivial⟩
  refine ⟨hends.1, fun w' o hrun ho hcode => ?_⟩
  obtain ⟨r, hr⟩ := hends.2 w' o hrun ho hcode
  simp [Process.stalled] at hr

end Andri

/-
  Andri.Client.Progress

  When a client or its session waits, and that it gets closer to its end when it
  does not.  A party waits when its next step is a read of something not sent, an
  accept of a connection not opened, a write into a full connection, or a timer
  that the bytes missing keep going.
-/
import Andri.Client.Agreement

namespace Andri

open Lib

/-! ## Waiting -/

/-- A data path with nothing to do but wait for the other end. -/
def DataPath.Idle (neg : Negotiate) (net : Net) : DataPath → Prop
  | .tcp s => s.Idle neg net
  | .udp (.selecting _) => True
  | .udp _ => False
  | .file s => s.Idle neg net

/-- The phases with nothing to do but read from the control connection, and those
    with nothing left to do. -/
def Phase.Idle (net : Net) : Phase → Prop
  | .running neg path => path.Idle neg net
  | .greeting | .negotiating | .connecting _ | .draining _ | .closed | .panicked => True
  | .welcoming _ | .rejecting _ | .binding _ | .starting _ _ | .reporting _ => False

/-- The session waits: nothing to do, and no message for it. -/
def World.Waits (w : World) : Prop :=
  w.session.phase.Idle w.net ∧ (w.session.phase.wait ≠ none → w.ctrl.take = none)

/-- A drive waits to connect, or for room in every stream it has not finished. -/
def DriveState.Waits (su : Setup) (listening : Prop) (net : Net) : DriveState → Prop
  | .tcp (.connecting k) => k < su.neg.parallel.toNat ∧ ¬ listening
  | .tcp (.sending t) => t.Blocked su.cap net.conns
  | .tcp .returned => False
  | .udp _ => False
  | .file .connecting => ¬ listening
  | .file (.writing _ _ left) => 0 < left ∧ ∀ c, net.conns[0]? = some c → su.cap ≤ c.unread
  | .file _ => False

/-- The client waits, for an answer or in its drive, or has nothing left to do. -/
def Joint.ClientWaits (su : Setup) (j : Joint) : Prop :=
  match j.client with
  | .awaitingWelcome | .awaitingStart | .awaitingResult => j.world.ctrl.written[j.seen]? = none
  | .driving start d => d.Waits su (j.world.listensOn start) j.world.net
  | .done _ | .failed _ => True
  | .greeting | .negotiating | .starting _ | .stopping => False

/-- Both ends are through: the client has its Result, the session is over. -/
def Joint.Final (j : Joint) : Prop := (∃ r, j.client = .done r) ∧ j.world.Closed

/-! ## The server gets on unless it waits -/

/-- Steps until the loop has been left. -/
def Udp.Serve.rank : Udp.Serve → ℕ
  | .starting => 3
  | .selecting _ => 2
  | .stopped _ => 1
  | .returned _ => 0

/-- Steps until a data path returns. -/
def DataPath.rank (neg : Negotiate) : DataPath → ℕ
  | .tcp s => s.rank neg
  | .udp s => s.rank
  | .file s => s.rank neg

/-- What is left to do inside the data path. -/
def Phase.work : Phase → ℕ
  | .running neg path => path.rank neg
  | _ => 0

/-- The same, with the bytes still to be received. -/
def World.work (w : World) : ℕ := w.session.phase.work + w.net.unread

/-- One world is closer to the end than another: at a later phase, or further in
    the same. -/
def World.Closer (w' w : World) : Prop :=
  w'.session.phase.rank < w.session.phase.rank ∨
  (w'.session.phase.rank = w.session.phase.rank ∧ w'.work < w.work)

section Server

variable {neg : Negotiate} {w : World}

/-- A session that waits for a message goes on with it. -/
theorem Follows.exists_read (h : Follows neg w) {p : Wait} {x : Input} {c' : Ctrl}
    (hwait : w.session.phase.wait = some p) (htake : w.ctrl.take = some (x, c')) :
    ∃ w', ServerStep w w' ∧ w'.Closer w := by
  obtain ⟨q, hq⟩ := Session.exists_onRead hwait x
  refine ⟨_, .read htake hq, ?_⟩
  cases Session.onRead_cases hq with
  | hello hs | negotiate hs =>
      left
      show Phase.rank _ < _
      simp [hs, Phase.rank]
  | @run n hs =>
      left
      show (dispatch w.session n).rank < _
      rw [dispatch_eq (h.sound.history.bound n (by rw [hs]; rfl)), hs]
      simp [Phase.rank]
  | unexpected hs hne | failed hs hne =>
      left
      show Phase.rank _ < _
      rcases Phase.wait_cases hs hne with ⟨-, hs⟩ | ⟨-, hs⟩ | ⟨-, n, hs⟩ <;> simp [hs, Phase.rank]
  | @tcpStop n t x' hs hmain =>
      right
      refine ⟨by simp [hs, Phase.rank], ?_⟩
      simp only [World.work, Phase.work, hs, World.goto, DataPath.rank, Tcp.Serve.rank,
        Tcp.Main.rank, hmain]
      omega
  | udpStop hs =>
      right
      refine ⟨by simp [hs, Phase.rank], ?_⟩
      simp only [World.work, Phase.work, hs, World.goto, DataPath.rank, Udp.Serve.rank]
      omega
  | drained hs =>
      left
      show Phase.rank _ < _
      simp [hs, Phase.rank]

/-- A step of the path closer to its return brings the session closer to the end. -/
theorem exists_closer_of_data {n : Negotiate} {path path' : DataPath} {net' : Net}
    (hp : w.session.phase = .running n path) (hstep : DataStep n w.net path net' path')
    (hrank : path'.rank n + net'.unread < path.rank n + w.net.unread) :
    ∃ w', ServerStep w w' ∧ w'.Closer w := by
  refine ⟨_, .data hp hstep, .inr ⟨by simp [hp, Phase.rank], ?_⟩⟩
  simpa only [World.work, Phase.work, World.goto, hp] using hrank

/-- And so does its return. -/
theorem exists_closer_of_returned {n : Negotiate} {path : DataPath} {r : TestResult}
    (hp : w.session.phase = .running n path) (hr : path.returned = some r) :
    ∃ w', ServerStep w w' ∧ w'.Closer w := by
  refine ⟨_, .finish hp hr, .inl ?_⟩
  show (afterData path r).rank < _
  rcases afterData_cases path r with ha | ha <;> simp [ha, hp, Phase.rank]

/-- A data path that is not idle goes on, or has returned. -/
theorem Follows.exists_data (h : Follows neg w) (hlen : w.net.conns.length ≤ streams neg)
    {n : Negotiate} {path : DataPath} (hp : w.session.phase = .running n path)
    (hidle : ¬ path.Idle n w.net) : ∃ w', ServerStep w w' ∧ w'.Closer w := by
  obtain rfl : n = neg := h.request_eq (by rw [hp]; rfl)
  have hplaced := h.sound.data.during n path hp
  have hmode := h.mode_eq hp
  cases path with
  | tcp s =>
      by_cases hr : ∃ r, s = .returned r
      · obtain ⟨r, rfl⟩ := hr
        exact exists_closer_of_returned hp rfl
      · push Not at hr
        rw [streams, hmode] at hlen
        obtain ⟨net', s', hstep, hrank⟩ := Tcp.Serve.Placed.exists_step hplaced hlen hidle hr
        exact exists_closer_of_data hp (.tcp hstep) hrank
  | udp s =>
      cases s with
      | starting =>
          have hnow := le_refl w.net.clock
          refine exists_closer_of_data hp (.udp (.start hnow hnow)) ?_
          simp [DataPath.rank, Udp.Serve.rank, Net.unread]
      | selecting l => exact absurd trivial hidle
      | stopped l =>
          refine exists_closer_of_data hp (.udp (.finish (le_refl w.net.clock))) ?_
          simp [DataPath.rank, Udp.Serve.rank, Net.unread]
      | returned r => exact exists_closer_of_returned hp rfl
  | file s =>
      by_cases hr : ∃ r, s = .returned r
      · obtain ⟨r, rfl⟩ := hr
        exact exists_closer_of_returned hp rfl
      · push Not at hr
        obtain ⟨net', s', hstep, hrank⟩ := File.Serve.Placed.exists_step hplaced hidle hr
        have hunread := hstep.unread_le
        exact exists_closer_of_data hp (.file hstep) (by simp only [DataPath.rank]; omega)

/-- A session that does not wait gets closer to its end. -/
theorem Follows.exists_step (h : Follows neg w) (hlen : w.net.conns.length ≤ streams neg)
    (hw : ¬ w.Waits) : ∃ w', ServerStep w w' ∧ w'.Closer w := by
  by_cases hin : w.session.phase.wait ≠ none → w.ctrl.take = none
  · have hidle : ¬ w.session.phase.Idle w.net := fun hidle => hw ⟨hidle, hin⟩
    cases hp : w.session.phase with
    | greeting | negotiating | connecting | draining | closed | panicked =>
        rw [hp] at hidle
        exact absurd trivial hidle
    | rejecting err => exact absurd hp (h.not_rejecting err)
    | running n path =>
        rw [hp] at hidle
        exact h.exists_data hlen hp hidle
    | reporting r =>
        exact ⟨_, .write (by rw [hp]; rfl), .inl (by rw [hp]; exact Nat.one_pos)⟩
    | welcoming | binding | starting =>
        obtain ⟨w', hstep, hrank⟩ := h.sound.history.exists_step (by rw [hp]; trivial)
          (fun hwait => absurd (by rw [hp]; rfl) hwait)
        exact ⟨w', hstep, .inl hrank⟩
  · push Not at hin
    obtain ⟨hwait, htake⟩ := hin
    obtain ⟨p, hwait⟩ := Option.ne_none_iff_exists'.mp hwait
    obtain ⟨⟨x, c'⟩, htake⟩ := Option.ne_none_iff_exists'.mp htake
    exact h.exists_read hwait htake

end Server

/-! ## The client gets on unless it waits -/

/-- Program points left before the client is done. -/
def ClientPhase.rank : ClientPhase → ℕ
  | .greeting => 8
  | .awaitingWelcome => 7
  | .negotiating => 6
  | .awaitingStart => 5
  | .starting _ => 4
  | .driving _ _ => 3
  | .stopping => 2
  | .awaitingResult => 1
  | .done _ | .failed _ => 0

/-- Steps until a drive has returned. -/
def DriveState.rank (neg : Negotiate) : DriveState → ℕ
  | .tcp d => d.rank neg
  | .udp d => d.rank neg
  | .file d => d.rank neg

/-- What is left to do inside the drive. -/
def ClientPhase.work (neg : Negotiate) : ClientPhase → ℕ
  | .driving _ d => d.rank neg
  | _ => 0

/-- One client is closer to its end than another, with the session where it is. -/
def Joint.ClientCloser (su : Setup) (j' j : Joint) : Prop :=
  j'.world.session = j.world.session ∧
  (j'.client.rank < j.client.rank ∨
    (j'.client.rank = j.client.rank ∧
      j'.client.work su.neg + j'.world.net.unread < j.client.work su.neg + j.world.net.unread))

section Client

variable {su : Setup} {j : Joint}

/-- The announced port is the one bound for the data connections. -/
theorem Agree.listensOn (h : Agree su j) {start : Start} {d : DriveState}
    (hp : j.client = .driving start d) (hmode : su.neg.mode ≠ .udp) :
    j.world.listensOn start := by
  have hwritten : .start start ∈ j.world.ctrl.written := h.start start (by rw [hp]; rfl)
  have hport := h.session.sound.announced.started start hwritten
  have hbound := h.session.bound start hwritten
  -- outside UDP the socket announced is the listener
  have hnone : j.world.session.udpData = none := by
    rw [Session.Bound] at hbound
    cases hm : su.neg.mode with
    | tcp | file =>
        rw [hm] at hbound
        exact hbound.2
    | udp => exact absurd hm hmode
  rwa [Session.dataPort, hnone, Option.or_none] at hport

/-- No more connections are opened than there are streams. -/
theorem Agree.conns_le (h : Agree su j) : j.world.net.conns.length ≤ streams su.neg := by
  have hplaced := h.placed
  cases hp : j.client with
  | driving start d =>
      rw [hp] at hplaced
      obtain ⟨hmode, hd⟩ := hplaced
      rw [streams, ← hmode]
      cases d with
      | tcp d =>
          cases d with
          | connecting k =>
              obtain ⟨hlen, hk, -⟩ := hd
              exact hlen.le.trans hk
          | sending t => exact hd.conns.le
          | returned => exact le_of_eq hd
      | udp d => exact (congrArg List.length hd).le
      | file d =>
          cases d with
          | connecting => exact (congrArg List.length hd).le.trans (Nat.zero_le _)
          | looping | writing | returned =>
              obtain ⟨c, hc, -⟩ := hd
              exact (congrArg List.length hc).le
  | stopping | awaitingResult | done =>
      rw [hp] at hplaced
      exact hplaced.1.le
  | greeting | awaitingWelcome | negotiating | awaitingStart | starting | failed =>
      rw [hp] at hplaced
      exact (congrArg List.length hplaced).le.trans (Nat.zero_le _)

/-- A drive that is neither over nor waiting has a step towards its end. -/
theorem DriveState.Placed.exists_step {net : Net} {listening : Prop} {d : DriveState}
    (hd : d.Placed su.neg net) (hw : ¬ d.Waits su listening net)
    (hl : d.mode ≠ .udp → listening) (hr : ¬ d.Returned) :
    ∃ net' d', DriveStep su listening net d net' d' ∧
      d'.rank su.neg + net'.unread < d.rank su.neg + net.unread := by
  cases d with
  | tcp d =>
      have hne : d ≠ .returned := by
        rintro rfl
        exact hr trivial
      have hroom : ∀ t, d = .sending t → ¬ t.Blocked su.cap net.conns := by
        rintro t rfl hb
        exact hw hb
      have hnext : ∃ net' d', Tcp.Drive.Step su.neg su.quiet su.cap listening net d net' d' ∧
          d'.rank su.neg + net'.unread < d.rank su.neg + net.unread :=
        Tcp.Drive.Placed.exists_step hd (hl (by simp [mode])) hne hroom
      obtain ⟨net', d', hstep, hrank⟩ := hnext
      exact ⟨net', _, .tcp hstep, hrank⟩
  | udp d =>
      have hne : d ≠ .returned := by
        rintro rfl
        exact hr trivial
      obtain ⟨net', d', hstep, hrank⟩ := Udp.Drive.exists_step su.neg net hne
      refine ⟨net', _, .udp hstep, ?_⟩
      simp only [rank, Net.unread, hstep.conns_eq]
      omega
  | file d =>
      have hne : d ≠ .returned := by
        rintro rfl
        exact hr trivial
      have hroom : ∀ sent chunk left c, d = .writing sent chunk left → 0 < left →
          net.conns[0]? = some c → c.unread < su.cap := by
        rintro sent chunk left c rfl hleft hc
        -- a full stream would keep the write waiting
        by_contra hfull
        refine hw ⟨hleft, fun c' hc' => ?_⟩
        cases hc.symm.trans hc'
        omega
      obtain ⟨net', d', hstep, hrank⟩ :=
        File.Drive.Placed.exists_step hd (hl (by simp [mode])) hne hroom
      exact ⟨net', _, .file hstep, hrank⟩

/-- The client at a read finds its answer there. -/
theorem Agree.exists_read (h : Agree su j) {m : Msg}
    (hm : j.world.ctrl.written[j.seen]? = some m) (hp : ∃ p, j.client.onRead m = some p) :
    ∃ j', ClientStep su j j' ∧ j'.ClientCloser su j := by
  obtain ⟨p, hp⟩ := hp
  refine ⟨_, .read hm hp, rfl, .inl ?_⟩
  show p.rank < j.client.rank
  rcases h.onRead hm hp with ⟨hc, rfl⟩ | ⟨s, hc, -, rfl⟩ | ⟨r, hc, -, rfl⟩ <;>
    simp [hc, ClientPhase.rank]

theorem ClientPhase.exists_onRead (m : Msg) {p : ClientPhase}
    (hp : p = .awaitingWelcome ∨ p = .awaitingStart ∨ p = .awaitingResult) :
    ∃ q, p.onRead m = some q := by
  rcases hp with rfl | rfl | rfl <;> cases m <;> exact ⟨_, rfl⟩

/-- A client that does not wait gets closer to its end. -/
theorem Agree.exists_client (h : Agree su j) (hw : ¬ j.ClientWaits su) :
    ∃ j', ClientStep su j j' ∧ j'.ClientCloser su j := by
  -- an answer that is there is read
  have hanswer : (j.client = .awaitingWelcome ∨ j.client = .awaitingStart ∨
      j.client = .awaitingResult) → j.world.ctrl.written[j.seen]? ≠ none →
      ∃ j', ClientStep su j j' ∧ j'.ClientCloser su j := by
    intro hp hm
    obtain ⟨m, hm⟩ := Option.ne_none_iff_exists'.mp hm
    exact h.exists_read hm (ClientPhase.exists_onRead m hp)
  unfold Joint.ClientWaits at hw
  cases hc : j.client with
  | awaitingWelcome =>
      rw [hc] at hw
      exact hanswer (.inl hc) hw
  | awaitingStart =>
      rw [hc] at hw
      exact hanswer (.inr (.inl hc)) hw
  | awaitingResult =>
      rw [hc] at hw
      exact hanswer (.inr (.inr hc)) hw
  | driving start d =>
      rw [hc] at hw
      have hplaced := h.placed
      rw [hc] at hplaced
      obtain ⟨hmode, hd⟩ := hplaced
      by_cases hr : d.Returned
      · refine ⟨_, .driven hc hr, rfl, .inl ?_⟩
        simp [hc, ClientPhase.rank]
      · obtain ⟨net', d', hstep, hrank⟩ :=
          hd.exists_step hw (fun hm => h.listensOn hc (hmode ▸ hm)) hr
        refine ⟨_, .drive hc hstep, rfl, .inr ⟨by simp [hc, ClientPhase.rank], ?_⟩⟩
        rw [hc]
        exact hrank
  | greeting | negotiating | starting | stopping =>
      refine ⟨_, .write (by rw [hc]; rfl), rfl, .inl ?_⟩
      simp [hc, ClientPhase.rank]
  | done | failed =>
      rw [hc] at hw
      exact absurd trivial hw

end Client

end Andri

/-
  Andri.Client.NoDeadlock

  A client and its session never wait for each other, and can always run to the
  end.  Where the two invariants meet, one of the two has what it waits for:
  a session short of a message has one queued, a full stream has bytes to
  receive, a session on its data path has its connections opened.
-/
import Andri.Client.Progress

namespace Andri

open Lib

/-! ## One of the two has what it waits for -/

section Deadlock

variable {su : Setup} {j : Joint}

/-- A session that waits for a message has read all that was sent. -/
theorem Agree.reads_of_waits (h : Agree su j) (hw : j.world.Waits)
    (hwait : j.world.session.phase.wait ≠ none) :
    j.world.session.phase.reads = j.client.sent := by
  have hopen : ¬ j.world.Closed := by
    intro hc
    rw [World.Closed] at hc
    rw [hc] at hwait
    exact hwait rfl
  have hsent := h.sent
  rw [Ctrl.inbox_of_take_eq_none (hw.2 hwait), List.append_nil] at hsent
  rw [← (h.session.lengths hopen).1, hsent]

theorem Phase.reads_of_stop {p : Phase} (h : p.wait = some .stop) : p.reads = 3 := by
  unfold Phase.wait at h
  split at h
  · cases h
  · cases h
  · cases h
  · split at h
    · next t hmain => simp [Phase.reads, DataPath.stopReads, hmain]
    · cases h
  · rfl
  · rfl
  · cases h

/-- A session cannot have closed while the client still has something to send. -/
theorem Agree.not_closed (h : Agree su j) (hsent : j.client.sent < 4) : ¬ j.world.Closed := by
  intro hc
  obtain ⟨hread, hinbox⟩ := h.session.read_all hc
  have hlen := h.sent
  rw [List.length_append, hread, hinbox] at hlen
  simp only [List.length_nil] at hlen
  omega

/-- With all streams open and a file's bytes sent, a data path idles only for Stop. -/
theorem Follows.wait_of_idle {neg : Negotiate} {w : World} (h : Follows neg w) {n : Negotiate}
    {path : DataPath} (hp : w.session.phase = .running n path) (hidle : path.Idle n w.net)
    (hconns : w.net.conns.length = streams neg)
    (hsupplied : neg.mode = .file → File.Supplied neg w.net) :
    w.session.phase.wait = some .stop := by
  obtain rfl : n = neg := h.request_eq (by rw [hp]; rfl)
  have hmode := h.mode_eq hp
  have hplaced := h.sound.data.during n path hp
  rw [hp]
  cases path with
  | tcp s =>
      cases s with
      | accepting k =>
          obtain ⟨rfl, -, -⟩ := hplaced
          obtain ⟨hk, hnone⟩ := hidle
          rw [hconns, streams, hmode] at hnone
          exact absurd hk (not_lt.mpr hnone)
      | measuring t => simp [Phase.wait, hidle.1]
      | returned r => exact hidle.elim
  | udp s =>
      cases s with
      | selecting l => rfl
      | starting | stopped | returned => exact hidle.elim
  | file s => exact absurd hidle (File.Serve.Placed.not_idle hplaced (hsupplied hmode))

/-- The session does not wait on a client that waits for the Result. -/
theorem Agree.not_waits_result (h : Agree su j) (hc : j.client = .awaitingResult)
    (hnone : j.world.ctrl.written[j.seen]? = none) : ¬ j.world.Waits := by
  intro hw
  have hseen := h.seen
  have hle := h.seen_le
  have hplaced := h.placed
  have hsent : j.client.sent = 4 := by rw [hc]; rfl
  rw [hc] at hseen hplaced
  change j.seen = 2 at hseen
  rw [hseen] at hnone hle
  have hshort := List.getElem?_eq_none_iff.mp hnone
  have hopen : ¬ j.world.Closed := by
    intro hcl
    have hended := h.session.ended hcl
    omega
  obtain ⟨-, hwrites⟩ := h.session.lengths hopen
  -- with nothing else to wait for, the session waits for Stop
  have hstop : j.world.session.phase.wait = some .stop := by
    have hidle := hw.1
    have hreads := h.reads_of_waits hw
    rw [hsent] at hreads
    cases hp : j.world.session.phase with
    | running n path =>
        rw [hp] at hidle
        exact hp ▸ h.session.wait_of_idle hp hidle hplaced.1 hplaced.2
    | connecting n =>
        rw [hp] at hreads
        simp [Phase.wait, Phase.reads] at hreads
    | greeting | negotiating | welcoming | rejecting | binding | starting =>
        rw [hp] at hwrites
        simp only [Phase.writes] at hwrites
        omega
    | draining r => rfl
    | reporting r =>
        rw [hp] at hidle
        exact hidle.elim
    | closed => exact absurd hp hopen
    | panicked => exact absurd hp h.session.not_panicked
  -- but Stop is the fourth message, and it has been sent
  have hreads := h.reads_of_waits hw (by simp [hstop])
  rw [Phase.reads_of_stop hstop, hsent] at hreads
  omega

/-- The session does not wait on a client that waits for Welcome or Start. -/
theorem Agree.not_waits_handshake (h : Agree su j)
    (hc : j.client = .awaitingWelcome ∨ j.client = .awaitingStart)
    (hnone : j.world.ctrl.written[j.seen]? = none) : ¬ j.world.Waits := by
  intro hw
  have hle := h.seen_le
  have hshort := List.getElem?_eq_none_iff.mp hnone
  have hcount : j.seen + 1 = j.client.sent ∧ j.client.sent < 3 := by
    rw [h.seen]
    rcases hc with hc | hc <;> rw [hc] <;> decide
  have hopen := h.not_closed (by omega)
  obtain ⟨-, hwrites⟩ := h.session.lengths hopen
  have hidle := hw.1
  have hreads := h.reads_of_waits hw
  -- a session that has written as much as the client has seen is short of one message
  cases hp : j.world.session.phase with
  | greeting | negotiating =>
      rw [hp] at hwrites hreads
      simp only [Phase.wait, Phase.reads, Phase.writes, ne_eq, reduceCtorEq, not_false_eq_true,
        forall_const] at hwrites hreads
      omega
  | connecting | running | draining | reporting =>
      rw [hp] at hwrites
      simp only [Phase.writes] at hwrites
      omega
  | welcoming | binding | starting | rejecting =>
      rw [hp] at hidle
      exact hidle.elim
  | closed => exact absurd hp hopen
  | panicked => exact absurd hp h.session.not_panicked

/-- While the client drives, the session is at the wait for Run, on its data path,
    or past a file's. -/
theorem Agree.waits_driving (h : Agree su j) {start : Start} {d : DriveState}
    (hc : j.client = .driving start d) (hw : j.world.Waits) :
    (∃ path, j.world.session.phase = .running su.neg path ∧ path.mode = su.neg.mode ∧
      path.Placed su.neg j.world.net ∧ path.Idle su.neg j.world.net) ∨
    (su.neg.mode = .file ∧ File.Supplied su.neg j.world.net) := by
  have hsent : j.client.sent = 3 := by rw [hc]; rfl
  have hseen : j.seen = 2 := by rw [h.seen, hc]; rfl
  have hle := h.seen_le
  have hopen := h.not_closed (by omega)
  obtain ⟨-, hwrites⟩ := h.session.lengths hopen
  have hidle := hw.1
  have hreads := h.reads_of_waits hw
  cases hp : j.world.session.phase with
  | running n path =>
      obtain rfl : n = su.neg := h.session.request_eq (by rw [hp]; rfl)
      rw [hp] at hidle
      exact .inl ⟨path, rfl, (h.session.mode_eq hp).symm, h.session.sound.data.during _ _ hp, hidle⟩
  | draining r =>
      have hsettled := h.session.settled
      have hfile := h.session.file_of_draining hp
      rw [hp] at hsettled
      exact .inr ⟨hfile, hsettled.2 hfile⟩
  | connecting n =>
      rw [hp, hsent] at hreads
      simp [Phase.wait, Phase.reads] at hreads
  | greeting | negotiating | welcoming | binding | starting | rejecting =>
      rw [hp] at hwrites
      simp only [Phase.writes] at hwrites
      omega
  | reporting r =>
      rw [hp] at hidle
      exact hidle.elim
  | closed => exact absurd hp hopen
  | panicked => exact absurd hp h.session.not_panicked

/-- The session does not wait on a client whose drive waits: the listener is bound,
    and what fills a stream is there to be received. -/
theorem Agree.not_waits_drive (h : Agree su j) (hcap : 0 < su.cap) {start : Start}
    {d : DriveState} (hc : j.client = .driving start d)
    (hd : d.Waits su (j.world.listensOn start) j.world.net) : ¬ j.world.Waits := by
  intro hw
  have hplaced := h.placed
  rw [hc] at hplaced
  obtain ⟨hmode, hplaced⟩ := hplaced
  have hlistens : d.mode ≠ .udp → j.world.listensOn start := fun hm => h.listensOn hc (hmode ▸ hm)
  have hserver := h.waits_driving hc hw
  rw [← hmode] at hserver
  cases d with
  | tcp d =>
      cases d with
      | connecting k => exact hd.2 (hlistens (by simp [DriveState.mode]))
      | returned => exact hd
      | sending t =>
          obtain ⟨⟨l, hl, hne⟩, hfull⟩ := hd
          obtain ⟨i, hi⟩ := List.mem_iff_getElem?.mp hl
          -- a stream is full, so the receive loop behind it has bytes to take
          obtain ⟨left, c, -, -, hconn, hunread⟩ := hfull i l hi hne
          rcases hserver with ⟨path, hp, hpath, hs, hidle⟩ | ⟨hfile, -⟩
          · cases path with
            | tcp s =>
                have hserve : s.Placed su.neg j.world.net := hs
                exact hserve.not_idle_of_unread hplaced.conns (List.mem_of_getElem? hconn)
                  (hcap.trans_le hunread) hidle
            | udp | file => cases hpath
          · cases hfile
  | udp d => exact hd
  | file d =>
      cases d with
      | connecting => exact hd (hlistens (by simp [DriveState.mode]))
      | looping | returned => exact hd
      | writing sent chunk left =>
          obtain ⟨hleft, hfull⟩ := hd
          obtain ⟨c, hconns, hopen, hsent, hle⟩ := hplaced
          have hunread := hfull c (by rw [hconns]; rfl)
          have hhead : j.world.net.conns.head? = some c := by rw [hconns]; rfl
          rcases hserver with ⟨path, hp, hpath, hs, hidle⟩ | ⟨-, hsupplied⟩
          · cases path with
            | file s =>
                have hserve : s.Placed su.neg j.world.net := hs
                exact hserve.not_idle_of_unread hhead (hcap.trans_le hunread) hopen hidle
            | tcp | udp => cases hpath
          · -- a file sent in full leaves nothing to write
            obtain ⟨c', hc', hall⟩ := hsupplied
            cases hhead.symm.trans hc'
            omega

/-- Before the end, the two never wait for each other. -/
theorem Agree.no_deadlock (h : Agree su j) (hcap : 0 < su.cap) (hne : ¬ j.Final) :
    ¬ (j.world.Waits ∧ j.ClientWaits su) := by
  rintro ⟨hw, hclient⟩
  unfold Joint.ClientWaits at hclient
  cases hc : j.client with
  | awaitingWelcome =>
      rw [hc] at hclient
      exact h.not_waits_handshake (.inl hc) hclient hw
  | awaitingStart =>
      rw [hc] at hclient
      exact h.not_waits_handshake (.inr hc) hclient hw
  | awaitingResult =>
      rw [hc] at hclient
      exact h.not_waits_result hc hclient hw
  | driving start d =>
      rw [hc] at hclient
      exact h.not_waits_drive hcap hc hclient hw
  | done r => exact hne ⟨⟨r, hc⟩, h.session.closed_of_result (h.done r hc)⟩
  | failed e => exact h.failed e hc
  | greeting | negotiating | starting | stopping =>
      rw [hc] at hclient
      exact hclient

end Deadlock

/-! ## Running to the end -/

section Ends

variable {su : Setup} {j : Joint}

/-- How far the two are from the end: program points left at both ends, then what is
    left to send and receive. -/
def Joint.rank (su : Setup) (j : Joint) : ℕ × ℕ :=
  (j.client.rank + j.world.session.phase.rank, j.client.work su.neg + j.world.work)

/-- Below the end, one of the two has a step closer to it. -/
theorem Agree.exists_step (h : Agree su j) (hcap : 0 < su.cap) (hne : ¬ j.Final) :
    ∃ j', JointStep su j j' ∧ Prod.Lex (· < ·) (· < ·) (j'.rank su) (j.rank su) := by
  by_cases hw : j.world.Waits
  -- the session waits, so the client goes on
  · have hclient : ¬ j.ClientWaits su := fun hclient => h.no_deadlock hcap hne ⟨hw, hclient⟩
    obtain ⟨j', hstep, hsession, hcloser⟩ := h.exists_client hclient
    refine ⟨j', .client hstep, ?_⟩
    rw [Prod.lex_def]
    simp only [Joint.rank, World.work, hsession]
    omega
  -- the session goes on
  · obtain ⟨w', hstep, hcloser⟩ := h.session.exists_step h.conns_le hw
    refine ⟨_, .server hstep, ?_⟩
    rw [Prod.lex_def]
    simp only [Joint.rank]
    unfold World.Closer at hcloser
    omega

/-- From every state the two can run to the end. -/
theorem Agree.canReach_final (h : Agree su j) (hcap : 0 < su.cap) :
    CanReach (JointStep su) Joint.Final j := by
  have wf : WellFounded (Prod.Lex (fun a b : ℕ => a < b) (fun a b : ℕ => a < b)) :=
    WellFounded.prod_lex Nat.lt_wfRel.wf Nat.lt_wfRel.wf
  refine canReach_of_rank (I := Agree su) wf (Joint.rank su) (fun j hj hne => ?_) h
  obtain ⟨j', hstep, hrank⟩ := hj.exists_step hcap hne
  exact ⟨j', hstep, hj.step hstep, hrank⟩

end Ends

end Andri

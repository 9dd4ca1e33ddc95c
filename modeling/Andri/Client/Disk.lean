/-
  Andri.Client.Disk

  A file transfer at both ends, from a file on disk that may have changed since its
  length was read.  `file::drive` then finds the end of the file early, or reads
  past the length negotiated; what the server receives is what was put on the
  stream, up to that length.
-/
import Andri.Client.Exit
import Andri.Client.Flow

namespace Andri

open Lib

/-- A step of a client and its session, or of a drive whose file has changed. -/
inductive DiskJointStep (su : Setup) : Joint → Joint → Prop
  | joint {j j' : Joint} (h : JointStep su j j') : DiskJointStep su j j'
  | disk {j : Joint} {start : Start} {d d' : File.Drive} {net' : Net}
      (hp : j.client = .driving start (.file d)) (h : DiskStep su.neg j.world.net d net' d') :
      DiskJointStep su j { j with
        client := .driving start (.file d')
        world := { j.world with net := net' } }

/-- The states a client and its session can be in, whatever becomes of the file. -/
def DiskReachable (su : Setup) : Joint → Prop := Reachable (· = Joint.init) (DiskJointStep su)

/-- The bytes a drive has put on its stream; once it has returned they are not in its
    locals. -/
def File.Drive.put : File.Drive → Option ℕ
  | .connecting => some 0
  | .looping sent => some sent
  | .writing sent chunk left => some (sent + chunk - left)
  | .returned => none

/-- On the way to this state a read from disk found the end of the file with `m` bytes sent,
    fewer than negotiated, and the drive returned. -/
def EndedEarly (su : Setup) (m : ℕ) (j : Joint) : Prop :=
  su.neg.nullSource ≠ some true ∧ m < File.expected su.neg ∧
    ∃ u u' start, DiskReachable su u ∧ u.client = .driving start (.file (.looping m)) ∧
      DiskJointStep su u u' ∧ u'.client = .driving start (.file .returned) ∧
      Run (DiskJointStep su) u' j

/-! ## The invariant -/

/-- The stream of a drive at its program points: not there yet, open with what was put on
    it, or whatever it was left with. -/
def File.Drive.Wrote (net : Net) : File.Drive → Prop
  | .connecting => net.conns = []
  | .looping sent => ∃ c, net.conns = [c] ∧ c.closed = false ∧ c.sent = sent
  | .writing sent chunk left => ∃ c, net.conns = [c] ∧ c.closed = false ∧
      c.sent + left = sent + chunk
  | .returned => True

/-- The stream of a client: none before its drive. -/
def ClientPhase.Wrote (net : Net) : ClientPhase → Prop
  | .driving _ d => ∃ f, d = .file f ∧ f.Wrote net
  | .stopping | .awaitingResult | .done _ | .failed _ => True
  | _ => net.conns = []

/-- The invariant of a file transfer: the session is one against some peer, and the stream
    is closed behind the whole file, or where its end was found early. -/
structure Transferring (su : Setup) (j : Joint) : Prop where
  session : SessionReachable j.world
  gone : j.world.ctrl.closed = true → ∃ r, j.client = .done r
  asked : ∀ n, .ok (.negotiate n) ∈ j.world.ctrl.read ++ j.world.ctrl.inbox → n = su.neg
  room : j.world.net.Room su.cap
  wrote : j.client.Wrote j.world.net
  closed : ∀ c, j.world.net.conns.head? = some c → c.closed = true →
    File.expected su.neg ≤ c.sent ∨ EndedEarly su c.sent j

section Disk

variable {su : Setup} {j j' : Joint} {net net' : Net}

theorem EndedEarly.step {m : ℕ} (h : EndedEarly su m j) (hstep : DiskJointStep su j j') :
    EndedEarly su m j' := by
  obtain ⟨hdisk, hless, u, u', start, hu, hp, heof, hreturned, hrun⟩ := h
  exact ⟨hdisk, hless, u, u', start, hu, hp, heof, hreturned, hrun.tail hstep⟩

/-- The one connection there was is the one there is, as the peer left it. -/
theorem conns_eq_singleton (h : net'.conns.map Conn.peerSide = net.conns.map Conn.peerSide)
    {c : Conn} (hc : net.conns = [c]) :
    ∃ c', net'.conns = [c'] ∧ c'.sent = c.sent ∧ c'.closed = c.closed := by
  have hlen : net'.conns.length = 1 := by rw [length_eq_of_peerSide_eq h, hc]; rfl
  obtain ⟨c', hc'⟩ := List.length_eq_one_iff.mp hlen
  have hget : net'.conns[0]? = some c' := by rw [hc']; rfl
  obtain ⟨d, hd, hsent, hclosed⟩ := getElem?_of_peerSide_eq h hget
  rw [hc] at hd
  cases hd
  exact ⟨c', hc', hsent, hclosed⟩

/-- Replacing the one connection there is. -/
theorem head_set_singleton {c : Conn} (hc : net.conns = [c]) (c' : Conn) :
    (net.conns.set 0 c').head? = some c' := by
  rw [hc]
  rfl

theorem conns_eq_nil (h : net'.conns.map Conn.peerSide = net.conns.map Conn.peerSide)
    (hc : net.conns = []) : net'.conns = [] := by
  have hlen := length_eq_of_peerSide_eq h
  rw [hc] at hlen
  exact List.eq_nil_of_length_eq_zero hlen

theorem File.Drive.Wrote.congr {d : File.Drive} (hd : d.Wrote net)
    (h : net'.conns.map Conn.peerSide = net.conns.map Conn.peerSide) : d.Wrote net' := by
  cases d with
  | connecting => exact conns_eq_nil h hd
  | looping sent =>
      obtain ⟨c, hc, hopen, hsent⟩ := hd
      obtain ⟨c', hc', hsent', hclosed'⟩ := conns_eq_singleton h hc
      exact ⟨c', hc', hclosed'.trans hopen, hsent'.trans hsent⟩
  | writing sent chunk left =>
      obtain ⟨c, hc, hopen, hsent⟩ := hd
      obtain ⟨c', hc', hsent', hclosed'⟩ := conns_eq_singleton h hc
      exact ⟨c', hc', hclosed'.trans hopen, by rw [hsent', hsent]⟩
  | returned => trivial

/-- The server's reads leave the client's stream as it is. -/
theorem ClientPhase.Wrote.congr {p : ClientPhase} (hp : p.Wrote net)
    (h : net'.conns.map Conn.peerSide = net.conns.map Conn.peerSide) : p.Wrote net' := by
  cases p with
  | driving start d =>
      obtain ⟨f, rfl, hf⟩ := hp
      exact ⟨f, rfl, hf.congr h⟩
  | stopping | awaitingResult | done | failed => trivial
  | greeting | awaitingWelcome | negotiating | awaitingStart | starting =>
      exact conns_eq_nil h hp

/-- What a step of a drive leaves on its stream, and when it closes it. -/
theorem File.Drive.Step.keeps_wrote {neg : Negotiate} {cap : ℕ} {listening : Prop}
    {d d' : File.Drive} (h : File.Drive.Step neg cap listening net d net' d') (hd : d.Wrote net) :
    d'.Wrote net' ∧ ∀ c', net'.conns.head? = some c' → c'.closed = true →
      File.expected neg ≤ c'.sent ∨ net' = net := by
  cases h with
  | connect hl =>
      have hconns : net.conns = [] := hd
      refine ⟨⟨.fresh, by simp [hconns], rfl, rfl⟩, fun c' hc' hclosed => ?_⟩
      rw [hconns] at hc'
      cases hc'
      cases hclosed
  | chunk hmore hn =>
      obtain ⟨c, hc, hopen, hsent⟩ := hd
      exact ⟨⟨c, hc, hopen, by rw [hsent]⟩, fun _ _ _ => .inr rfl⟩
  | @write sent chunk left n c hc hopen hn hleft hroom =>
      obtain ⟨d, hd, -, hsent⟩ := hd
      rw [hd] at hc
      cases hc
      refine ⟨⟨{ c with sent := c.sent + n }, by simp [hd], hopen, ?_⟩, fun c' hc' hclosed => ?_⟩
      · show c.sent + n + (left - n) = sent + chunk
        omega
      · rw [head_set_singleton hd] at hc'
        cases hc'
        rw [hopen] at hclosed
        cases hclosed
  | wrote =>
      obtain ⟨c, hc, hopen, hsent⟩ := hd
      exact ⟨⟨c, hc, hopen, hsent⟩, fun _ _ _ => .inr rfl⟩
  | @finish sent c hall hc =>
      obtain ⟨d, hd, -, hsent⟩ := hd
      rw [hd] at hc
      cases hc
      refine ⟨trivial, fun c' hc' _ => .inl ?_⟩
      rw [head_set_singleton hd] at hc'
      cases hc'
      show File.expected neg ≤ c.sent
      omega

/-- What a changed file does to a drive's stream. -/
theorem DiskStep.keeps_wrote {neg : Negotiate} {d d' : File.Drive}
    (h : DiskStep neg net d net' d') (hd : d.Wrote net) : d'.Wrote net' := by
  cases h with
  | overread hmore hdisk hn hbuf =>
      obtain ⟨c, hc, hopen, hsent⟩ := hd
      exact ⟨c, hc, hopen, by rw [hsent]⟩
  | eof => trivial

/-- What a session has read and what is queued for it stay what they are, and it reads no
    request that was not queued. -/
theorem ServerStep.asked {w w' : World} (h : ServerStep w w') {n : Negotiate}
    (hn : .ok (.negotiate n) ∈ w'.ctrl.read ++ w'.ctrl.inbox) :
    .ok (.negotiate n) ∈ w.ctrl.read ++ w.ctrl.inbox := by
  cases h with
  | read htake hp =>
      rcases Ctrl.take_eq_some htake with ⟨rest, hinbox, rfl⟩ | ⟨hinbox, -, rfl, rfl⟩
      · rw [hinbox]
        simpa using hn
      · simpa [hinbox] using hn
  | write | bind | data | finish => exact hn

/-- A client without its Result has not dropped the control connection. -/
theorem Transferring.not_closed (h : Transferring su j) (hclient : ∀ r, j.client ≠ .done r) :
    j.world.ctrl.closed ≠ true := by
  intro hclosed
  obtain ⟨r, hr⟩ := h.gone hclosed
  exact hclient r hr

/-- The session's part of a transfer. -/
theorem Transferring.server (h : Transferring su j) {w' : World} (hstep : ServerStep j.world w') :
    Transferring su { j with world := w' } where
  session := h.session.server hstep
  gone hclosed := h.gone (hstep.closed_eq.symm.trans hclosed)
  asked n hn := h.asked n (hstep.asked hn)
  room := hstep.room h.room
  wrote := h.wrote.congr hstep.peerSide_eq
  closed c' hc' hclosed := by
    rw [List.head?_eq_getElem?] at hc'
    obtain ⟨c, hc, hsent, hsame⟩ := getElem?_of_peerSide_eq hstep.peerSide_eq hc'
    rw [← List.head?_eq_getElem?] at hc
    rw [hsent]
    exact (h.closed c hc (hsame.symm.trans hclosed)).imp_right
      fun he => he.step (.joint (.server hstep))

/-- The client's part: its messages and the writes of its drive. -/
theorem Transferring.client (hfile : su.neg.mode = .file) (h : Transferring su j)
    (hstep : ClientStep su j j') : Transferring su j' := by
  have hrun := JointStep.session_run h.gone (.client hstep)
  have hearly : ∀ {m : ℕ}, EndedEarly su m j → EndedEarly su m j' :=
    fun he => he.step (.joint (.client hstep))
  have hwrote := h.wrote
  cases hstep with
  | @read m p hm hp =>
      have hopen := h.not_closed (ClientPhase.ne_done_of_onRead hp)
      refine ⟨h.session, fun hclosed => absurd hclosed hopen, h.asked, h.room, ?_,
        fun c hc hclosed => (h.closed c hc hclosed).imp_right hearly⟩
      · generalize j.client = p' at hp hwrote
        cases ClientPhase.onRead_cases hp with
        | welcome | start => exact hwrote
        | result | refused => trivial
  | @write m p hp =>
      obtain ⟨hm, -, -, -, hbefore, -⟩ := ClientPhase.onWrite_cases hp
      have hopen := h.not_closed hbefore
      refine ⟨h.session.run hrun, fun hclosed => absurd hclosed hopen, fun n hn => ?_, h.room, ?_,
        fun c hc hclosed => (h.closed c hc hclosed).imp_right hearly⟩
      · have hold : .ok (.negotiate n) ∈ j.world.ctrl.read ++ j.world.ctrl.inbox ∨
            m = .negotiate n := by
          simpa [or_assoc, eq_comm] using hn
        rcases hold with hold | rfl
        · exact h.asked n hold
        · exact negotiate_of_mem_script (List.mem_of_getElem? hm)
      · show p.Wrote j.world.net
        generalize j.client = p' at hp hwrote
        cases p' with
        | starting s =>
            cases hp
            exact ⟨.connecting, by rw [hfile]; rfl, hwrote⟩
        | greeting | negotiating =>
            cases hp
            exact hwrote
        | stopping =>
            cases hp
            trivial
        | awaitingWelcome | awaitingStart | driving | awaitingResult | done | failed => cases hp
  | @drive start d d' net' hp hd =>
      rw [hp] at hwrote
      obtain ⟨f, rfl, hf⟩ := hwrote
      have hroom := hd.room h.room
      have hopen := h.not_closed (by simp [hp])
      cases hd with
      | file hd =>
          obtain ⟨hf', hclosed'⟩ := hd.keeps_wrote hf
          refine ⟨h.session.run hrun, fun hclosed => absurd hclosed hopen, h.asked, hroom,
            ⟨_, rfl, hf'⟩, fun c hc hclosed => ?_⟩
          rcases hclosed' c hc hclosed with hall | hsame
          · exact .inl hall
          · change net'.conns.head? = some c at hc
            rw [hsame] at hc
            exact (h.closed c hc hclosed).imp_right hearly
  | @driven start d hp hd =>
      have hopen := h.not_closed (by simp [hp])
      exact ⟨h.session, fun hclosed => absurd hclosed hopen, h.asked, h.room, trivial,
        fun c hc hclosed => (h.closed c hc hclosed).imp_right hearly⟩
  | @close r hp =>
      refine ⟨h.session.run hrun, fun _ => ⟨r, hp⟩, h.asked, h.room, ?_,
        fun c hc hclosed => (h.closed c hc hclosed).imp_right hearly⟩
      exact hwrote

/-- Every step keeps the transfer. -/
theorem Transferring.step (hfile : su.neg.mode = .file) (hreach : DiskReachable su j)
    (h : Transferring su j) (hstep : DiskJointStep su j j') : Transferring su j' := by
  cases id hstep with
  | joint hjoint =>
      cases hjoint with
      | server hserver => exact h.server hserver
      | client hclient => exact h.client hfile hclient
      | network buf =>
          exact ⟨h.session.peer (.datagram buf), h.gone, h.asked, h.room, h.wrote.congr rfl,
            fun c hc hclosed => (h.closed c hc hclosed).imp_right fun he => he.step hstep⟩
  | @disk start d d' net' hp hd =>
      have hwrote := h.wrote
      rw [hp] at hwrote
      obtain ⟨f, hf, hd₀⟩ := hwrote
      cases hf
      have hd' := hd.keeps_wrote hd₀
      have hopen := h.not_closed (by simp [hp])
      cases hd with
      | overread hmore hdisk hn hbuf =>
          exact ⟨h.session, fun hclosed => absurd hclosed hopen, h.asked, h.room, ⟨_, rfl, hd'⟩,
            fun c hc hclosed => (h.closed c hc hclosed).imp_right fun he => he.step hstep⟩
      | @eof sent c hmore hdisk hc =>
          obtain ⟨d, hconns, -, hsent⟩ := hd₀
          rw [hconns] at hc
          cases hc
          have hroom : j.world.net.Room su.cap := h.room
          refine ⟨h.session.peer (.closeData (i := 0) (by rw [hconns]; rfl)),
            fun hclosed => absurd hclosed hopen, h.asked,
            hroom.set (hroom c (by rw [hconns]; exact List.mem_cons_self)), ⟨_, rfl, hd'⟩,
            fun c' hc' _ => .inr ?_⟩
          rw [show (j.world.net.conns.set 0 { c with closed := true }).head? = _ from
            head_set_singleton hconns _] at hc'
          cases hc'
          subst hsent
          exact ⟨hdisk, hmore, j, _, start, hreach, hp, hstep, rfl, .refl⟩

/-- The request a session works for is the client's. -/
theorem Transferring.request_eq (h : Transferring su j) {n : Negotiate} {path : DataPath}
    (hp : j.world.session.phase = .running n path) : n = su.neg := by
  have hphase := h.session.history.phase
  rw [hp] at hphase
  obtain ⟨g, s, rest, -, hread, -, -, -⟩ := hphase
  exact h.asked n (List.mem_append_left _ (by rw [hread]; simp))

end Disk

/-! ## The two ends of a file transfer -/

end Andri

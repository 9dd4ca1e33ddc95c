/-
  Andri.Net

  What a session shares with the other end: the control connection, the data
  connections queued at the listener, the datagrams at the UDP socket, and the
  monotone clock.

  A control connection delivers the outcomes of successive `read_msg` calls: a
  message, or the error of an undecodable or oversized frame; past the last
  one a closed connection reads as end of file, an open one makes the reader
  wait.  What has been read and written is kept as history.
-/
import Andri.Proto.Frame

namespace Andri

open Lib

/-- The outcome of one `read_msg`. -/
abbrev Input := Except IoError Msg

/-- The control connection at the server. -/
structure Ctrl where
  inbox : List Input
  closed : Bool
  read : List Input
  written : List Msg

/-- A fresh control connection. -/
def Ctrl.init : Ctrl := ⟨[], false, [], []⟩

/-- One `read_msg`: `none` is a read that waits. -/
def Ctrl.take (c : Ctrl) : Option (Input × Ctrl) :=
  match c.inbox with
  | x :: rest => some (x, { c with inbox := rest, read := c.read ++ [x] })
  | [] =>
      if c.closed then some (.error earlyEof, { c with read := c.read ++ [.error earlyEof] })
      else none

/-- One `write_msg`. -/
def Ctrl.put (c : Ctrl) (m : Msg) : Ctrl := { c with written := c.written ++ [m] }

/-- A data connection: bytes the peer has sent, bytes taken off by the server,
    and whether the peer has closed it. -/
structure Conn where
  sent : ℕ
  taken : ℕ
  closed : Bool

/-- A connection just opened. -/
def Conn.fresh : Conn := ⟨0, 0, false⟩

/-- Bytes a read could return now. -/
def Conn.unread (c : Conn) : ℕ := c.sent - c.taken

/-- The peer's side of a connection: what it has sent, and whether it has closed. -/
def Conn.peerSide (c : Conn) : ℕ × Bool := (c.sent, c.closed)

/-- Data plane and clock.  `conns` are the data connections in the order they
    were opened, of which the first `accepted` have left the listener's
    queue; `clock` is the latest instant read, in nanoseconds. -/
structure Net where
  clock : ℕ
  conns : List Conn
  accepted : ℕ
  dgrams : List (List Byte)

/-- Bytes unread on all connections. -/
def Net.unread (net : Net) : ℕ := (net.conns.map Conn.unread).sum

/-- Nothing opened, nothing in flight. -/
def Net.init : Net := ⟨0, [], 0, []⟩

/-! ## Reading the control connection -/

section Take

variable {c c' : Ctrl} {x : Input}

/-- A read takes the first outcome queued, or end of file once the peer has
    closed. -/
theorem Ctrl.take_eq_some (h : c.take = some (x, c')) :
    (∃ rest, c.inbox = x :: rest ∧ c' = { c with inbox := rest, read := c.read ++ [x] }) ∨
    (c.inbox = [] ∧ c.closed = true ∧ x = .error earlyEof ∧
      c' = { c with read := c.read ++ [x] }) := by
  unfold take at h
  split at h
  · next y rest hinbox =>
      cases h
      exact .inl ⟨rest, hinbox, rfl⟩
  · next hinbox =>
      split at h
      · next hclosed =>
          cases h
          exact .inr ⟨hinbox, hclosed, rfl, rfl⟩
      · cases h

/-- Reading changes nothing but the queue and the history. -/
theorem Ctrl.take_frame (h : c.take = some (x, c')) :
    c'.read = c.read ++ [x] ∧ c'.written = c.written ∧ c'.closed = c.closed := by
  rcases take_eq_some h with ⟨rest, -, rfl⟩ | ⟨-, -, -, rfl⟩ <;> exact ⟨rfl, rfl, rfl⟩

/-- A closed connection never makes the reader wait. -/
theorem Ctrl.exists_take (h : c.closed = true) : ∃ x c', c.take = some (x, c') := by
  unfold take
  split
  · exact ⟨_, _, rfl⟩
  · exact ⟨_, _, by rw [if_pos h]⟩

/-- A read that waits has found nothing queued. -/
theorem Ctrl.inbox_of_take_eq_none (h : c.take = none) : c.inbox = [] := by
  unfold take at h
  split at h
  · cases h
  · assumption

theorem Ctrl.take_cons {rest : List Input} (h : c.inbox = x :: rest) :
    c.take = some (x, { c with inbox := rest, read := c.read ++ [x] }) := by
  simp [take, h]

end Take

/-! ## Data connections -/

/-- Replacing an element changes a sum by the difference. -/
theorem sum_map_set {α : Type*} (f : α → ℕ) {l : List α} {i : ℕ} {a : α} (h : l[i]? = some a)
    (b : α) : ((l.set i b).map f).sum + f a = (l.map f).sum + f b := by
  induction l generalizing i with
  | nil => simp at h
  | cons c l ih =>
      cases i with
      | zero =>
          cases h
          simp only [List.set_cons_zero, List.map_cons, List.sum_cons]
          omega
      | succ i =>
          have htail := ih (i := i) (by simpa using h)
          simp only [List.set_cons_succ, List.map_cons, List.sum_cons]
          omega

theorem Net.unread_set {net : Net} {i : ℕ} {c : Conn} (hc : net.conns[i]? = some c) (c' : Conn) :
    ({ net with conns := net.conns.set i c' } : Net).unread + c.unread =
      net.unread + c'.unread :=
  sum_map_set Conn.unread hc c'

theorem Net.unread_connect (net : Net) :
    ({ net with conns := net.conns ++ [.fresh] } : Net).unread = net.unread := by
  simp [Net.unread, Conn.unread, Conn.fresh]

section PeerSide

variable {net net' : Net}

theorem sent_eq_of_peerSide_eq
    (h : net'.conns.map Conn.peerSide = net.conns.map Conn.peerSide) :
    net'.conns.map Conn.sent = net.conns.map Conn.sent := by
  have hfst := congrArg (List.map Prod.fst) h
  simpa [Function.comp_def, Conn.peerSide] using hfst

theorem length_eq_of_peerSide_eq
    (h : net'.conns.map Conn.peerSide = net.conns.map Conn.peerSide) :
    net'.conns.length = net.conns.length := by
  simpa using congrArg List.length h

/-- A connection of one net is there in the other, as the peer left it. -/
theorem getElem?_of_peerSide_eq
    (h : net'.conns.map Conn.peerSide = net.conns.map Conn.peerSide) {i : ℕ} {c' : Conn}
    (hc : net'.conns[i]? = some c') :
    ∃ c, net.conns[i]? = some c ∧ c'.sent = c.sent ∧ c'.closed = c.closed := by
  have hmap : (net.conns.map Conn.peerSide)[i]? = some c'.peerSide := by
    rw [← h, List.getElem?_map, hc]
    rfl
  rw [List.getElem?_map] at hmap
  obtain ⟨c, hc', hside⟩ := Option.map_eq_some_iff.mp hmap
  simp only [Conn.peerSide, Prod.mk.injEq] at hside
  exact ⟨c, hc', hside.1.symm, hside.2.symm⟩

/-- Replacing a connection by one with the same peer's side. -/
theorem peerSide_set {i : ℕ} {c c' : Conn} (hc : net.conns[i]? = some c)
    (hside : c'.peerSide = c.peerSide) :
    (net.conns.set i c').map Conn.peerSide = net.conns.map Conn.peerSide := by
  obtain ⟨hlt, hget⟩ := List.getElem?_eq_some_iff.mp hc
  have hlt' : i < (net.conns.map Conn.peerSide).length := by simpa using hlt
  have hsame : c'.peerSide = (net.conns.map Conn.peerSide)[i] := by simp [hside, hget]
  rw [List.map_set, hsame, List.set_getElem_self]

end PeerSide

/-! ## What the peer can do to the data connections -/

/-- A connection fed or closed by the peer: nothing is taken off it, and once
    closed it stays as it is. -/
structure Conn.Grows (c c' : Conn) : Prop where
  taken : c'.taken = c.taken
  sent : c.sent ≤ c'.sent
  closed : c.closed = true → c'.closed = true ∧ c'.sent = c.sent

theorem Conn.Grows.refl (c : Conn) : c.Grows c := ⟨rfl, le_rfl, fun h => ⟨h, rfl⟩⟩

/-- Connections opened, fed or closed by the peer; none has left the listener's
    queue. -/
structure Net.Grows (net net' : Net) : Prop where
  accepted : net'.accepted = net.accepted
  kept : ∀ {i : ℕ} {c : Conn}, net.conns[i]? = some c → ∃ c', net'.conns[i]? = some c' ∧ c.Grows c'
  opened : ∀ {i : ℕ} {c' : Conn}, net'.conns[i]? = some c' → net.conns[i]? = none → c' = .fresh

section Grows

variable {net net' : Net}

theorem Net.Grows.of_eq (haccepted : net'.accepted = net.accepted)
    (hconns : net'.conns = net.conns) : net.Grows net' where
  accepted := haccepted
  kept {i c} h := ⟨c, by rw [hconns, h], .refl c⟩
  opened {i c'} h hnone := by
    rw [hconns, hnone] at h
    cases h

theorem Net.Grows.connect (net : Net) :
    net.Grows { net with conns := net.conns ++ [.fresh] } where
  accepted := rfl
  kept {i c} h := by
    refine ⟨c, ?_, .refl c⟩
    rw [List.getElem?_append_left (List.getElem?_eq_some_iff.mp h).1, h]
  opened {i c'} h hnone := by
    -- past the connections there were, there is only the new one
    have hlen : net.conns.length ≤ i := List.getElem?_eq_none_iff.mp hnone
    rw [List.getElem?_append_right hlen] at h
    exact List.mem_singleton.mp (List.mem_of_getElem? h)

theorem Net.Grows.set {i : ℕ} {c c' : Conn} (hc : net.conns[i]? = some c) (hg : c.Grows c') :
    net.Grows { net with conns := net.conns.set i c' } where
  accepted := rfl
  kept {j d} h := by
    -- the connection replaced, or another one
    by_cases hij : i = j
    · subst hij
      rw [hc] at h
      cases h
      exact ⟨c', by rw [List.getElem?_set_self (List.getElem?_eq_some_iff.mp hc).1], hg⟩
    · exact ⟨d, by rw [List.getElem?_set_ne hij, h], .refl d⟩
  opened {j d} h hnone := by
    have hlen : net.conns.length ≤ j := List.getElem?_eq_none_iff.mp hnone
    have hlt := (List.getElem?_eq_some_iff.mp h).1
    rw [List.length_set] at hlt
    omega

theorem Net.Grows.length_le (h : net.Grows net') : net.conns.length ≤ net'.conns.length := by
  -- a connection past the end of the new list would have been kept
  by_contra hlt
  push Not at hlt
  obtain ⟨c', hc', -⟩ := h.kept (List.getElem?_eq_getElem hlt)
  exact absurd (List.getElem?_eq_some_iff.mp hc').1 (lt_irrefl _)

theorem Net.Grows.head (h : net.Grows net') {c : Conn} (hc : net.conns.head? = some c) :
    ∃ c', net'.conns.head? = some c' ∧ c.Grows c' := by
  rw [List.head?_eq_getElem?] at hc ⊢
  exact h.kept hc

/-- Nothing has been accepted and nothing read. -/
structure Net.Untouched (net : Net) : Prop where
  accepted : net.accepted = 0
  taken : ∀ c ∈ net.conns, c.taken = 0

theorem Net.Untouched.grows (hu : net.Untouched) (h : net.Grows net') : net'.Untouched := by
  refine ⟨by rw [h.accepted, hu.accepted], fun c' hc' => ?_⟩
  obtain ⟨i, hi⟩ := List.mem_iff_getElem?.mp hc'
  -- an accepted connection is new, or one there was
  cases hold : net.conns[i]? with
  | none => rw [h.opened hi hold, Conn.fresh]
  | some c =>
      obtain ⟨d, hd, hg⟩ := h.kept hold
      rw [hi] at hd
      cases hd
      rw [hg.taken, hu.taken c (List.mem_of_getElem? hold)]

end Grows

end Andri

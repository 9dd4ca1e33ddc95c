/-
  Andri.File.Drive

  `file::drive` of `src/modes/file.rs`: connect, then write the file in chunks, as
  read from disk or cut from memory, until the negotiated length is sent.  The
  file still has the length it was measured at, which is the one negotiated: a
  read returns some of what is missing.  A file that has changed is `DiskStep`.
-/
import Andri.File.Progress

namespace Andri.File

open Lib

/-- Program points of `drive`: the connect, the loop head, a `write_all` of a chunk
    with bytes left to write, returned. -/
inductive Drive
  | connecting
  | looping (sent : ℕ)
  | writing (sent chunk left : ℕ)
  | returned

/-- The chunk sizes a pass may take: cut to the buffer from memory, from disk whatever a
    read of the rest of the file returns. -/
def Chunk (neg : Negotiate) (sent n : ℕ) : Prop :=
  match neg.nullSource with
  | some true => n = min (expected neg - sent) BUF
  | _ => 0 < n ∧ n ≤ min (expected neg - sent) BUF

/-- Steps of `drive`, with the net before and after. -/
inductive Drive.Step (neg : Negotiate) (cap : ℕ) (listening : Prop) :
    Net → Drive → Net → Drive → Prop
  | connect {net : Net} (hl : listening) :
      Step neg cap listening net .connecting { net with conns := net.conns ++ [.fresh] }
        (.looping 0)
  | chunk {net : Net} {sent n : ℕ} (hmore : sent < expected neg) (hn : Chunk neg sent n) :
      Step neg cap listening net (.looping sent) net (.writing sent n n)
  | write {net : Net} {sent chunk left n : ℕ} {c : Conn} (hc : net.conns[0]? = some c)
      (hopen : c.closed = false) (hn : 0 < n) (hleft : n ≤ left) (hroom : c.unread + n ≤ cap) :
      Step neg cap listening net (.writing sent chunk left)
        { net with conns := net.conns.set 0 { c with sent := c.sent + n } }
        (.writing sent chunk (left - n))
  | wrote {net : Net} {sent chunk : ℕ} :
      Step neg cap listening net (.writing sent chunk 0) net (.looping (sent + chunk))
  /-- All sent: flush, return and drop the stream. -/
  | finish {net : Net} {sent : ℕ} {c : Conn} (hall : expected neg ≤ sent)
      (hc : net.conns[0]? = some c) :
      Step neg cap listening net (.looping sent)
        { net with conns := net.conns.set 0 { c with closed := true } } .returned

/-! ## The stream a drive owns -/

/-- The invariant of `drive`'s program points: what has been put on the stream. -/
def Drive.Placed (neg : Negotiate) (net : Net) : Drive → Prop
  | .connecting => net.conns = []
  | .looping sent => ∃ c, net.conns = [c] ∧ c.closed = false ∧ c.sent = sent ∧ sent ≤ expected neg
  | .writing sent chunk left => ∃ c, net.conns = [c] ∧ c.closed = false ∧
      c.sent + left = sent + chunk ∧ sent + chunk ≤ expected neg
  | .returned => ∃ c, net.conns = [c] ∧ c.sent = expected neg

theorem Chunk.bounds {neg : Negotiate} {sent n : ℕ} (h : Chunk neg sent n)
    (hmore : sent < expected neg) : 0 < n ∧ sent + n ≤ expected neg := by
  have hbuf : 0 < BUF := by decide
  unfold Chunk at h
  split at h <;> omega

theorem exists_chunk (neg : Negotiate) {sent : ℕ} (hmore : sent < expected neg) :
    ∃ n, Chunk neg sent n := by
  have hbuf : 0 < BUF := by decide
  refine ⟨min (expected neg - sent) BUF, ?_⟩
  unfold Chunk
  split
  · rfl
  · omega

variable {neg : Negotiate} {cap : ℕ} {listening : Prop} {net net' : Net} {d d' : Drive}

/-- Every step keeps count of what is on the stream. -/
theorem Drive.Step.placed (h : Step neg cap listening net d net' d') (hd : d.Placed neg net) :
    d'.Placed neg net' := by
  cases h with
  | connect hl =>
      have hconns : net.conns = [] := hd
      exact ⟨.fresh, by simp [hconns], rfl, rfl, Nat.zero_le _⟩
  | chunk hmore hn =>
      obtain ⟨c, hc, hopen, hsent, -⟩ := hd
      exact ⟨c, hc, hopen, by rw [hsent], (hn.bounds hmore).2⟩
  | @write sent chunk left n c hc hopen hn hleft hroom =>
      obtain ⟨d, hd, -, hsent, hle⟩ := hd
      rw [hd] at hc
      cases hc
      refine ⟨{ c with sent := c.sent + n }, by simp [hd], hopen, ?_, hle⟩
      show c.sent + n + (left - n) = sent + chunk
      omega
  | wrote =>
      obtain ⟨c, hc, hopen, hsent, hle⟩ := hd
      exact ⟨c, hc, hopen, hsent, hle⟩
  | @finish sent c hall hc =>
      obtain ⟨d, hd, -, hsent, hle⟩ := hd
      rw [hd] at hc
      cases hc
      refine ⟨{ c with closed := true }, by simp [hd], ?_⟩
      show c.sent = expected neg
      omega

/-- The server's reads leave the drive's stream as it is. -/
theorem Drive.Placed.congr (hd : d.Placed neg net)
    (h : net'.conns.map Conn.peerSide = net.conns.map Conn.peerSide) : d.Placed neg net' := by
  -- the one connection there was is the one there is
  have hone : ∀ c, net.conns = [c] →
      ∃ c', net'.conns = [c'] ∧ c'.sent = c.sent ∧ c'.closed = c.closed := by
    intro c hc
    have hlen : net'.conns.length = 1 := by rw [length_eq_of_peerSide_eq h, hc]; rfl
    obtain ⟨c', hc'⟩ := List.length_eq_one_iff.mp hlen
    have hget : net'.conns[0]? = some c' := by rw [hc']; rfl
    obtain ⟨e, he, hsent, hclosed⟩ := getElem?_of_peerSide_eq h hget
    rw [hc] at he
    cases he
    exact ⟨c', hc', hsent, hclosed⟩
  cases d with
  | connecting =>
      have hconns : net.conns = [] := hd
      have hlen := length_eq_of_peerSide_eq h
      rw [hconns] at hlen
      exact List.eq_nil_of_length_eq_zero hlen
  | looping sent =>
      obtain ⟨c, hc, hopen, hsent, hle⟩ := hd
      obtain ⟨c', hc', hsent', hclosed'⟩ := hone c hc
      exact ⟨c', hc', hclosed'.trans hopen, hsent'.trans hsent, hle⟩
  | writing sent chunk left =>
      obtain ⟨c, hc, hopen, hsent, hle⟩ := hd
      obtain ⟨c', hc', hsent', hclosed'⟩ := hone c hc
      exact ⟨c', hc', hclosed'.trans hopen, by rw [hsent', hsent], hle⟩
  | returned =>
      obtain ⟨c, hc, hsent⟩ := hd
      obtain ⟨c', hc', hsent', -⟩ := hone c hc
      exact ⟨c', hc', hsent'.trans hsent⟩

/-! ## The drive ends -/

/-- Steps until the file is sent; a byte written counts twice, as it is still to be
    read. -/
def Drive.rank (neg : Negotiate) : Drive → ℕ
  | .connecting => 4 * expected neg + 3
  | .looping sent => 4 * (expected neg - sent) + 1
  | .writing sent chunk left => 4 * (expected neg - sent - chunk) + 2 * left + 2
  | .returned => 0

/-- A drive that is not over and not waiting for room has a step towards its end. -/
theorem Drive.Placed.exists_step (hd : d.Placed neg net) (hl : listening) (hr : d ≠ .returned)
    (hroom : ∀ sent chunk left c, d = .writing sent chunk left → 0 < left →
      net.conns[0]? = some c → c.unread < cap) :
    ∃ net' d', Step neg cap listening net d net' d' ∧
      d'.rank neg + net'.unread < d.rank neg + net.unread := by
  cases d with
  | returned => exact absurd rfl hr
  | connecting =>
      refine ⟨_, _, .connect hl, ?_⟩
      simp only [rank, Net.unread_connect]
      omega
  | looping sent =>
      obtain ⟨c, hc, hopen, hsent, hle⟩ := hd
      have hconn : net.conns[0]? = some c := by rw [hc]; rfl
      by_cases hmore : sent < expected neg
      · obtain ⟨n, hn⟩ := exists_chunk neg hmore
        have hbounds := hn.bounds hmore
        refine ⟨net, _, .chunk hmore hn, ?_⟩
        simp only [rank]
        omega
      · refine ⟨_, _, .finish (by omega) hconn, ?_⟩
        have hunread := Net.unread_set hconn { c with closed := true }
        simp only [Conn.unread] at hunread
        simp only [rank]
        omega
  | writing sent chunk left =>
      obtain ⟨c, hc, hopen, hsent, hle⟩ := hd
      have hconn : net.conns[0]? = some c := by rw [hc]; rfl
      cases left with
      | zero =>
          refine ⟨net, _, .wrote, ?_⟩
          simp only [rank]
          omega
      | succ left =>
          -- there is room for one byte at least
          have hcap := hroom _ _ _ c rfl (Nat.succ_pos left) hconn
          refine ⟨_, _, .write hconn hopen Nat.one_pos (by omega) hcap, ?_⟩
          have hunread := Net.unread_set hconn { c with sent := c.sent + 1 }
          simp only [Conn.unread] at hunread
          simp only [rank]
          omega

end Andri.File

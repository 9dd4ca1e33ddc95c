/-
  Andri.Tcp.Fed

  What `tcp::drive` has put on its streams.  A send loop counts a buffer when all of
  it is written, so a stream holds the bytes of its counter and those of the
  write begun; once the loops are joined every stream holds whole buffers.
-/
import Andri.Tcp.Drive

namespace Andri.Tcp

open Lib

/-- The bytes of the write a send loop is in that are on the connection. -/
def SendLoop.begun (buf : ℕ) : SendLoop → ℕ
  | .writing left => buf - left
  | .checking | .returned => 0

theorem SendLoop.begun_le (buf : ℕ) (l : SendLoop) : l.begun buf ≤ buf := by
  cases l with
  | writing left => exact Nat.sub_le _ _
  | checking | returned => exact Nat.zero_le _

/-- A send loop, its counter and the bytes on its connection: whole buffers and what
    has been written of the next. -/
structure SendLoop.Fed (buf : ℕ) (l : SendLoop) (counter sent : ℕ) : Prop where
  left : ∀ left, l = .writing left → left ≤ buf
  whole : buf ∣ counter
  sent : sent = counter + l.begun buf

/-- Every connection is fed by its send loop. -/
def Senders.Fed (neg : Negotiate) (net : Net) (t : Senders) : Prop :=
  ∀ (i : ℕ) (c : Conn), net.conns[i]? = some c → ∃ l b, t.loops[i]? = some l ∧
    t.counters[i]? = some b ∧ l.Fed neg.bufferBytes.toNat b c.sent

/-- What a drive has put on its connections. -/
def Drive.Fed (neg : Negotiate) (net : Net) : Drive → Prop
  | .connecting _ => ∀ c ∈ net.conns, c.sent = 0
  | .sending t => t.Fed neg net
  | .returned => ∀ c ∈ net.conns, neg.bufferBytes.toNat ∣ c.sent

section Fed

variable {neg : Negotiate} {quiet : Bool} {cap : ℕ} {listening : Prop} {net net' : Net}
  {d d' : Drive} {t t' : Senders} {i : ℕ}

/-- A step of one stream leaves the others as they are. -/
theorem Senders.Fed.stream (h : t.Fed neg net)
    (hconns : ∀ k, i ≠ k → net'.conns[k]? = net.conns[k]?)
    (hloops : ∀ k, i ≠ k → t'.loops[k]? = t.loops[k]?)
    (hcounters : ∀ k, i ≠ k → t'.counters[k]? = t.counters[k]?)
    (hi : ∀ c, net'.conns[i]? = some c → ∃ l b, t'.loops[i]? = some l ∧
      t'.counters[i]? = some b ∧ l.Fed neg.bufferBytes.toNat b c.sent) :
    t'.Fed neg net' := by
  intro k c hc
  by_cases hk : i = k
  · subst hk
    exact hi c hc
  · rw [hconns k hk] at hc
    rw [hloops k hk, hcounters k hk]
    exact h k c hc

/-- The loop a connection is fed by. -/
theorem Senders.Fed.loop (h : t.Fed neg net) {c : Conn} {l : SendLoop}
    (hc : net.conns[i]? = some c) (hl : t.loops[i]? = some l) :
    ∃ b, t.counters[i]? = some b ∧ l.Fed neg.bufferBytes.toNat b c.sent := by
  obtain ⟨l', b, hl', hb, hfed⟩ := h i c hc
  rw [hl] at hl'
  cases hl'
  exact ⟨b, hb, hfed⟩

/-- Every step of a drive leaves its connections fed. -/
theorem Drive.Step.fed (h : Step neg quiet cap listening net d net' d') (hd : d.Placed neg net)
    (hf : d.Fed neg net) : d'.Fed neg net' := by
  cases h with
  | connect hk hl =>
      intro c hc
      rcases List.mem_append.mp hc with hold | hnew
      · exact hf c hold
      · rw [List.mem_singleton.mp hnew, Conn.fresh]
  | @spawn k now hk hnow =>
      intro i c hc
      have hi : i < k := by
        have hlt := (List.getElem?_eq_some_iff.mp hc).1
        have hlen := hd.1
        dsimp only at hlt
        omega
      have hsent : c.sent = 0 := hf c (List.mem_of_getElem? hc)
      refine ⟨.checking, 0, by simp [Senders.spawn, hi], by simp [Senders.spawn, hi], ?_⟩
      exact ⟨fun left hleft => (by cases hleft), Nat.dvd_zero _, hsent⟩
  | @check t i now hl hnow hbefore =>
      refine Senders.Fed.stream (i := i) hf (fun _ _ => rfl)
        (fun k hk => List.getElem?_set_ne hk) (fun _ _ => rfl) fun c hc => ?_
      obtain ⟨b, hb, hfed⟩ := Senders.Fed.loop hf hc hl
      refine ⟨_, b, List.getElem?_set_self (List.getElem?_eq_some_iff.mp hl).1, hb, ?_⟩
      refine ⟨fun left hleft => by cases hleft; exact le_rfl, hfed.whole, ?_⟩
      -- the write begun has put nothing on the connection yet
      rw [hfed.sent, SendLoop.begun, SendLoop.begun, Nat.sub_self]
  | @finish t i now c hl hc hnow hpast =>
      obtain ⟨b, hb, hfed⟩ := Senders.Fed.loop hf hc hl
      refine Senders.Fed.stream (i := i) hf (fun k hk => List.getElem?_set_ne hk)
        (fun k hk => List.getElem?_set_ne hk) (fun _ _ => rfl) fun c' hc' => ?_
      simp only [setConn, List.getElem?_set_self (List.getElem?_eq_some_iff.mp hc).1] at hc'
      cases hc'
      refine ⟨_, b, List.getElem?_set_self (List.getElem?_eq_some_iff.mp hl).1, hb, ?_⟩
      exact ⟨fun left hleft => (by cases hleft), hfed.whole, hfed.sent⟩
  | @write t i left n c hl hc hopen hn hleft hroom =>
      obtain ⟨b, hb, hfed⟩ := Senders.Fed.loop hf hc hl
      refine Senders.Fed.stream (i := i) hf (fun k hk => List.getElem?_set_ne hk)
        (fun k hk => List.getElem?_set_ne hk) (fun _ _ => rfl) fun c' hc' => ?_
      simp only [setConn, List.getElem?_set_self (List.getElem?_eq_some_iff.mp hc).1] at hc'
      cases hc'
      refine ⟨_, b, List.getElem?_set_self (List.getElem?_eq_some_iff.mp hl).1, hb, ?_⟩
      have hle := hfed.left left rfl
      have hsent := hfed.sent
      simp only [SendLoop.begun] at hsent
      refine ⟨fun left' hleft' => by cases hleft'; omega, hfed.whole, ?_⟩
      show c.sent + n = b + (neg.bufferBytes.toNat - (left - n))
      omega
  | @wrote t i b hl hb =>
      refine Senders.Fed.stream (i := i) hf (fun _ _ => rfl)
        (fun k hk => List.getElem?_set_ne hk) (fun k hk => List.getElem?_set_ne hk)
        fun c hc => ?_
      obtain ⟨b', hb', hfed⟩ := Senders.Fed.loop hf hc hl
      rw [hb] at hb'
      cases hb'
      refine ⟨_, _, List.getElem?_set_self (List.getElem?_eq_some_iff.mp hl).1,
        List.getElem?_set_self (List.getElem?_eq_some_iff.mp hb).1, ?_⟩
      -- the whole buffer is on the connection, and now on the counter
      have hwhole := Nat.dvd_add hfed.whole (Nat.dvd_refl neg.bufferBytes.toNat)
      exact ⟨fun left hleft => (by cases hleft), hwhole, hfed.sent⟩
  | sampler hs h => exact hf
  | @join t hj =>
      intro c hc
      obtain ⟨i, hi⟩ := List.mem_iff_getElem?.mp hc
      obtain ⟨l, b, hl, -, hfed⟩ := hf i c hi
      rw [hfed.sent, hj.1 l (List.mem_of_getElem? hl)]
      exact hfed.whole

end Fed

end Andri.Tcp

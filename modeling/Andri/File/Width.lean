/-
  Andri.File.Width

  The copy loops of `src/modes/file.rs` on a `usize` of 32 or 64 bits.  Both cast the
  `u64` still missing to `usize` before they clamp it to the buffer, so with a
  32-bit `usize` they want nothing as soon as a multiple of `2 ^ 32` is missing:
  the null-source loop then goes round on the spot, and the receive loop takes
  its empty read for the end of the stream.  A length that fits the `usize`
  never gets there.
-/
import Andri.File.Copy

namespace Andri.File

open Lib

/-! ## The receive loop -/

/-- Program points of the receive loop: its head with the bytes received, and behind
    the `break` on a read of 0 bytes. -/
inductive Receive
  | looping (received : U64)
  | broke (received : U64)

/-- Steps of the receive loop over its connection, and of the peer. -/
inductive Receive.Step (w : ℕ) (expected : U64) : Conn × Receive → Conn × Receive → Prop
  | read {c : Conn} {r : U64} {n : ℕ} (hmore : r < expected) (hn : 0 < n)
      (hle : n ≤ min (wantUsize w expected r) c.unread) :
      Step w expected (c, .looping r)
        ({ c with taken := c.taken + n }, .looping (r + BitVec.ofNat 64 n))
  /-- A read into no bytes returns 0 at once. -/
  | empty {c : Conn} {r : U64} (hmore : r < expected) (hwant : wantUsize w expected r = 0) :
      Step w expected (c, .looping r) (c, .broke r)
  | eof {c : Conn} {r : U64} (hmore : r < expected) (hunread : c.unread = 0)
      (hclosed : c.closed = true) : Step w expected (c, .looping r) (c, .broke r)
  | peer {c c' : Conn} {s : Receive} (h : c.Grows c') : Step w expected (c, s) (c', s)

/-- On 64 bits this is what `serve` wants. -/
theorem want_eq_wantUsize {neg : Negotiate} {t : Transfer} {r : U64} (hr : r.toNat = t.received)
    (hle : t.received ≤ expected neg) : want neg t = wantUsize 64 (neg.fileLen.getD 0) r := by
  have hle' : r.toNat ≤ (neg.fileLen.getD 0).toNat := hr.le.trans hle
  rw [wantUsize, BitVec.setWidth_eq, BitVec.toNat_sub_of_le hle', hr]
  rfl

/-- What the sender's null-source loop should do on `total` bytes. -/
structure SenderProgress (w : ℕ) (buf : List Byte) (total : U64) : Prop where
  wants : ∀ c, Run (NullPass w buf total) (.start []) c → c.sent < total →
    1 ≤ wantUsize w total c.sent
  ends : Acc (fun c' c => NullPass w buf total c c') (.start [])
  sends : ∀ c, Run (NullPass w buf total) (.start []) c → c.NullDone total → c.sent = total

/-- What the receive loop should do on `expected` bytes. -/
structure ReceiverProgress (w : ℕ) (expected : U64) : Prop where
  wants : ∀ c r, Run (Receive.Step w expected) (.fresh, .looping 0) (c, .looping r) →
    r < expected → 1 ≤ wantUsize w expected r
  heeds : ∀ c r, Run (Receive.Step w expected) (.fresh, .looping 0) (c, .broke r) →
    c.closed = true ∧ c.unread = 0

variable {w : ℕ} {buf : List Byte} {total : U64}

/-! ## Lengths that fit -/

theorem senderProgress_of_lt (hbuf : buf.length = BUF) (hw : total.toNat < 2 ^ w) :
    SenderProgress w buf total where
  wants _ _ hmore := wantUsize_pos hw hmore
  ends := by
    refine acc_of_measure (fun c => total.toNat - c.sent.toNat) (fun c c' hc hpass => ?_)
      (Copy.kept_start total)
    have hkept := (hpass.kept hbuf hc).1
    have hlt := hpass.sent_lt hw hbuf hc
    have hbound := hkept.bound
    exact ⟨hkept, by omega⟩
  sends c hrun hdone := by
    have hbound := (Copy.kept_of_run hbuf hrun).bound
    exact BitVec.eq_of_toNat_eq (Nat.le_antisymm hbound (BitVec.le_def.mp hdone))

/-- Behind the `break` the peer has closed its stream, and every byte of it is read. -/
def Receive.Heeds (c : Conn) : Receive → Prop
  | .looping _ => True
  | .broke _ => c.closed = true ∧ c.unread = 0

theorem Receive.Step.heeds {x y : Conn × Receive} (hw : total.toNat < 2 ^ w)
    (h : Step w total x y) (hx : x.2.Heeds x.1) : y.2.Heeds y.1 := by
  cases h with
  | read hmore hn hle => trivial
  | empty hmore hwant => exact absurd hwant (wantUsize_pos hw hmore).ne'
  | eof hmore hunread hclosed => exact ⟨hclosed, hunread⟩
  | @peer c c' s h =>
      cases s with
      | looping r => trivial
      | broke r =>
          obtain ⟨hclosed, hunread⟩ := hx
          obtain ⟨hclosed', hsent⟩ := h.closed hclosed
          refine ⟨hclosed', ?_⟩
          rw [Conn.unread, hsent, h.taken]
          exact hunread

theorem receiverProgress_of_lt (hw : total.toNat < 2 ^ w) : ReceiverProgress w total where
  wants _ _ _ hmore := wantUsize_pos hw hmore
  heeds _ _ hrun :=
    run_invariant (I := fun x => x.2.Heeds x.1) (fun _ _ hx hstep => hstep.heeds hw hx) hrun trivial

/-! ## Lengths that do not -/

/-- A chunk never takes the missing length below the modulus. -/
theorem modulus_le_sub_wantUsize {done : U64} (h : done.toNat + 2 ^ w ≤ total.toNat) :
    done.toNat + wantUsize w total done + 2 ^ w ≤ total.toNat := by
  have hsplit := Nat.div_add_mod (total.toNat - done.toNat) (2 ^ w)
  have hquot : 1 ≤ (total.toNat - done.toNat) / 2 ^ w :=
    Nat.div_pos (by omega) (Nat.two_pow_pos w)
  have hmul := Nat.mul_le_mul_left (2 ^ w) hquot
  rw [wantUsize_eq w (by omega)]
  omega

/-- The sender gets to a point where it wants nothing. -/
theorem sender_stalls (hbuf : buf.length = BUF) (hw : 2 ^ w ≤ total.toNat) :
    ∃ c, Run (NullPass w buf total) (.start []) c ∧ c.sent < total ∧
      wantUsize w total c.sent = 0 := by
  have hmodulus := Nat.two_pow_pos w
  refine canReach_of_measure
    (I := fun c : Copy => c.Kept total ∧ c.sent.toNat + 2 ^ w ≤ total.toNat)
    (fun c => total.toNat - c.sent.toNat) (fun c hc hgoal => ?_)
    ⟨Copy.kept_start total, (Nat.zero_add _).le.trans hw⟩
  have hmore : c.sent < total := BitVec.lt_def.mpr (by omega)
  have hpos : 0 < wantUsize w total c.sent :=
    Nat.pos_of_ne_zero fun hzero => hgoal ⟨hmore, hzero⟩
  have hpass : NullPass w buf total c _ := .pass hmore
  obtain ⟨hkept, hsent⟩ := hpass.kept hbuf hc.1
  have hleft := modulus_le_sub_wantUsize hc.2
  exact ⟨_, hpass, ⟨hkept, by omega⟩, by omega⟩

/-- The peer has sent everything, and more is missing than the `usize` holds. -/
structure Receive.Fed (w : ℕ) (total : U64) (c : Conn) (r : U64) : Prop where
  opened : c.closed = false
  unread : c.unread = total.toNat - r.toNat
  missing : r.toNat + 2 ^ w ≤ total.toNat

variable {c : Conn} {r : U64}

theorem Receive.Fed.more (h : Receive.Fed w total c r) : r < total := by
  have hmodulus := Nat.two_pow_pos w
  have hmissing := h.missing
  exact BitVec.lt_def.mpr (by omega)

/-- All that is wanted is there to be read. -/
theorem Receive.Fed.want_le_unread (h : Receive.Fed w total c r) :
    wantUsize w total r ≤ c.unread := by
  rw [h.unread]
  exact wantUsize_le w (BitVec.le_def.mp (BitVec.le_of_lt h.more))

/-- After a full read there is as much to read as is missing again. -/
theorem Receive.Fed.read (h : Receive.Fed w total c r) :
    Receive.Fed w total { c with taken := c.taken + wantUsize w total r }
      (r + BitVec.ofNat 64 (wantUsize w total r)) := by
  have hleft := modulus_le_sub_wantUsize h.missing
  have hmodulus := Nat.two_pow_pos w
  have hfit := total.isLt
  have hread : (r + BitVec.ofNat 64 (wantUsize w total r)).toNat =
      r.toNat + wantUsize w total r := by
    rw [BitVec.toNat_add, BitVec.toNat_ofNat, Nat.add_mod_mod, Nat.mod_eq_of_lt (by omega)]
  have hunread : c.sent - c.taken = total.toNat - r.toNat := h.unread
  refine ⟨h.opened, ?_, ?_⟩
  · rw [hread]
    show c.sent - (c.taken + wantUsize w total r) = _
    omega
  · rw [hread]
    exact hleft

/-- Reading all it wants, the receiver gets there too, over a stream still open. -/
theorem receiver_stalls (hw : 2 ^ w ≤ total.toNat) :
    ∃ c r, Run (Receive.Step w total) (.fresh, .looping 0) (c, .looping r) ∧
      c.closed = false ∧ r < total ∧ wantUsize w total r = 0 := by
  have hfed : Receive.Fed w total ⟨total.toNat, 0, false⟩ 0 :=
    ⟨rfl, rfl, (Nat.zero_add _).le.trans hw⟩
  have hgrows : Conn.fresh.Grows ⟨total.toNat, 0, false⟩ :=
    ⟨rfl, Nat.zero_le _, fun h => absurd h Bool.false_ne_true⟩
  have hreach : CanReach (Receive.Step w total)
      (fun x => ∃ r, x.2 = .looping r ∧ Receive.Fed w total x.1 r ∧ wantUsize w total r = 0)
      (⟨total.toNat, 0, false⟩, .looping 0) := by
    refine canReach_of_measure (I := fun x => ∃ r, x.2 = .looping r ∧ Receive.Fed w total x.1 r)
      (fun x => x.1.unread) (fun x hx hgoal => ?_) ⟨0, rfl, hfed⟩
    obtain ⟨c, s⟩ := x
    obtain ⟨r, rfl, hc⟩ := hx
    have hpos : 0 < wantUsize w total r :=
      Nat.pos_of_ne_zero fun hzero => hgoal ⟨r, rfl, hc, hzero⟩
    have hle := hc.want_le_unread
    refine ⟨_, .read hc.more hpos (Nat.le_min.mpr ⟨le_rfl, hle⟩), ⟨_, rfl, hc.read⟩, ?_⟩
    simp only [Conn.unread] at hle ⊢
    omega
  obtain ⟨x, hrun, r, hr, hc, hzero⟩ := hreach
  obtain ⟨c, s⟩ := x
  cases hr
  exact ⟨c, r, .head (.peer hgrows) hrun, hc.opened, hc.more, hzero⟩

/-! ## Progress at every size -/

theorem senderProgress_iff (hbuf : buf.length = BUF) :
    SenderProgress w buf total ↔ total.toNat < 2 ^ w := by
  refine ⟨fun h => ?_, senderProgress_of_lt hbuf⟩
  by_contra hge
  obtain ⟨c, hrun, hmore, hzero⟩ := sender_stalls hbuf (not_lt.mp hge)
  have hpos := h.wants c hrun hmore
  omega

theorem receiverProgress_iff : ReceiverProgress w total ↔ total.toNat < 2 ^ w := by
  refine ⟨fun h => ?_, receiverProgress_of_lt⟩
  by_contra hge
  obtain ⟨c, r, hrun, hopened, hmore, hzero⟩ := receiver_stalls (not_lt.mp hge)
  -- the empty read breaks the loop on an open stream
  have hclosed := (h.heeds c r (.tail hrun (.empty hmore hzero))).1
  rw [hopened] at hclosed
  exact Bool.false_ne_true hclosed

/-- The copy loops make progress at every size exactly when the `usize` has 64 bits or
    the length fits 32. -/
theorem copyProgress_iff (w : ℕ) (hw : w = 32 ∨ w = 64) (total : U64) (start : Start)
    (buf : List Byte) (hbuf : nullBuffer start = some buf) :
    SenderProgress w buf total ∧ ReceiverProgress w total ↔ w = 64 ∨ total.toNat < 2 ^ 32 := by
  rw [senderProgress_iff (nullBuffer_length hbuf), receiverProgress_iff, and_self_iff]
  have hfit := total.isLt
  rcases hw with rfl | rfl
  · exact ⟨fun h => .inr h, fun h => h.resolve_left (by decide)⟩
  · exact ⟨fun _ => .inl rfl, fun _ => hfit⟩

/-- Seven bytes pass on either width. -/
theorem copyProgress_iff_seven :
    (SenderProgress 32 (payload 0 BUF) 7 ∧ ReceiverProgress 32 7) ∧
      SenderProgress 64 (payload 0 BUF) 7 ∧ ReceiverProgress 64 7 :=
  ⟨(copyProgress_iff 32 (.inl rfl) 7 ⟨0, 0⟩ _ (nullBuffer_eq _)).mpr (.inr (by decide)),
    (copyProgress_iff 64 (.inr rfl) 7 ⟨0, 0⟩ _ (nullBuffer_eq _)).mpr (.inl rfl)⟩

/-- Four gibibytes on 32 bits: neither loop wants anything from the start. -/
theorem fourGiB_stalls :
    ¬ SenderProgress 32 (payload 0 BUF) 0x100000000 ∧ ¬ ReceiverProgress 32 0x100000000 := by
  have hnone : ¬ 1 ≤ wantUsize 32 0x100000000 0 := by decide
  constructor
  · intro h
    have hwants := h.wants (.start []) .refl (by decide)
    exact hnone hwants
  · intro h
    have hwants := h.wants .fresh 0 .refl (by decide)
    exact hnone hwants

end Andri.File

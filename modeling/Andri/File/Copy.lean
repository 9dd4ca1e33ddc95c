/-
  Andri.File.Copy

  The two copy loops of `file::drive` in `src/modes/file.rs`, with what they put on
  the stream.  From memory a pass cuts the chunk to what is missing; from disk
  it writes whatever the read returned, cut to the buffer only.

  So the last chunk from disk runs past the negotiated length if the file does,
  unless the reads happen to stop there: the disk branch sends the first
  `min L file_len` bytes of the file exactly when the file is no longer than
  negotiated or some reads of it add up to the negotiated length.
-/
import Andri.File.Drive
import Andri.Payload

namespace Andri.File

open Lib

/-! ## The loops -/

/-- Locals of a copy loop: the bytes counted, what is left to read of the file, and
    what has been written to the stream. -/
structure Copy where
  sent : U64
  rest : List Byte
  wire : List Byte

/-- Before the first pass over the file. -/
def Copy.start (file : List Byte) : Copy := ⟨0, file, []⟩

/-- `write_all` of a chunk, counted. -/
def Copy.send (chunk : List Byte) (c : Copy) : Copy :=
  { c with sent := c.sent + BitVec.ofNat 64 chunk.length, wire := c.wire ++ chunk }

/-- `want`: the bytes missing, cast to a `usize` of `w` bits and clamped to the
    buffer. -/
def wantUsize (w : ℕ) (total done : U64) : ℕ := min ((total - done).setWidth w).toNat BUF

/-- A pass of the disk branch, whose read returns `n` bytes. -/
inductive DiskPass (total : U64) : ℕ → Copy → Copy → Prop
  | pass {c : Copy} {n : ℕ} (hmore : c.sent < total) (hn : 0 < n) (hbuf : n ≤ BUF)
      (hrest : n ≤ c.rest.length) :
      DiskPass total n c { c.send (c.rest.take n) with rest := c.rest.drop n }

/-- A pass of the null-source branch over the buffer it filled. -/
inductive NullPass (w : ℕ) (buf : List Byte) (total : U64) : Copy → Copy → Prop
  | pass {c : Copy} (hmore : c.sent < total) :
      NullPass w buf total c (c.send (buf.take (wantUsize w total c.sent)))

/-- The disk loop is over: everything counted, or a read returned 0. -/
def Copy.DiskDone (total : U64) (c : Copy) : Prop := total ≤ c.sent ∨ c.rest = []

/-- The null-source loop is over. -/
def Copy.NullDone (total : U64) (c : Copy) : Prop := total ≤ c.sent

/-- The buffer of the null-source branch. -/
def nullBuffer (start : Start) : Option (List Byte) :=
  fillRandom (List.replicate BUF 0) start.serverSeed

theorem nullBuffer_eq (start : Start) :
    nullBuffer start = some (payload start.serverSeed BUF) := by
  rw [nullBuffer, fillRandom_eq, List.length_replicate]

theorem nullBuffer_length {start : Start} {buf : List Byte} (h : nullBuffer start = some buf) :
    buf.length = BUF := by
  rw [← Option.some.inj ((nullBuffer_eq start).symm.trans h)]
  exact payload_length _ _

/-! ## The disk branch -/

/-- The loop after reads of the sizes `ns`: none was made with enough counted. -/
structure Copy.Read (total : U64) (file : List Byte) (ns : List ℕ) (c : Copy) : Prop where
  within : ns.sum ≤ file.length
  wire : c.wire = file.take ns.sum
  rest : c.rest = file.drop ns.sum
  sent : c.sent = BitVec.ofNat 64 ns.sum
  before : ∀ k < ns.length, BitVec.ofNat 64 (ns.take k).sum < total

variable {total : U64} {file : List Byte} {ns : List ℕ} {n : ℕ} {c c' : Copy}

theorem DiskPass.read (h : DiskPass total n c c') (hc : c.Read total file ns) :
    c'.Read total file (ns ++ [n]) := by
  obtain ⟨hmore, hn, hbuf, hrest⟩ := h
  have hsum : (ns ++ [n]).sum = ns.sum + n := by simp
  have hlen : n ≤ file.length - ns.sum := by
    rw [hc.rest, List.length_drop] at hrest
    exact hrest
  have hwithin := hc.within
  refine ⟨by omega, ?_, ?_, ?_, fun k hk => ?_⟩
  · simp only [Copy.send]
    rw [hc.wire, hc.rest, hsum, ← List.take_add]
  · show c.rest.drop n = file.drop (ns ++ [n]).sum
    rw [hc.rest, hsum, List.drop_drop]
  · simp only [Copy.send]
    rw [hc.sent, hsum, BitVec.ofNat_add, List.length_take_of_le hrest]
  · rw [List.length_append, List.length_singleton] at hk
    rcases Nat.lt_succ_iff_lt_or_eq.mp hk with hlt | rfl
    · rw [List.take_append_of_le_length hlt.le]
      exact hc.before k hlt
    · rw [List.take_append_of_le_length le_rfl, List.take_length, ← hc.sent]
      exact hmore

theorem Copy.read_of_run (h : LabelledRun (DiskPass total) (.start file) ns c) :
    c.Read total file ns := by
  refine h.invariant (I := fun ns c => c.Read total file ns) ?_ fun ns n c c' hc hpass =>
    hpass.read hc
  exact ⟨Nat.zero_le _, rfl, rfl, rfl, fun k hk => absurd hk (Nat.not_lt_zero k)⟩

/-- Every pass reads something. -/
theorem DiskPass.rest_lt (h : DiskPass total n c c') : c'.rest.length < c.rest.length := by
  obtain ⟨hmore, hn, hbuf, hrest⟩ := h
  rw [List.length_drop]
  omega

theorem Copy.length_le_sum (h : LabelledRun (DiskPass total) (.start file) ns c) :
    ns.length ≤ ns.sum := by
  refine h.invariant (I := fun ns _ => ns.length ≤ ns.sum) le_rfl fun ns n c c' hc hpass => ?_
  obtain ⟨hmore, hn, hbuf, hrest⟩ := hpass
  rw [List.length_append, List.length_singleton, List.sum_append, List.sum_singleton]
  omega

/-- A disk loop that is not over has another pass, so it can be brought to its end. -/
theorem exists_diskDone (total : U64) (c : Copy) :
    ∃ ns c', LabelledRun (DiskPass total) c ns c' ∧ c'.DiskDone total := by
  have hbuf : 0 < BUF := by decide
  have hreach : CanReach (fun c c' => ∃ n, DiskPass total n c c') (Copy.DiskDone total) c := by
    refine canReach_of_measure (I := fun _ => True) (fun c => c.rest.length) (fun c _ hgoal => ?_)
      trivial
    -- a read of one byte is always possible
    have hmore : c.sent < total := BitVec.not_le.mp fun hall => hgoal (.inl hall)
    have hrest : 0 < c.rest.length := List.length_pos_iff.mpr fun hnil => hgoal (.inr hnil)
    have hpass : DiskPass total 1 c _ := .pass hmore Nat.one_pos hbuf hrest
    exact ⟨_, ⟨1, hpass⟩, trivial, hpass.rest_lt⟩
  obtain ⟨c', hrun, hdone⟩ := hreach
  obtain ⟨ns, hlabelled⟩ := LabelledRun.exists_of_run hrun
  exact ⟨ns, c', hlabelled, hdone⟩

/-- What is on the stream stays there. -/
theorem wire_length_le_of_run (h : LabelledRun (DiskPass total) c ns c') :
    c.wire.length ≤ c'.wire.length := by
  refine h.invariant (I := fun _ d => c.wire.length ≤ d.wire.length) le_rfl
    fun ns n d d' hd hpass => ?_
  obtain ⟨hmore, hn, hbuf, hrest⟩ := hpass
  simp only [Copy.send, List.length_append]
  omega

theorem Copy.Read.wire_length (hc : c.Read total file ns) : c.wire.length = ns.sum := by
  rw [hc.wire, List.length_take_of_le hc.within]

theorem Copy.Read.rest_length (hc : c.Read total file ns) :
    c.rest.length = file.length - ns.sum := by
  rw [hc.rest, List.length_drop]

/-- Below the negotiated length the count is exact, so the loop goes on. -/
theorem Copy.Read.sent_lt (hc : c.Read total file ns) (h : ns.sum < total.toNat) :
    c.sent < total := by
  rw [hc.sent, BitVec.lt_def, BitVec.toNat_ofNat, Nat.mod_eq_of_lt (h.trans total.isLt)]
  exact h

/-- A file no longer than negotiated is sent whole. -/
theorem Copy.Read.sum_of_le (hc : c.Read total file ns) (hdone : c.DiskDone total)
    (hle : file.length ≤ total.toNat) : ns.sum = file.length := by
  have hwithin := hc.within
  rcases hdone with hall | hnil
  · have hlt : ns.sum < 2 ^ 64 := by
      have hfit := total.isLt
      omega
    rw [hc.sent, BitVec.le_def, BitVec.toNat_ofNat, Nat.mod_eq_of_lt hlt] at hall
    omega
  · have hlen := hc.rest_length
    rw [hnil, List.length_nil] at hlen
    omega

/-- Reads that add up to the negotiated length are the last ones. -/
theorem Copy.Read.sum_of_take (hc : c.Read total file ns) {k : ℕ}
    (hk : (ns.take k).sum = total.toNat) : ns.sum = total.toNat := by
  have hlast : ns.length ≤ k := by
    by_contra hlt
    have hbefore := hc.before k (not_le.mp hlt)
    rw [hk, BitVec.ofNat_toNat, BitVec.setWidth_eq] at hbefore
    exact BitVec.lt_irrefl total hbefore
  rwa [List.take_of_length_le hlast] at hk

/-- The run of a finished disk loop sent the bytes negotiated. -/
def Exact (total : U64) (file : List Byte) (c : Copy) : Prop :=
  c.wire = file.take (min file.length total.toNat)

theorem Copy.Read.exact_iff (hc : c.Read total file ns) (hdone : c.DiskDone total) :
    Exact total file c ↔ file.length ≤ total.toNat ∨ ∃ k, (ns.take k).sum = total.toNat := by
  constructor
  · intro h
    rcases le_or_gt file.length total.toNat with hle | hgt
    · exact .inl hle
    · have hlen := congrArg List.length h
      rw [hc.wire_length, List.length_take, Nat.min_eq_right hgt.le, Nat.min_eq_left hgt.le] at hlen
      exact .inr ⟨ns.length, by rwa [List.take_length]⟩
  · rintro (hle | ⟨k, hk⟩)
    · have hsum := hc.sum_of_le hdone hle
      rw [Exact, hc.wire, hsum, Nat.min_eq_left hle]
    · have hsum := hc.sum_of_take hk
      have hwithin := hc.within
      rw [hsum] at hwithin
      rw [Exact, hc.wire, hsum, Nat.min_eq_right hwithin]

/-! ## A disk branch that overshoots -/

/-- Byte by byte the loop reaches every count below the negotiated length. -/
theorem exists_run_of_lt {m : ℕ} (hm : m < total.toNat) (hfile : m ≤ file.length) :
    ∃ ns c, LabelledRun (DiskPass total) (.start file) ns c ∧ ns.sum = m := by
  induction m with
  | zero => exact ⟨[], _, .refl, rfl⟩
  | succ m ih =>
      obtain ⟨ns, c, hrun, hsum⟩ := ih (by omega) (by omega)
      have hc := Copy.read_of_run hrun
      have hrest : 1 ≤ c.rest.length := by
        rw [hc.rest_length, hsum]
        omega
      have hpass := DiskPass.pass (hc.sent_lt (by omega)) Nat.one_pos (by decide) hrest
      refine ⟨ns ++ [1], _, hrun.tail hpass, ?_⟩
      rw [List.sum_append, List.sum_singleton, hsum]

/-- A longer file can be sent too far: the read before the end goes one byte past it. -/
theorem exists_overshoot (hpos : total ≠ 0) (hlong : total.toNat < file.length) :
    ∃ ns c, LabelledRun (DiskPass total) (.start file) ns c ∧ c.DiskDone total ∧
      total.toNat < c.wire.length := by
  have htotal : 0 < total.toNat := Nat.pos_of_ne_zero fun h => hpos (BitVec.eq_of_toNat_eq h)
  have hfile : total.toNat - 1 ≤ file.length := by omega
  obtain ⟨ns, c, hrun, hsum⟩ := exists_run_of_lt (Nat.sub_one_lt htotal.ne') hfile
  have hc := Copy.read_of_run hrun
  have hrest : 2 ≤ c.rest.length := by
    rw [hc.rest_length, hsum]
    omega
  have hover := hrun.tail (.pass (hc.sent_lt (by omega)) Nat.two_pos (by decide) hrest)
  obtain ⟨ns', c', hrest', hdone⟩ := exists_diskDone total _
  refine ⟨_, c', hover.trans hrest', hdone, ?_⟩
  calc total.toNat < (ns ++ [2]).sum := by
        rw [List.sum_append, List.sum_singleton, hsum]
        omega
    _ = _ := (Copy.read_of_run hover).wire_length.symm
    _ ≤ c'.wire.length := wire_length_le_of_run hrest'

/-! ## The null-source branch -/

variable {w : ℕ} {buf : List Byte}

/-- The loop's count is what it wrote, and never past the negotiated length. -/
structure Copy.Kept (total : U64) (c : Copy) : Prop where
  wire : c.wire.length = c.sent.toNat
  bound : c.sent.toNat ≤ total.toNat

/-- What is wanted is the residue of what is missing, clamped. -/
theorem wantUsize_eq (w : ℕ) {done : U64} (h : done.toNat ≤ total.toNat) :
    wantUsize w total done = min ((total.toNat - done.toNat) % 2 ^ w) BUF := by
  rw [wantUsize, BitVec.toNat_setWidth, BitVec.toNat_sub_of_le h]

theorem wantUsize_le (w : ℕ) {done : U64} (h : done.toNat ≤ total.toNat) :
    wantUsize w total done ≤ total.toNat - done.toNat := by
  have hmod := Nat.mod_le (total.toNat - done.toNat) (2 ^ w)
  rw [wantUsize_eq w h]
  omega

/-- A length that fits the `usize` leaves something to want. -/
theorem wantUsize_pos (hw : total.toNat < 2 ^ w) {done : U64} (h : done < total) :
    0 < wantUsize w total done := by
  have hlt : done.toNat < total.toNat := BitVec.lt_def.mp h
  have hbuf : 0 < BUF := by decide
  rw [wantUsize_eq w hlt.le, Nat.mod_eq_of_lt (by omega)]
  omega

theorem NullPass.kept (hbuf : buf.length = BUF) (h : NullPass w buf total c c')
    (hc : c.Kept total) : c'.Kept total ∧
      c'.sent.toNat = c.sent.toNat + wantUsize w total c.sent := by
  obtain ⟨hmore⟩ := h
  have hle := wantUsize_le w hc.bound
  have hbound := hc.bound
  have hfit := total.isLt
  have hchunk : (buf.take (wantUsize w total c.sent)).length = wantUsize w total c.sent :=
    List.length_take_of_le (hbuf ▸ Nat.min_le_right _ _)
  have hsent : (c.send (buf.take (wantUsize w total c.sent))).sent.toNat =
      c.sent.toNat + wantUsize w total c.sent := by
    rw [Copy.send, hchunk, BitVec.toNat_add, BitVec.toNat_ofNat, Nat.add_mod_mod,
      Nat.mod_eq_of_lt (by omega)]
  refine ⟨⟨?_, by omega⟩, hsent⟩
  rw [hsent, Copy.send, List.length_append, hchunk, hc.wire]

/-- With a length that fits the `usize` every pass goes forward. -/
theorem NullPass.sent_lt (hw : total.toNat < 2 ^ w) (hbuf : buf.length = BUF)
    (h : NullPass w buf total c c') (hc : c.Kept total) : c.sent.toNat < c'.sent.toNat := by
  have hsent := (h.kept hbuf hc).2
  obtain ⟨hmore⟩ := h
  have hpos := wantUsize_pos hw hmore
  omega

theorem Copy.kept_start (total : U64) : (Copy.start []).Kept total := ⟨rfl, Nat.zero_le _⟩

theorem Copy.kept_of_run (hbuf : buf.length = BUF)
    (h : Run (NullPass w buf total) (.start []) c) : c.Kept total :=
  run_invariant (fun _ _ hc hpass => (hpass.kept hbuf hc).1) h (kept_start total)

/-- Once over, the negotiated length is on the stream. -/
theorem Copy.Kept.wire_length (hc : c.Kept total) (hdone : c.NullDone total) :
    c.wire.length = total.toNat := by
  have hall : total.toNat ≤ c.sent.toNat := BitVec.le_def.mp hdone
  rw [hc.wire]
  exact Nat.le_antisymm hc.bound hall

/-- The null-source loop comes to its end. -/
theorem exists_nullDone (hw : total.toNat < 2 ^ w) (hbuf : buf.length = BUF) (hc : c.Kept total) :
    CanReach (NullPass w buf total) (Copy.NullDone total) c := by
  refine canReach_of_measure (fun c => total.toNat - c.sent.toNat) (fun c hc hgoal => ?_) hc
  have hmore : c.sent < total := BitVec.not_le.mp hgoal
  have hpass : NullPass w buf total c _ := .pass hmore
  have hkept := (hpass.kept hbuf hc).1
  have hlt := hpass.sent_lt hw hbuf hc
  have hbound := hkept.bound
  exact ⟨_, hpass, hkept, by omega⟩

/-! ## The passes as chunks of the drive -/

variable {neg : Negotiate}

/-- A disk pass is one of the drive's chunks when it stays within what is missing. -/
theorem DiskPass.chunk_iff (hdisk : neg.nullSource ≠ some true)
    (h : DiskPass (neg.fileLen.getD 0) n c c') :
    Chunk neg c.sent.toNat n ↔ n ≤ expected neg - c.sent.toNat := by
  obtain ⟨hmore, hn, hbuf, hrest⟩ := h
  unfold Chunk
  split
  · next hnull => exact absurd hnull hdisk
  · omega

/-- Every null-source pass is. -/
theorem NullPass.chunk (hnull : neg.nullSource = some true)
    (h : NullPass 64 buf (neg.fileLen.getD 0) c c') :
    Chunk neg c.sent.toNat (wantUsize 64 (neg.fileLen.getD 0) c.sent) := by
  obtain ⟨hmore⟩ := h
  have hlt : c.sent.toNat < (neg.fileLen.getD 0).toNat := BitVec.lt_def.mp hmore
  rw [Chunk, hnull, wantUsize, BitVec.setWidth_eq, BitVec.toNat_sub_of_le hlt.le]
  rfl

/-! ## The negotiated bound -/

/-- What the negotiated length asks of a finished disk loop, and of a null-source loop
    beside it. -/
structure Bounded (total : U64) (file : List Byte) (disk null : Copy) : Prop where
  exact : Exact total file disk
  bound : disk.wire.length ≤ total.toNat
  agrees : total.toNat ≤ file.length →
    disk.wire.length = total.toNat ∧ null.wire.length = total.toNat

theorem Exact.wire_length (h : Exact total file c) :
    c.wire.length = min file.length total.toNat := by
  rw [h, List.length_take]
  omega

/-- It comes down to the bytes the disk loop wrote. -/
theorem bounded_iff_exact {null : Copy} (hnull : null.wire.length = total.toNat) :
    Bounded total file c null ↔ Exact total file c := by
  refine ⟨fun h => h.exact, fun h => ⟨h, ?_, fun hle => ⟨?_, hnull⟩⟩⟩
  · rw [h.wire_length]
    exact Nat.min_le_right _ _
  · rw [h.wire_length, Nat.min_eq_right hle]

/-- A run of each loop to its end, the disk loop with reads of the sizes `ns`. -/
structure Finished (total : U64) (file buf : List Byte) (ns : List ℕ) (disk null : Copy) :
    Prop where
  read : LabelledRun (DiskPass total) (.start file) ns disk
  diskDone : disk.DiskDone total
  filled : Run (NullPass 64 buf total) (.start []) null
  nullDone : null.NullDone total

/-- Whatever the reads, the bound is kept. -/
def AlwaysBounded (total : U64) (file buf : List Byte) : Prop :=
  ∀ ns disk null, Finished total file buf ns disk null → Bounded total file disk null

theorem Finished.bounded_iff {null : Copy} (hbuf : buf.length = BUF)
    (h : Finished total file buf ns c null) :
    Bounded total file c null ↔ file.length ≤ total.toNat ∨ ∃ k, (ns.take k).sum = total.toNat := by
  have hnull := (Copy.kept_of_run hbuf h.filled).wire_length h.nullDone
  rw [bounded_iff_exact hnull]
  exact (Copy.read_of_run h.read).exact_iff h.diskDone

theorem alwaysBounded_iff (hbuf : buf.length = BUF) :
    AlwaysBounded total file buf ↔ file.length ≤ total.toNat ∨ total = 0 := by
  constructor
  · -- a longer file could be sent too far, against a null source that ends
    intro h
    by_contra hover
    obtain ⟨hlong, hpos⟩ := not_or.mp hover
    obtain ⟨ns, disk, hrun, hdone, hwire⟩ := exists_overshoot hpos (not_le.mp hlong)
    obtain ⟨null, hnrun, hndone⟩ := exists_nullDone total.isLt hbuf (Copy.kept_start total)
    have hbound := (h ns disk null ⟨hrun, hdone, hnrun, hndone⟩).bound
    omega
  · intro h ns disk null hfinished
    rw [hfinished.bounded_iff hbuf]
    rcases h with hle | rfl
    · exact .inl hle
    · exact .inr ⟨0, rfl⟩

/-- Both loops end, whatever the reads.  A finished disk loop has kept to the negotiated
    bound exactly when the file is no longer than negotiated or some first reads add up
    to the negotiated length; whatever the reads, when it is no longer than
    negotiated or nothing was. -/
theorem disk_bounded_iff (total : U64) (file : List Byte) (start : Start) (buf : List Byte)
    (hbuf : nullBuffer start = some buf) :
    (∀ ns c, LabelledRun (DiskPass total) (.start file) ns c →
      ns.length ≤ file.length ∧ ∃ ns' c', LabelledRun (DiskPass total) c ns' c' ∧
        c'.DiskDone total) ∧
    (∀ c, Run (NullPass 64 buf total) (.start []) c →
      CanReach (NullPass 64 buf total) (Copy.NullDone total) c) ∧
    (∀ ns disk null, Finished total file buf ns disk null →
      (Bounded total file disk null ↔
        file.length ≤ total.toNat ∨ ∃ k, (ns.take k).sum = total.toNat)) ∧
    (AlwaysBounded total file buf ↔ file.length ≤ total.toNat ∨ total = 0) := by
  have hlen := nullBuffer_length hbuf
  refine ⟨fun ns c hrun => ⟨?_, exists_diskDone total c⟩, fun c hrun => ?_,
    fun ns disk null h => h.bounded_iff hlen, alwaysBounded_iff hlen⟩
  · exact (Copy.length_le_sum hrun).trans (Copy.read_of_run hrun).within
  · exact exists_nullDone total.isLt hlen (Copy.kept_of_run hlen hrun)

/-- Three bytes of a file of which five were negotiated are sent whatever the reads. -/
theorem disk_bounded_iff_three : AlwaysBounded 5 [1, 2, 3] (payload 0 BUF) :=
  (disk_bounded_iff 5 [1, 2, 3] ⟨0, 0⟩ _ (nullBuffer_eq _)).2.2.2.mpr (.inl (by decide))

/-- A file grown to eight bytes since five were negotiated, and a disk that returns them
    in one read: all eight are sent. -/
theorem disk_sends_eight :
    ∃ disk null, Finished 5 [1, 2, 3, 4, 5, 6, 7, 8] (payload 0 BUF) [8] disk null ∧
      ¬ Bounded 5 [1, 2, 3, 4, 5, 6, 7, 8] disk null := by
  have hread : LabelledRun (DiskPass 5) (.start [1, 2, 3, 4, 5, 6, 7, 8]) [8] _ :=
    .tail .refl (.pass (by decide) (by decide) (by decide) (by decide))
  obtain ⟨null, hnrun, hndone⟩ :=
    exists_nullDone (w := 64) (by decide) (payload_length 0 BUF) (Copy.kept_start 5)
  refine ⟨_, null, ⟨hread, .inl (by decide), hnrun, hndone⟩, fun h => ?_⟩
  exact absurd h.bound (by decide)

end Andri.File

/-
  Andri.File.Accounting

  The bytes of a file transfer, end to end.  The receive loop of `file::serve` asks
  for no more than is missing and advances its total with the sampler's
  counter, so the series adds up to the counter, and at the end to the
  negotiated length.

  Together with a drive that writes exactly that length, in chunks cut to a
  buffer and through a stream of any capacity, every run can be completed, and
  every result holds the length.
-/
import Andri.File.Drive

namespace Andri.File

open Lib

theorem expected_lt (neg : Negotiate) : expected neg < 2 ^ 64 := (neg.fileLen.getD 0).isLt

/-! ## What the receive loop and the sampler hold -/

/-- The sampler's series against the counter. -/
def Sampler.Telescoped (len counter : ℕ) : Sampler → Prop
  | .spawned => True
  | .waiting l => Telescopes 0 l.lastBytes l.samples ∧ l.lastBytes ≤ counter
  | .returned samples => len ≤ counter ∧ Telescopes 0 len samples

/-- The transfer's totals. -/
structure Transfer.Accounts (neg : Negotiate) (t : Transfer) : Prop where
  counter : t.counter = t.received
  le : t.received ≤ expected neg
  series : t.sampler.Telescoped (expected neg) t.counter

/-- The totals at `serve`'s program points. -/
def Serve.Accounts (neg : Negotiate) : Serve → Prop
  | .accepting => True
  | .receiving t | .joining t _ => t.Accounts neg
  | .returned r => ∃ secs samples, r = result (expected neg) secs samples ∧
      Telescopes 0 (expected neg) samples

theorem Sampler.Telescoped.mono {len counter counter' : ℕ} {s : Sampler}
    (h : s.Telescoped len counter) (hle : counter ≤ counter') : s.Telescoped len counter' := by
  cases s with
  | spawned => trivial
  | waiting l => exact ⟨h.1, h.2.trans hle⟩
  | returned samples => exact ⟨h.1.trans hle, h.2⟩

/-- A tick extends the series to the counter, and ends it at the length. -/
theorem Sampler.Step.telescoped {t0 len counter clock clock' : ℕ} {s s' : Sampler}
    (h : Step t0 len counter clock s clock' s') (hle : counter ≤ len)
    (hs : s.Telescoped len counter) : s'.Telescoped len counter := by
  cases h with
  | poll hnow => exact ⟨.nil 0, Nat.zero_le _⟩
  | @tick _ l hnow hdue =>
      obtain ⟨hseries, hlast⟩ := hs
      have hrecord : Telescopes 0 counter
          (({ l with next := l.next + SECOND } : SampleLoop).record t0 clock' counter).samples :=
        Telescopes.record t0 clock' hseries hlast
      by_cases hall : len ≤ counter
      · have heq : counter = len := le_antisymm hle hall
        rw [if_pos hall]
        exact ⟨hall, heq ▸ hrecord⟩
      · rw [if_neg hall]
        exact ⟨hrecord, le_rfl⟩

theorem Transfer.Accounts.sampler {neg : Negotiate} {t : Transfer} {clock clock' : ℕ}
    {s' : Sampler} (ht : t.Accounts neg)
    (h : Sampler.Step t.t0 (expected neg) t.counter clock t.sampler clock' s') :
    ({ t with sampler := s' } : Transfer).Accounts neg where
  counter := ht.counter
  le := ht.le
  series := h.telescoped (ht.counter.trans_le ht.le) ht.series

variable {neg : Negotiate} {net net' : Net} {s s' : Serve}

/-- Every step of `serve` keeps its totals. -/
theorem Step.accounts (h : Step neg net s net' s') (hs : s.Accounts neg) : s'.Accounts neg := by
  cases h with
  | accept hpending hnow => exact ⟨rfl, Nat.zero_le _, trivial⟩
  | @read t n c rest hmore hc hn hle =>
      have hwant : n ≤ expected neg - t.received :=
        hle.trans ((min_le_left _ _).trans (min_le_left _ _))
      have hcounter := hs.counter
      refine ⟨?_, ?_, hs.series.mono (Nat.le_add_right _ _)⟩
      · show t.counter + n = t.received + n
        omega
      · show t.received + n ≤ expected neg
        omega
  | eof | done => exact hs
  | samplerReceiving h => exact Transfer.Accounts.sampler hs h
  | samplerJoining h => exact Transfer.Accounts.sampler hs h
  | @join t secs samples hret =>
      -- the sampler has seen all of it on the counter
      have hseries := hs.series
      rw [hret] at hseries
      have hcounter := hs.counter
      have hle := hs.le
      have hall : t.received = expected neg := by
        have hfull := hseries.1
        omega
      exact ⟨secs, samples, by rw [hall], hseries.2⟩

/-- A result holds the length, and so does its series. -/
theorem Serve.Accounts.result_eq {r : TestResult} (h : (Serve.returned r).Accounts neg) :
    r.bytes.toNat = expected neg ∧ seriesBytes r.samples = expected neg := by
  obtain ⟨secs, samples, rfl, hseries⟩ := h
  refine ⟨?_, ?_⟩
  · simp only [result, BitVec.toNat_ofNat]
    exact Nat.mod_eq_of_lt (expected_lt neg)
  · exact hseries.exact (expected_lt neg)

/-- What the receive loop has when it is over: all the peer sent, up to the length. -/
theorem Serve.Placed.received_eq {t : Transfer} {secs : ℚ} {c : Conn}
    (h : (Serve.joining t secs).Placed neg net) (ha : t.Accounts neg)
    (hc : net.conns.head? = some c) : t.received = min c.sent (expected neg) := by
  obtain ⟨d, hd, ht, hcomplete⟩ := h
  rw [hd] at hc
  cases hc
  have hsent := ht.received
  have hle := ha.le
  rcases hcomplete with hall | ⟨-, hshort⟩ <;> omega

/-! ## A stream that ends early -/

/-- A step of `serve`, or of a peer that does what it wants to the connections. -/
inductive Serve.Move (neg : Negotiate) : Net × Serve → Net × Serve → Prop
  | own {net net' : Net} {s s' : Serve} (h : Step neg net s net' s') : Move neg (net, s) (net', s')
  | peer {net net' : Net} {s : Serve} (h : net.Grows net') (hle : net.clock ≤ net'.clock) :
      Move neg (net, s) (net', s)

/-- A listener nothing has come to yet, and `serve` at its start. -/
def Serve.Init (x : Net × Serve) : Prop := x.1.Untouched ∧ x.2 = .accepting

/-- Both invariants, of every state of every run. -/
theorem Serve.Move.sound {x : Net × Serve} (h : Reachable Serve.Init (Serve.Move neg) x) :
    x.2.Placed neg x.1 ∧ x.2.Accounts neg := by
  refine h.invariant (I := fun x => x.2.Placed neg x.1 ∧ x.2.Accounts neg) ?_ ?_
  · rintro ⟨net, s⟩ ⟨hnet, rfl⟩
    exact ⟨hnet, trivial⟩
  · rintro x y ⟨hplaced, haccounts⟩ hmove
    cases hmove with
    | own h => exact ⟨h.placed hplaced, h.accounts haccounts⟩
    | peer h _ => exact ⟨hplaced.grows h, haccounts⟩

/-- The steps of `serve` alone. -/
def Serve.Own (neg : Negotiate) (x y : Net × Serve) : Prop := Step neg x.1 x.2 y.1 y.2

/-- Reading on, with the stream ended: in the receive loop, or past it. -/
def Serve.Draining : Serve → Prop
  | .receiving _ | .joining _ _ => True
  | _ => False

/-- The head of the connections, as the peer left it. -/
theorem head?_of_peerSide_eq {c c' : Conn}
    (h : net'.conns.map Conn.peerSide = net.conns.map Conn.peerSide)
    (hc : net.conns.head? = some c) (hc' : net'.conns.head? = some c') :
    c'.sent = c.sent ∧ c'.closed = c.closed := by
  rw [List.head?_eq_getElem?] at hc hc'
  obtain ⟨d, hd, hsent, hclosed⟩ := getElem?_of_peerSide_eq h hc'
  rw [hc] at hd
  cases hd
  exact ⟨hsent, hclosed⟩

/-- Once the peer has closed, the receive loop comes to its end, with what was sent. -/
theorem canReach_joining {t : Transfer} {c : Conn}
    (hplaced : (Serve.receiving t).Placed neg net) (ht : t.Accounts neg)
    (hc : net.conns.head? = some c) (hclosed : c.closed = true) :
    CanReach (Serve.Own neg) (fun x => ∃ t' secs, x.2 = .joining t' secs ∧
      t'.received = min c.sent (expected neg)) (net, .receiving t) := by
  refine canReach_of_measure
    (I := fun x => (x.2.Placed neg x.1 ∧ x.2.Accounts neg) ∧ x.2.Draining ∧
      x.1.conns.map Conn.peerSide = net.conns.map Conn.peerSide)
    (fun x => x.2.rank neg) ?_ ⟨⟨hplaced, ht⟩, trivial, rfl⟩
  rintro ⟨net', s⟩ ⟨⟨hplaced, haccounts⟩, hdraining, hside⟩ hgoal
  cases s with
  | accepting | returned r => exact absurd hdraining id
  | joining t' secs =>
      obtain ⟨d, hd, -⟩ := id hplaced
      refine absurd ⟨t', secs, rfl, ?_⟩ hgoal
      rw [hplaced.received_eq haccounts hd, (head?_of_peerSide_eq hside hc hd).1]
  | receiving t' =>
      -- a closed stream never makes the loop wait
      have hidle : ¬ (Serve.receiving t').Idle neg net' := by
        obtain ⟨d, hd, -⟩ := hplaced
        intro hidle
        have hopen := (hidle.2 d hd).2
        rw [(head?_of_peerSide_eq hside hc hd).2, hclosed] at hopen
        cases hopen
      obtain ⟨net'', s'', hstep, hrank⟩ :=
        hplaced.exists_step hidle fun r h => by cases h
      have hdraining' : s''.Draining := by cases hstep <;> trivial
      exact ⟨(net'', s''), hstep, ⟨⟨hstep.placed hplaced, hstep.accounts haccounts⟩, hdraining',
        hstep.peerSide_eq.trans hside⟩, hrank⟩

/-! ## Both ends of the transfer -/

/-- A drive and a `serve` on the two ends of the net. -/
structure Pair where
  net : Net
  drive : Drive
  serve : Serve

/-- Steps of the pair: either end's, with the clock going on as it likes. -/
inductive Pair.Step (neg : Negotiate) (cap : ℕ) : Pair → Pair → Prop
  | drive {net net' : Net} {d d' : Drive} {s : Serve}
      (h : Drive.Step neg cap True net d net' d') : Step neg cap ⟨net, d, s⟩ ⟨net', d', s⟩
  | serve {net net' : Net} {d : Drive} {s s' : Serve} (h : File.Step neg net s net' s') :
      Step neg cap ⟨net, d, s⟩ ⟨net', d, s'⟩
  | clock {net : Net} {d : Drive} {s : Serve} {now : ℕ} (h : net.clock ≤ now) :
      Step neg cap ⟨net, d, s⟩ ⟨{ net with clock := now }, d, s⟩

/-- Nothing connected yet. -/
def Pair.Init (p : Pair) : Prop :=
  p.net.conns = [] ∧ p.net.accepted = 0 ∧ p.drive = .connecting ∧ p.serve = .accepting

/-- Both ends have returned. -/
def Pair.Final (p : Pair) : Prop := p.drive = .returned ∧ ∃ r, p.serve = .returned r

/-- The invariants of the two ends. -/
structure Pair.Sound (neg : Negotiate) (p : Pair) : Prop where
  drive : p.drive.Placed neg p.net
  serve : p.serve.Placed neg p.net
  accounts : p.serve.Accounts neg

section Drive

variable {cap : ℕ} {listening : Prop} {d d' : Drive}

/-- To the server, a drive is a peer. -/
theorem Drive.Step.grows (h : Drive.Step neg cap listening net d net' d') : net.Grows net' := by
  cases h with
  | connect hl => exact .connect net
  | chunk | wrote => exact .of_eq rfl rfl
  | write hc hopen hn hleft hroom =>
      refine .set hc ⟨rfl, Nat.le_add_right _ _, fun hclosed => ?_⟩
      rw [hopen] at hclosed
      cases hclosed
  | finish hall hc => exact .set hc ⟨rfl, le_rfl, fun _ => ⟨rfl, rfl⟩⟩

/-- Every step of a drive is one towards its end, whatever the net does in between. -/
theorem Drive.Step.rank_lt (h : Drive.Step neg cap listening net d net' d') :
    d'.rank neg < d.rank neg := by
  cases h with
  | connect hl =>
      simp only [rank]
      omega
  | chunk hmore hn =>
      have hbounds := hn.bounds hmore
      simp only [rank]
      omega
  | write hc hopen hn hleft hroom =>
      simp only [rank]
      omega
  | wrote =>
      simp only [rank]
      omega
  | finish hall hc =>
      simp only [rank]
      omega

end Drive

section Pair

variable {cap : ℕ} {p p' : Pair}

theorem Pair.Step.sound (h : Pair.Step neg cap p p') (hp : p.Sound neg) : p'.Sound neg := by
  cases h with
  | drive h =>
      exact ⟨h.placed hp.drive, hp.serve.grows h.grows, hp.accounts⟩
  | serve h =>
      exact ⟨hp.drive.congr h.peerSide_eq, h.placed hp.serve, h.accounts hp.accounts⟩
  | @clock net d s now h =>
      have hdrive : d.Placed neg net := hp.drive
      exact ⟨hdrive.congr rfl, hp.serve.grows (.of_eq rfl rfl), hp.accounts⟩

theorem Pair.sound_of_reachable (h : Reachable Pair.Init (Pair.Step neg cap) p) :
    p.Sound neg := by
  refine h.invariant (I := Pair.Sound neg) ?_ fun _ _ hp hs => hs.sound hp
  rintro ⟨net, d, s⟩ ⟨hconns, haccepted, rfl, rfl⟩
  refine ⟨hconns, ⟨haccepted, ?_⟩, trivial⟩
  simp only at hconns
  simp [hconns]

/-- What is left to do for both ends. -/
def Pair.rank (neg : Negotiate) (p : Pair) : ℕ :=
  p.drive.rank neg + p.net.unread + p.serve.rank neg

/-- A drive waiting for room leaves the server something to do. -/
theorem Pair.Sound.not_idle {sent chunk left : ℕ} {c : Conn} (hp : p.Sound neg) (hcap : 0 < cap)
    (hd : p.drive = .writing sent chunk left) (hleft : 0 < left)
    (hc : p.net.conns[0]? = some c) (hfull : cap ≤ c.unread) :
    ¬ p.serve.Idle neg p.net ∧ ∀ r, p.serve ≠ .returned r := by
  obtain ⟨net, d, s⟩ := p
  have hdrive := hp.drive
  have hserve := hp.serve
  simp only at hd hc hdrive hserve
  subst hd
  obtain ⟨c', hconns, hopen, hcount, hle⟩ := hdrive
  rw [hconns] at hc
  cases hc
  have hhead : net.conns.head? = some c := by rw [hconns]; rfl
  have hidle : ¬ s.Idle neg net :=
    hserve.not_idle_of_unread hhead (hcap.trans_le hfull) hopen
  refine ⟨hidle, ?_⟩
  rintro r rfl
  -- a result means the length is on the stream, with bytes still to write
  obtain ⟨e, he, hlen⟩ := hserve
  cases hhead.symm.trans he
  omega

/-- Until both ends have returned, one of them has a step towards it. -/
theorem Pair.Sound.exists_step (hp : p.Sound neg) (hcap : 0 < cap) (hne : ¬ p.Final) :
    ∃ p', Pair.Step neg cap p p' ∧ p'.rank neg < p.rank neg := by
  obtain ⟨net, d, s⟩ := p
  have hdrive : d.Placed neg net := hp.drive
  have hserve : s.Placed neg net := hp.serve
  by_cases hs : s.Idle neg net ∨ ∃ r, s = .returned r
  · -- the server waits or is done, so the drive is not, and has room
    have hd : d ≠ .returned := by
      rintro rfl
      obtain ⟨c, hconns, hsent⟩ := hdrive
      have hsupplied : Supplied neg net := ⟨c, by rw [hconns]; rfl, hsent.ge⟩
      rcases hs with hidle | hret
      · exact hserve.not_idle hsupplied hidle
      · exact hne ⟨rfl, hret⟩
    have hroom : ∀ sent chunk left c, d = .writing sent chunk left → 0 < left →
        net.conns[0]? = some c → c.unread < cap := by
      intro sent chunk left c hw hleft hc
      by_contra hfull
      obtain ⟨hidle, hret⟩ := hp.not_idle hcap hw hleft hc (by omega)
      rcases hs with h | ⟨r, h⟩
      · exact hidle h
      · exact hret r h
    obtain ⟨net', d', hstep, hrank⟩ : ∃ net' d', Drive.Step neg cap True net d net' d' ∧
        d'.rank neg + net'.unread < d.rank neg + net.unread :=
      Drive.Placed.exists_step hdrive trivial hd hroom
    refine ⟨⟨net', d', s⟩, .drive hstep, ?_⟩
    simp only [rank]
    omega
  · push Not at hs
    obtain ⟨net', s', hstep, hrank⟩ := hserve.exists_step hs.1 hs.2
    have hunread := hstep.unread_le
    refine ⟨⟨net', d, s'⟩, .serve hstep, ?_⟩
    simp only [rank]
    omega

/-- From every state of every run, both ends can return. -/
theorem Pair.Sound.canReach_final (hp : p.Sound neg) (hcap : 0 < cap) :
    CanReach (Pair.Step neg cap) Pair.Final p := by
  refine canReach_of_measure (I := Pair.Sound neg) (Pair.rank neg) ?_ hp
  intro p hp hne
  obtain ⟨p', hstep, hrank⟩ := hp.exists_step hcap hne
  exact ⟨p', hstep, hstep.sound hp, hrank⟩

end Pair

/-! ## The whole transfer -/

/-- In every run of a drive against `serve`, whatever the sizes of the chunks, the writes
    and the reads, and whenever the sampler ticks: the drive only takes steps towards
    its end, and returns with exactly the length negotiated on the stream; the receive loop
    never asks for more than is missing, with its total on the counter; a result
    and its series hold the length; and both ends can always return.  On a
    stream that its peer ends short of the length, the loop ends with what was sent. -/
theorem transfer_exact (neg : Negotiate) (cap : ℕ) (hcap : 0 < cap) :
    (∀ n, neg.fileLen = some n → expected neg = n.toNat) ∧
    (∀ p, Reachable Pair.Init (Pair.Step neg cap) p →
      (∀ net' d', Drive.Step neg cap True p.net p.drive net' d' →
        d'.rank neg < p.drive.rank neg) ∧
      (p.drive = .returned → ∃ c, p.net.conns = [c] ∧ c.sent = expected neg) ∧
      (∀ t, p.serve = .receiving t → t.received ≤ expected neg ∧ t.counter = t.received ∧
        t.received + want neg t ≤ expected neg) ∧
      (∀ r, p.serve = .returned r →
        r.bytes.toNat = expected neg ∧ seriesBytes r.samples = expected neg) ∧
      CanReach (Pair.Step neg cap) Pair.Final p) ∧
    ∀ net s c, Reachable Serve.Init (Serve.Move neg) (net, s) → net.conns.head? = some c →
      c.closed = true → c.sent < expected neg →
      (∀ t secs, s = .joining t secs → t.received = c.sent) ∧
      ∀ t, s = .receiving t → CanReach (Serve.Own neg)
        (fun x => ∃ t' secs, x.2 = .joining t' secs ∧ t'.received = c.sent) (net, s) := by
  refine ⟨fun n hn => ?_, fun p hreach => ?_, fun net s c hreach hc hclosed hshort => ?_⟩
  · rw [expected, hn, Option.getD_some]
  · have hp := Pair.sound_of_reachable hreach
    refine ⟨fun _ _ h => h.rank_lt, fun hd => ?_, fun t ht => ?_, fun r hr => ?_,
      hp.canReach_final hcap⟩
    · have hdrive := hp.drive
      rwa [hd] at hdrive
    · have haccounts := hp.accounts
      rw [ht] at haccounts
      have hle := haccounts.le
      refine ⟨hle, haccounts.counter, ?_⟩
      simp only [want]
      omega
    · have haccounts := hp.accounts
      rw [hr] at haccounts
      exact haccounts.result_eq
  · obtain ⟨hplaced, haccounts⟩ := Serve.Move.sound hreach
    -- what was sent is the smaller of the two
    have hmin : min c.sent (expected neg) = c.sent := min_eq_left hshort.le
    refine ⟨fun t secs hs => ?_, fun t hs => ?_⟩
    · subst hs
      rw [hplaced.received_eq haccounts hc, hmin]
    · subst hs
      have hjoin := canReach_joining hplaced haccounts hc hclosed
      rwa [hmin] at hjoin

/-- A request for a file of seven bytes, from memory. -/
def sevenByteFile : Negotiate where
  mode := .file
  durationSecs := 10
  warmupSecs := 0
  parallel := 1
  bufferBytes := 65536
  bidir := false
  bitrateBps := none
  packetBytes := none
  fileLen := some 7
  nullSource := some true

/-- Through a stream that holds one byte at a time. -/
theorem transfer_exact_sevenBytes :
    CanReach (Pair.Step sevenByteFile 1) Pair.Final ⟨Net.init, .connecting, .accepting⟩ := by
  have hinit : Pair.Init ⟨Net.init, .connecting, .accepting⟩ := ⟨rfl, rfl, rfl, rfl⟩
  exact ((transfer_exact sevenByteFile 1 Nat.one_pos).2.1 _ (.start hinit)).2.2.2.2

end Andri.File

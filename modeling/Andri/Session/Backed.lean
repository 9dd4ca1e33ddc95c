/-
  Andri.Session.Backed

  The bytes of a Result against what the peer has sent.  In TCP mode the
  counters of the streams are what has been taken off their connections, so a
  Result never reports more than was sent on the connections accepted.  In file
  mode the sampler holds the Result back until all bytes are in, so one that is
  reported names exactly the length negotiated, all of it sent.
-/
import Andri.Lib.Turns
import Andri.Session.Carry
import Andri.Session.Handshake
import Mathlib.Algebra.Order.BigOperators.Group.List

namespace Andri

open Lib

/-! ## Connections under the peer's steps -/

/-- What has been taken off the first connections is the server's affair. -/
theorem PeerStep.taken_take {w w' : World} (h : PeerStep w w') {k : ℕ}
    (hk : k ≤ w.net.conns.length) :
    (w'.net.conns.map Conn.taken).take k = (w.net.conns.map Conn.taken).take k := by
  cases h with
  | send | close | reset | datagram | wait => rfl
  | connect =>
      rw [List.map_append, List.take_append_of_le_length (by simpa using hk)]
  | @sendData i c n hc =>
      have hset : (w.net.conns.set i { c with sent := c.sent + n }).map Conn.taken =
          w.net.conns.map Conn.taken := map_set_of_eq hc rfl
      exact congrArg (List.take k) hset
  | @closeData i c hc =>
      have hset : (w.net.conns.set i { c with closed := true }).map Conn.taken =
          w.net.conns.map Conn.taken := map_set_of_eq hc rfl
      exact congrArg (List.take k) hset

/-- The bytes sent on the first `k` connections. -/
def Net.sentOn (net : Net) (k : ℕ) : ℕ := ((net.conns.take k).map Conn.sent).sum

theorem PeerStep.sentOn_le {w w' : World} (h : PeerStep w w') (k : ℕ) :
    w.net.sentOn k ≤ w'.net.sentOn k := by
  unfold Net.sentOn
  cases h with
  | send | close | reset | datagram | wait => exact le_rfl
  | connect =>
      rw [List.take_append, List.map_append, List.sum_append]
      exact Nat.le_add_right _ _
  | @closeData i c hc =>
      have hset : (w.net.conns.set i { c with closed := true }).map Conn.sent =
          w.net.conns.map Conn.sent := map_set_of_eq hc rfl
      rw [List.map_take, List.map_take, hset]
  | @sendData i c n hc =>
      show _ ≤ (((w.net.conns.set i { c with sent := c.sent + n }).take k).map Conn.sent).sum
      rw [List.take_set]
      -- the connection fed is among the first, or past them
      by_cases hi : i < k
      · have hget : (w.net.conns.take k)[i]? = some c := by rw [List.getElem?_take_of_lt hi, hc]
        have hsum := sum_map_set Conn.sent hget { c with sent := c.sent + n }
        dsimp only at hsum
        omega
      · rw [List.set_eq_of_length_le (by rw [List.length_take]; omega)]

/-! ## TCP -/

/-- A sum of counters that is being read, or has been, is not more than they hold. -/
def Tcp.Main.Within (counters : List ℕ) : Tcp.Main → Prop
  | .awaitingStop => True
  | .reading k sum => sum ≤ (counters.take k).sum
  | .joiningSampler bytes _ | .joiningWarmup bytes _ _ => bytes ≤ counters.sum

/-- No connection has been read past what was sent on it. -/
def Net.Sane (net : Net) : Prop := ∀ c ∈ net.conns, c.taken ≤ c.sent

theorem Net.Untouched.sane {net : Net} (h : net.Untouched) : net.Sane := by
  intro c hc
  rw [h.taken c hc]
  exact Nat.zero_le _

theorem PeerStep.sane {w w' : World} (h : PeerStep w w') (hw : w.net.Sane) : w'.net.Sane := by
  intro c' hc'
  obtain ⟨i, hi⟩ := List.mem_iff_getElem?.mp hc'
  -- a connection is new, or one there was, fed by the peer
  cases hold : w.net.conns[i]? with
  | none =>
      rw [h.grows.opened hi hold]
      exact le_rfl
  | some c =>
      obtain ⟨d, hd, hg⟩ := h.grows.kept hold
      rw [hi] at hd
      cases hd
      rw [hg.taken]
      exact (hw c (List.mem_of_getElem? hold)).trans hg.sent

/-- The counters of `tcp::serve` are what has been taken off its streams. -/
def Tcp.Serve.Backed (neg : Negotiate) (net : Net) : Tcp.Serve → Prop
  | .accepting _ => ∀ c ∈ net.conns, c.taken = 0
  | .measuring t => t.counters = (net.conns.map Conn.taken).take neg.parallel.toNat ∧
      t.main.Within t.counters
  | .returned r => r.bytes.toNat ≤ net.sentOn neg.parallel.toNat

theorem Tcp.Main.Within.set {counters : List ℕ} {m : Tcp.Main} {i b n : ℕ}
    (h : m.Within counters) (hb : counters[i]? = some b) : m.Within (counters.set i (b + n)) := by
  have hset : ∀ {l : List ℕ}, l[i]? = some b → l.sum ≤ (l.set i (b + n)).sum := by
    intro l hl
    have hsum := sum_map_set id hl (b + n)
    simp only [List.map_id, id] at hsum
    omega
  cases m with
  | awaitingStop => trivial
  | reading k sum =>
      have hle : sum ≤ (counters.take k).sum := h
      show sum ≤ ((counters.set i (b + n)).take k).sum
      rw [List.take_set]
      by_cases hi : i < k
      · exact hle.trans (hset (by rw [List.getElem?_take_of_lt hi, hb]))
      · rw [List.set_eq_of_length_le (by rw [List.length_take]; omega)]
        exact hle
  | joiningSampler bytes | joiningWarmup bytes => exact le_trans h (hset hb)

/-- What has been taken off sane connections was sent on them. -/
theorem Net.Sane.sum_taken_le {net : Net} (h : net.Sane) (k : ℕ) :
    ((net.conns.map Conn.taken).take k).sum ≤ net.sentOn k := by
  rw [← List.map_take]
  exact List.sum_le_sum fun c hc => h c (List.mem_of_mem_take hc)

theorem Tcp.Step.backed {neg : Negotiate} {net net' : Net} {s s' : Tcp.Serve}
    (h : Tcp.Step neg net s net' s') (hplaced : s.Placed neg net) (hsane : net.Sane)
    (hs : s.Backed neg net) : net'.Sane ∧ s'.Backed neg net' := by
  cases h with
  | accept => exact ⟨hsane, hs⟩
  | @spawn k now hk hnow =>
      refine ⟨hsane, ?_, trivial⟩
      -- nothing has been read yet
      have hzero : net.conns.map Conn.taken = List.replicate net.conns.length 0 :=
        List.eq_replicate_iff.mpr ⟨List.length_map _, fun n hn => by
          obtain ⟨c, hc, rfl⟩ := List.mem_map.mp hn
          exact hs c hc⟩
      have hlen : k ≤ net.conns.length := hplaced.2.1
      show List.replicate k 0 = (net.conns.map Conn.taken).take neg.parallel.toNat
      rw [hzero, ← hk, List.take_replicate, Nat.min_eq_left hlen]
  | @recv t i n b c hc hb hn hle =>
      obtain ⟨hcounters, hmain⟩ := hs
      have htaken : b = c.taken := by
        rw [hcounters] at hb
        have hlt : i < neg.parallel.toNat := by
          have hlen := (List.getElem?_eq_some_iff.mp hb).1
          rw [List.length_take] at hlen
          omega
        rw [List.getElem?_take_of_lt hlt, List.getElem?_map, hc] at hb
        exact (Option.some.inj hb).symm
      have hunread : n ≤ c.sent - c.taken := hle.trans (min_le_left _ _)
      refine ⟨fun d hd => ?_, ?_, hmain.set hb⟩
      · rcases List.mem_or_eq_of_mem_set hd with hold | rfl
        · exact hsane d hold
        · have hc' := hsane c (List.mem_of_getElem? hc)
          show c.taken + n ≤ c.sent
          omega
      · show t.counters.set i (b + n) = ((net.conns.set i _).map Conn.taken).take _
        rw [List.map_set, List.take_set, ← hcounters, htaken]
  | sampler | warmup => exact ⟨hsane, hs⟩
  | @finalLoad t k sum b hmain hk =>
      obtain ⟨hcounters, hwithin⟩ := hs
      rw [hmain] at hwithin
      have hsum : sum ≤ (t.counters.take k).sum := hwithin
      refine ⟨hsane, hcounters, ?_⟩
      show sum + b ≤ (t.counters.take (k + 1)).sum
      rw [List.take_add_one, hk, List.sum_append]
      simpa using hsum
  | @finalDone t k sum now hmain hk hnow =>
      obtain ⟨hcounters, hwithin⟩ := hs
      rw [hmain] at hwithin
      refine ⟨hsane, hcounters, ?_⟩
      show sum ≤ t.counters.sum
      rw [← List.take_length (l := t.counters), ← hk]
      exact hwithin
  | @joinSampler t bytes at_ samples hmain hret =>
      obtain ⟨hcounters, hwithin⟩ := hs
      rw [hmain] at hwithin
      exact ⟨hsane, hcounters, hwithin⟩
  | @joinWarmup t bytes at_ wbytes wat samples hmain hw =>
      obtain ⟨hcounters, hwithin⟩ := hs
      rw [hmain] at hwithin
      have hbytes : bytes ≤ t.counters.sum := hwithin
      refine ⟨hsane, ?_⟩
      show (BitVec.ofNat 64 (bytes - wbytes)).toNat ≤ _
      calc (BitVec.ofNat 64 (bytes - wbytes)).toNat
          ≤ bytes - wbytes := by rw [BitVec.toNat_ofNat]; exact Nat.mod_le _ _
        _ ≤ t.counters.sum := (Nat.sub_le _ _).trans hbytes
        _ ≤ net.sentOn neg.parallel.toNat := by rw [hcounters]; exact hsane.sum_taken_le _

/-! ## File -/

/-- `file::serve` receives no more than the length negotiated, and returns with all of it. -/
def File.Serve.Bounded (neg : Negotiate) : File.Serve → Prop
  | .accepting => True
  | .receiving t | .joining t _ => t.received ≤ expected neg
  | .returned r => r.bytes = neg.fileLen.getD 0

theorem File.Step.bounded {neg : Negotiate} {net net' : Net} {s s' : File.Serve}
    (h : File.Step neg net s net' s') (hplaced : s.Placed neg net) (hs : s.Bounded neg) :
    s'.Bounded neg := by
  cases h with
  | accept => exact Nat.zero_le _
  | @read t n c rest hmore hc hn hle =>
      have hwant : n ≤ expected neg - t.received :=
        hle.trans ((min_le_left _ _).trans (min_le_left _ _))
      show t.received + n ≤ expected neg
      omega
  | eof | done | samplerReceiving | samplerJoining => exact hs
  | @join t secs samples hret =>
      obtain ⟨c, -, hholds, -⟩ := hplaced
      -- the sampler has seen the length on the counter
      have hall := hholds.sampled samples hret
      rw [hholds.counter] at hall
      have hle : t.received ≤ expected neg := hs
      show BitVec.ofNat 64 t.received = _
      rw [Nat.le_antisymm hle hall, expected, BitVec.ofNat_toNat, BitVec.setWidth_eq]

/-! ## Results -/

/-- The bytes a data path holds, against what the peer has sent. -/
def DataPath.Backed (neg : Negotiate) (net : Net) : DataPath → Prop
  | .tcp s => net.Sane ∧ s.Backed neg net
  | .udp _ => True
  | .file s => s.Bounded neg

/-- The bytes of a Result, against what the peer has sent. -/
def ResultBacked (neg : Negotiate) (net : Net) (r : TestResult) : Prop :=
  match neg.mode with
  | .tcp => r.bytes.toNat ≤ net.sentOn neg.parallel.toNat
  | .udp => True
  | .file => r.bytes = neg.fileLen.getD 0 ∧ File.Supplied neg net

theorem carries_backed : Carries 0 DataPath.Backed ResultBacked where
  entry {n net} h _ := by
    cases hm : n.mode with
    | tcp => exact ⟨h.sane, h.taken⟩
    | udp | file => trivial
  step hplaced hs h := by
    cases h with
    | tcp h => exact h.backed hplaced hs.1 hs.2
    | udp h => trivial
    | file h => exact h.bounded hplaced hs
  stop {n net path path'} hs h := by
    cases h with
    | @tcp s s' hstop =>
        cases s with
        | measuring t =>
            simp only [Tcp.Serve.onStop] at hstop
            split at hstop <;> cases hstop
            exact ⟨hs.1, hs.2.1, Nat.zero_le _⟩
        | accepting | returned => cases hstop
    | udp => trivial
  peer {n path w w'} h hplaced hs := by
    cases path with
    | tcp s =>
        refine ⟨h.sane hs.1, ?_⟩
        cases s with
        | accepting k =>
            intro c' hc'
            -- a connection is new, or one there was
            obtain ⟨i, hi⟩ := List.mem_iff_getElem?.mp hc'
            cases hold : w.net.conns[i]? with
            | none => rw [h.grows.opened hi hold, Conn.fresh]
            | some c =>
                obtain ⟨d, hd, hg⟩ := h.grows.kept hold
                rw [hi] at hd
                cases hd
                rw [hg.taken]
                exact hs.2 c (List.mem_of_getElem? hold)
        | measuring t =>
            refine ⟨?_, hs.2.2⟩
            rw [h.taken_take hplaced.1]
            exact hs.2.1
        | returned r => exact le_trans hs.2 (h.sentOn_le _)
    | udp s => trivial
    | file s => exact hs
  returned {n net path r} hmode hplaced hs hr := by
    unfold ResultBacked
    rw [← hmode]
    cases path with
    | tcp s =>
        cases s with
        | returned r' =>
            cases hr
            exact hs.2
        | accepting | measuring => cases hr
    | udp s => trivial
    | file s =>
        cases s with
        | returned r' =>
            cases hr
            exact ⟨hs, hplaced⟩
        | accepting | receiving | joining => cases hr
  kept {n r w w'} h hs := by
    unfold ResultBacked at hs ⊢
    cases hm : n.mode <;> rw [hm] at hs
    · exact le_trans hs (h.sentOn_le _)
    · trivial
    · exact ⟨hs.1, hs.2.grows h.grows⟩

/-- No Result is made up: against any peer a TCP Result holds no more bytes than were sent
    on the connections of the test, and a file Result exactly the length negotiated, all of
    it sent on the first connection. -/
theorem result_backed {w : World} (h : SessionReachable w) {r : TestResult}
    (hr : .result r ∈ w.ctrl.written) :
    ∃ n, w.Requested n ∧
      (n.mode = .tcp → r.bytes.toNat ≤ ((w.net.conns.take n.parallel.toNat).map Conn.sent).sum) ∧
      (n.mode = .file → r.bytes = n.fileLen.getD 0 ∧
        ∃ c, w.net.conns.head? = some c ∧ r.bytes.toNat ≤ c.sent) := by
  obtain ⟨n, hn, hQ⟩ := carries_backed.result h hr
  unfold ResultBacked at hQ
  refine ⟨n, hn, fun hm => ?_, fun hm => ?_⟩
  · rw [hm] at hQ
    exact hQ
  · rw [hm] at hQ
    obtain ⟨hbytes, c, hc, hle⟩ := hQ
    refine ⟨hbytes, c, hc, ?_⟩
    rw [hbytes]
    exact hle

/-- A file of three bytes. -/
def threeByteFile : Negotiate where
  mode := .file
  durationSecs := 10
  warmupSecs := 0
  parallel := 1
  bufferBytes := 65536
  bidir := false
  bitrateBps := none
  packetBytes := none
  fileLen := some 3
  nullSource := some false

/-- Its session, up to the Result. -/
theorem threeByteFile_reported :
    ∃ w r, SessionReachable w ∧ .result r ∈ w.ctrl.written ∧ w.Requested threeByteFile := by
  have hentered : SessionReachable (World.entered currentHello threeByteFile 5000) :=
    entered_reachable currentHello rfl threeByteFile 5000
  have h := hentered.peer (.connect rfl)
  have h := h.server (.data rfl (.file (.accept (by decide) (Nat.le_refl 0))))
  have h := h.peer (.sendData (i := 0) 3 rfl rfl)
  have h := h.server (.data rfl (.file (.read (n := 3) (by decide) rfl (by decide) (by decide))))
  have h := h.server (.data rfl (.file (.done (by decide) (Nat.le_refl 0))))
  -- the sampler is polled, ticks once and is joined
  have h := h.server (.data rfl (.file (.samplerJoining (.poll (Nat.le_refl 0)))))
  have h := h.server (.data rfl
    (.file (.samplerJoining (.tick (Nat.zero_le SECOND) (Nat.zero_add SECOND).le))))
  have h := h.server (.data rfl (.file (.join rfl)))
  have h := h.server (.finish rfl rfl)
  -- Stop is drained, and the Result written
  have h := h.peer (.send (.ok .stop) rfl)
  have h := h.server (.read rfl rfl)
  have h := h.server (.write rfl)
  exact ⟨_, _, h, List.mem_append_right _ List.mem_cons_self, rfl⟩

theorem result_backed_threeByteFile :
    ∃ (w : World) (r : TestResult), .result r ∈ w.ctrl.written ∧ r.bytes = 3 := by
  obtain ⟨w, r, hw, hr, hreq⟩ := threeByteFile_reported
  obtain ⟨n, hn, -, hfile⟩ := result_backed hw hr
  unfold World.Requested at hreq hn
  rw [hreq] at hn
  cases hn
  exact ⟨w, r, hr, (hfile rfl).1⟩

end Andri

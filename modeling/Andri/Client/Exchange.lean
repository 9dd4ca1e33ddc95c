/-
  Andri.Client.Exchange

  The exchange of a client and its session as bytes.  A codec that writes their
  messages as compact JSON, and reads them back, carries the exchange: each of
  them fits a frame, whatever the request.
-/
import Andri.Client.Contract
import Andri.Client.Wired
import Andri.Proto.Json
import Andri.Session.ResultSize

namespace Andri

open Lib Lib.StreamM

/-- A client and its session over bytes, cut into segments anywhere in either direction:
    they are a client and a session over messages, with exactly the messages
    written and not read in the pipes, unless `write_msg` has refused the session's
    Result, which fits no frame.  Neither end reads an error, a message the other
    did not write, or an early end of file.  No client fails but past such a
    refusal, and from every state the two can run to the end: the client done and
    the session over, or, past the refusal, the client failed at the end of file. -/
theorem wired_agree {serde : Serde} {su : Setup} (hserde : serde.Exchanges su.neg)
    (hcap : 0 < su.cap) {v : Wired} (h : WiredReachable serde su v) :
    ((∃ j, JointReachable su j ∧ Stands serde v j) ∨ Oversized serde su v) ∧
    (∀ x u p, v.up.take serde = some (x, u) → v.session.onRead x = some p →
      ∃ m ∈ script su.neg, x = .ok m) ∧
    (∀ x d, v.down.take serde = some (x, d) → ∃ m, x = .ok m) ∧
    (v.gone = true → v.session.phase = .closed) ∧
    (∀ e, v.client = .failed e → Oversized serde su v ∧ e = earlyEof) ∧
    CanReach (WiredStep serde su)
      (fun v => ((∃ r, v.client = .done r) ∧ v.session.phase = .closed) ∨
        (Oversized serde su v ∧ v.client = .failed earlyEof)) v := by
  have hback := hserde.readsBack
  obtain ⟨v₀, rfl, hrun⟩ := h
  have hinit : JointReachable su .init := Reachable.start rfl
  have hkept : ∀ j j', JointReachable su j → JointStep su j j' → JointReachable su j' :=
    fun j j' hj hstep => hj.next hstep
  have hstands := (wired_simulates hserde).run hkept hrun hinit (stands_init serde)
  rcases hstands with ⟨j, hjoint, hv⟩ | hover
  · have hreach : JointReachable su j := hinit.run hjoint
    obtain ⟨client, seen, ctrl, rfl, hclient, hgone, ⟨msgs, hinbox, hup⟩, hdown⟩ := id hv
    have hagree := hreach.agree
    refine ⟨.inl ⟨_, hreach, hv⟩, fun x u p htake _ => ?_, fun x d htake => ?_,
      fun hdropped => hagree.session.gone (hgone.trans hdropped), fun e he => ?_, ?_⟩
    · obtain ⟨m, m', rest, rfl, hread, rfl, -⟩ := hup.take hback htake
      have hm : m ∈ script su.neg := hagree.queued (by simp [hinbox])
      exact ⟨m', hback.eq_of_script hm hread ▸ hm, rfl⟩
    · obtain ⟨m, m', rest, -, -, hx, -⟩ := hdown.take hback htake
      exact ⟨m', hx⟩
    · obtain rfl : client = v.client := hclient.eq (by simp [he])
      exact absurd he (hagree.failed e)
    · have hfinal := (wired_realizes hserde).canReach hkept (hagree.canReach_final hcap)
        hreach hv
      refine hfinal.trans fun u _ hu => ?_
      rcases hu with ⟨j', ⟨client', seen', ctrl', rfl, hclient', -⟩, ⟨r, hr⟩, hclosed⟩ | hover
      · rw [show client' = .done r from hr] at hclient'
        obtain ⟨r', hr', -⟩ := hclient'.done_right
        exact .here (.inl ⟨⟨r', hr'⟩, hclosed⟩)
      · exact (hover.canFail hserde).mono fun _ hu => .inr hu
  · have hended := hover.ended
    refine ⟨.inr hover, fun x u p _ hp => absurd hended (Session.ne_closed_of_onRead hp),
      fun x d htake => ?_, fun _ => hended, fun e he => ⟨hover, ?_⟩,
      (hover.canFail hserde).mono fun _ hu => .inr hu⟩
    · obtain ⟨m, m', rest, hnil, -⟩ := hover.down.take hback htake
      cases hnil
    · rcases hover.client with hc | hc <;> rw [hc] at he <;> cases he
      rfl

/-! ## A codec for one exchange -/

/-- The compact spelling of the messages a client and its session exchange, for a Result
    of whole numbers. -/
def Msg.compact : Msg → List Byte
  | .hello h => h.json
  | .welcome w => w.json
  | .negotiate n => n.json
  | .start s => s.json
  | .run => tagOnly "Run"
  | .stop => tagOnly "Stop"
  | .result r => r.json wholeF64
  | .error _ => []

/-- Those messages. -/
def exchanged (neg : Negotiate) (r : TestResult) : List Msg :=
  .welcome (welcomeTo clientHello) :: .result r :: script neg ++
    (List.finRange (2 ^ 16)).map fun port => .start ⟨.ofFin port, SERVER_SEED⟩

theorem mem_exchanged {neg : Negotiate} {r : TestResult} {m : Msg} :
    m ∈ exchanged neg r ↔ m = .welcome (welcomeTo clientHello) ∨ m = .result r ∨
      m = .hello clientHello ∨ m = .negotiate neg ∨ m = .run ∨ m = .stop ∨
      ∃ port, m = .start ⟨port, SERVER_SEED⟩ := by
  have hports : (∃ a : Fin (2 ^ 16), Msg.start ⟨.ofFin a, SERVER_SEED⟩ = m) ↔
      ∃ port : U16, m = .start ⟨port, SERVER_SEED⟩ :=
    ⟨fun ⟨a, ha⟩ => ⟨.ofFin a, ha.symm⟩, fun ⟨port, hport⟩ => ⟨port.toFin, hport.symm⟩⟩
  simp [exchanged, script, hports]

/-- Two letters of a message's tag. -/
def tagLetters (payload : List Byte) : ℕ × ℕ :=
  ((payload[9]?.getD 0).toNat, (payload[11]?.getD 0).toNat)

theorem Start.json_injective {p q : U16} {seed : U64}
    (h : Start.json ⟨p, seed⟩ = Start.json ⟨q, seed⟩) : p = q := by
  simp only [Start.json, Json.object, Json.commaSep, Json.field, List.map_cons, List.map_nil,
    List.append_assoc, List.cons_append, List.cons.injEq, List.append_cancel_left_eq,
    List.append_cancel_right_eq, true_and] at h
  exact BitVec.eq_of_toNat_eq (Json.decimal_injective h)

/-- No two of the messages are spelled alike. -/
theorem compact_injOn {neg : Negotiate} {r : TestResult} {m m' : Msg}
    (hm : m ∈ exchanged neg r) (hm' : m' ∈ exchanged neg r) (h : m.compact = m'.compact) :
    m = m' := by
  have hwelcome : tagLetters (welcomeTo clientHello).json = (87, 108) := rfl
  have hresult : tagLetters (r.json wholeF64) = (82, 115) := rfl
  have hhello : tagLetters clientHello.json = (72, 108) := rfl
  have hrequest : tagLetters neg.json = (78, 103) := rfl
  have hstart : ∀ port, tagLetters (Start.json ⟨port, SERVER_SEED⟩) = (83, 97) := fun _ => rfl
  have hrun : tagLetters (tagOnly "Run") = (82, 110) := rfl
  have hstop : tagLetters (tagOnly "Stop") = (83, 111) := rfl
  have htags := congrArg tagLetters h
  rw [mem_exchanged] at hm hm'
  -- messages of different kinds have different tags
  rcases hm with rfl | rfl | rfl | rfl | rfl | rfl | ⟨p, rfl⟩ <;>
    rcases hm' with rfl | rfl | rfl | rfl | rfl | rfl | ⟨q, rfl⟩ <;>
    simp [Msg.compact, hwelcome, hresult, hhello, hrequest, hstart, hrun, hstop] at htags
  · rfl
  · rfl
  · rfl
  · rfl
  · rfl
  · rfl
  -- of one kind only Start varies, in the port
  · exact congrArg (fun port => Msg.start ⟨port, SERVER_SEED⟩) (Start.json_injective h)

/-- A codec that writes those messages so, and no others. -/
def exchangeSerde (neg : Negotiate) (r : TestResult) : Serde where
  toVec m := if m ∈ exchanged neg r then .ok m.compact else .error ⟨.other, "unsupported"⟩
  fromSlice payload :=
    match (exchanged neg r).find? fun m => m.compact = payload with
    | some m => .ok m
    | none => .error ⟨.invalidData, "unsupported"⟩

/-- It reads each of them as it is. -/
theorem exchangeSerde_reads {neg : Negotiate} {r : TestResult} {m : Msg} {payload : List Byte}
    (h : (exchangeSerde neg r).toVec m = .ok payload) :
    (exchangeSerde neg r).fromSlice payload = .ok m := by
  simp only [exchangeSerde] at h ⊢
  split at h
  · next hm =>
      cases h
      -- the message found is spelled as this one is
      cases hfind : (exchanged neg r).find? fun m' => m'.compact = m.compact with
      | none => exact absurd (List.find?_eq_none.mp hfind m hm) (by simp)
      | some m' =>
          have hsame : m'.compact = m.compact := by simpa using List.find?_some hfind
          rw [compact_injOn (List.mem_of_find?_eq_some hfind) hm hsame]
  · cases h

theorem exchangeSerde_readsBack (neg : Negotiate) (r : TestResult) :
    (exchangeSerde neg r).ReadsBack :=
  fun m _ h => ⟨m, exchangeSerde_reads h, .same m⟩

/-- Each of them fits a frame, the Result if it has few enough samples. -/
theorem writable_of_exchanged {neg : Negotiate} {r : TestResult} (hr : r.samples.length ≤ 366)
    {m : Msg} (hm : m ∈ exchanged neg r) : Writable (exchangeSerde neg r) m := by
  have hspell : (exchangeSerde neg r).toVec m = .ok m.compact := if_pos hm
  have hmax : MAX_FRAME_BYTES = 65536 := rfl
  have hfits : m.compact.length ≤ MAX_FRAME_BYTES := by
    rw [mem_exchanged] at hm
    rcases hm with rfl | rfl | rfl | rfl | rfl | rfl | ⟨p, rfl⟩
    · decide
    · have hle := TestResult.length_json_le wholeF64_spelled r
      show (r.json wholeF64).length ≤ _
      omega
    · decide
    · exact neg.length_json_le.trans (by decide)
    · decide
    · decide
    · exact (Start.length_json_le _).trans (by decide)
  rw [Writable, writeMsg_of_le hspell hfits]

theorem exchangeSerde_exchanges (neg : Negotiate) {r : TestResult}
    (hr : r.samples.length ≤ 366) : (exchangeSerde neg r).Exchanges neg where
  readsBack := exchangeSerde_readsBack neg r
  script m hm := writable_of_exchanged hr
    (List.mem_append_left _ (List.mem_cons_of_mem _ (List.mem_cons_of_mem _ hm)))
  welcome := writable_of_exchanged hr (mem_exchanged.mpr (.inl rfl))
  start port := writable_of_exchanged hr (mem_exchanged.mpr (by simp))

/-! ## Five bytes, from the greeting to the Result -/

/-- The Result of five bytes received in a second, with its one sample. -/
def fiveByteResult : TestResult :=
  File.result 5 (asSecsF64 SECOND)
    ((⟨SECOND + SECOND, 0, 0, []⟩ : SampleLoop).record 0 SECOND 5).samples

example : fiveByteResult =
    ⟨.receive, 5, 1, 40, 5, none, none, none, none, none, [⟨1, 5, 40, none, none⟩]⟩ := by
  decide +kernel

/-- A client of five bytes of memory and its session, over messages. -/
theorem fiveBytes_done {serde : Serde} (hfits : Writable serde (.result fiveByteResult)) :
    ∃ j, Reachable (· = Joint.init)
        (fun j j' => j.Fits serde ∧ JointStep ⟨fiveBytes, true, 8⟩ j j') j ∧
      j.client = .done fiveByteResult ∧ j.world.session.phase = .closed := by
  have h : Reachable (· = Joint.init)
      (fun j j' => j.Fits serde ∧ JointStep ⟨fiveBytes, true, 8⟩ j j') Joint.init := .start rfl
  -- the handshake
  have h := h.next ⟨fun r hr => (by cases hr), .client (.write rfl)⟩
  have h := h.next ⟨fun r hr => (by cases hr), .server (.read rfl rfl)⟩
  have h := h.next ⟨fun r hr => (by cases hr), .server (.write rfl)⟩
  have h := h.next ⟨fun r hr => (by cases hr), .client (.read rfl rfl)⟩
  have h := h.next ⟨fun r hr => (by cases hr), .client (.write rfl)⟩
  have h := h.next ⟨fun r hr => (by cases hr), .server (.read rfl rfl)⟩
  have h := h.next ⟨fun r hr => (by cases hr), .server (.bind rfl 5202)⟩
  have h := h.next ⟨fun r hr => (by cases hr), .server (.write rfl)⟩
  have h := h.next ⟨fun r hr => (by cases hr), .client (.read rfl rfl)⟩
  have h := h.next ⟨fun r hr => (by cases hr), .client (.write rfl)⟩
  have h := h.next ⟨fun r hr => (by cases hr), .server (.read rfl rfl)⟩
  -- the transfer
  have h := h.next ⟨fun r hr => (by cases hr), .client (.drive rfl (.file (.connect rfl)))⟩
  have h := h.next ⟨fun r hr => (by cases hr),
    .server (.data rfl (.file (.accept (by decide) (Nat.le_refl 0))))⟩
  have h := h.next ⟨fun r hr => (by cases hr),
    .server (.data rfl (.file (.samplerReceiving (.poll (Nat.le_refl 0)))))⟩
  have h := h.next ⟨fun r hr => (by cases hr),
    .client (.drive rfl (.file (.chunk (n := 5) (by decide) rfl)))⟩
  have h := h.next ⟨fun r hr => (by cases hr),
    .client (.drive rfl (.file (.write (n := 5) rfl rfl (by decide) (by decide) (by decide))))⟩
  have h := h.next ⟨fun r hr => (by cases hr),
    .server (.data rfl (.file (.read (n := 5) (by decide) rfl (by decide) (by decide))))⟩
  have h := h.next ⟨fun r hr => (by cases hr), .client (.drive rfl (.file .wrote))⟩
  have h := h.next ⟨fun r hr => (by cases hr),
    .client (.drive rfl (.file (.finish (by decide) rfl)))⟩
  have h := h.next ⟨fun r hr => (by cases hr), .client (.driven rfl trivial)⟩
  have h := h.next ⟨fun r hr => (by cases hr), .client (.write rfl)⟩
  -- a second has passed
  have h := h.next ⟨fun r hr => (by cases hr),
    .server (.data rfl (.file (.done (by decide) (Nat.zero_le SECOND))))⟩
  have h := h.next ⟨fun r hr => (by cases hr),
    .server (.data rfl (.file (.samplerJoining (.tick (Nat.le_refl SECOND)
      (Nat.zero_add SECOND).le))))⟩
  have h := h.next ⟨fun r hr => (by cases hr), .server (.data rfl (.file (.join rfl)))⟩
  have h := h.next ⟨fun r hr => (by cases hr), .server (.finish rfl rfl)⟩
  have h := h.next ⟨fun r hr => (by cases hr), .server (.read rfl rfl)⟩
  -- the Result is the one that fits
  have h := h.next ⟨fun r hr => (by cases hr; exact hfits), .server (.write rfl)⟩
  have h := h.next ⟨fun r hr => (by cases hr), .client (.read rfl rfl)⟩
  exact ⟨_, h, rfl, rfl⟩

/-- The same over bytes. -/
theorem fiveBytes_wired :
    ∃ v, WiredReachable (exchangeSerde fiveBytes fiveByteResult) ⟨fiveBytes, true, 8⟩ v ∧
      v.client = .done fiveByteResult ∧ v.session.phase = .closed := by
  have hserde := exchangeSerde_exchanges fiveBytes (r := fiveByteResult) (by decide)
  have hfits : Writable (exchangeSerde fiveBytes fiveByteResult) (.result fiveByteResult) :=
    writable_of_exchanged (by decide) (mem_exchanged.mpr (.inr (.inl rfl)))
  obtain ⟨j, hj, hdone, hclosed⟩ := fiveBytes_done hfits
  obtain ⟨hreach, v, hv, hstands⟩ := hj.invariant (I := fun j =>
      JointReachable ⟨fiveBytes, true, 8⟩ j ∧ ∃ v,
        WiredReachable (exchangeSerde fiveBytes fiveByteResult) ⟨fiveBytes, true, 8⟩ v ∧
        Stands (exchangeSerde fiveBytes fiveByteResult) v j)
    (fun j hj => hj ▸ ⟨Reachable.start rfl, .init, Reachable.start rfl, stands_init _⟩)
    (fun j j' ⟨hreach, v, hv, hstands⟩ ⟨hfits, hstep⟩ => by
      obtain ⟨v', hrun, hstands'⟩ := hstands.follow hserde hreach hfits hstep
      exact ⟨hreach.next hstep, v', hv.run hrun, hstands'⟩)
  obtain ⟨client, seen, ctrl, rfl, hclient, -⟩ := hstands
  rw [show client = _ from hdone] at hclient
  obtain ⟨r, hr, payload, hvec, hslice⟩ := hclient.done_right
  -- the codec reads the Result as it is
  rw [exchangeSerde_reads hvec] at hslice
  cases hslice
  exact ⟨v, hv, hr, hclosed⟩

/-- They are a client and its session that have exchanged the Result. -/
theorem wired_agree_fiveBytes :
    ∃ v j, WiredReachable (exchangeSerde fiveBytes fiveByteResult) ⟨fiveBytes, true, 8⟩ v ∧
      v.client = .done fiveByteResult ∧ v.session.phase = .closed ∧
      JointReachable ⟨fiveBytes, true, 8⟩ j ∧
      Stands (exchangeSerde fiveBytes fiveByteResult) v j := by
  obtain ⟨v, hv, hdone, hclosed⟩ := fiveBytes_wired
  have hserde := exchangeSerde_exchanges fiveBytes (r := fiveByteResult) (by decide)
  obtain ⟨⟨j, hj, hstands⟩ | hover, -⟩ := wired_agree hserde (by decide) hv
  · exact ⟨v, j, hv, hdone, hclosed, hj, hstands⟩
  · rcases hover.client with hc | hc <;> rw [hdone] at hc <;> cases hc

end Andri

/-
  Andri.Proto.Json

  The payload of a Result: the fields of `TestResult` and `Sample` in the order
  `src/proto.rs` declares them, behind the `type` tag, as compact JSON.  How an
  `f64` is spelled is serde_json's and a parameter; a spelling takes at least one
  and at most 24 bytes.
-/
import Andri.Lib.Json
import Andri.Proto.Frame
import Mathlib.Algebra.Group.Action.Defs
import Mathlib.Algebra.Order.BigOperators.Group.List

namespace Andri

open Lib Lib.Json

/-- A `u64`. -/
def jsonU64 (n : U64) : List Byte := decimal n.toNat

def RoleDir.json : RoleDir → List Byte
  | .send => quoted "send"
  | .receive => quoted "receive"

variable (f64 : ℚ → List Byte)

/-- One entry of `samples`. -/
def Sample.json (s : Sample) : List Byte :=
  object [
    ("t_secs", f64 s.tSecs),
    ("bytes", jsonU64 s.bytes),
    ("bits_per_sec", f64 s.bitsPerSec),
    ("packets_lost", Json.optional jsonU64 s.packetsLost),
    ("jitter_ms", Json.optional f64 s.jitterMs)]

/-- `Msg::Result`. -/
def TestResult.json (r : TestResult) : List Byte :=
  object [
    ("type", quoted "Result"),
    ("role", r.role.json),
    ("bytes", jsonU64 r.bytes),
    ("duration_secs", f64 r.durationSecs),
    ("bits_per_sec", f64 r.bitsPerSec),
    ("bytes_per_sec", f64 r.bytesPerSec),
    ("packets_expected", Json.optional jsonU64 r.packetsExpected),
    ("packets_received", Json.optional jsonU64 r.packetsReceived),
    ("packets_lost", Json.optional jsonU64 r.packetsLost),
    ("loss_ratio", Json.optional f64 r.lossRatio),
    ("jitter_ms", Json.optional f64 r.jitterMs),
    ("samples", array (r.samples.map (Sample.json f64)))]

/-- The lengths of serde_json's spellings of an `f64`. -/
def Spelled : Prop := ∀ x, 1 ≤ (f64 x).length ∧ (f64 x).length ≤ 24

/-- A codec that writes Results so. -/
def Serde.WritesResults (serde : Serde) : Prop :=
  ∀ r, serde.toVec (.result r) = .ok (r.json f64)

/-! ## How long a sample is -/

section Lengths

variable {f64}

theorem length_jsonU64_pos (n : U64) : 1 ≤ (jsonU64 n).length :=
  length_decimal_pos _

theorem length_jsonU64_le (n : U64) : (jsonU64 n).length ≤ 20 :=
  length_decimal_le (by decide) (n.isLt.trans (by decide))

theorem length_optional_u64 (o : Option U64) :
    1 ≤ (Json.optional jsonU64 o).length ∧ (Json.optional jsonU64 o).length ≤ 20 := by
  have hnull : "null".length = 4 := rfl
  cases o with
  | none =>
      simp only [Json.optional, length_ascii]
      omega
  | some n => exact ⟨length_jsonU64_pos n, length_jsonU64_le n⟩

theorem length_optional_f64 (hf : Spelled f64) (o : Option ℚ) :
    1 ≤ (Json.optional f64 o).length ∧ (Json.optional f64 o).length ≤ 24 := by
  have hnull : "null".length = 4 := rfl
  cases o with
  | none =>
      simp only [Json.optional, length_ascii]
      omega
  | some x => exact hf x

/-- A sample: 65 bytes of names and punctuation, and its values. -/
theorem Sample.length_json (s : Sample) :
    (s.json f64).length = 65 + (f64 s.tSecs).length + (jsonU64 s.bytes).length +
      (f64 s.bitsPerSec).length + (Json.optional jsonU64 s.packetsLost).length +
      (Json.optional f64 s.jitterMs).length := by
  have hnames : "t_secs".length + "bytes".length + "bits_per_sec".length +
      "packets_lost".length + "jitter_ms".length = 44 := rfl
  rw [Sample.json, length_object]
  simp only [List.map_cons, List.map_nil, List.sum_cons, List.sum_nil, List.length_cons,
    List.length_nil]
  omega

/-- A Result: 180 bytes of names and punctuation, its values and its samples. -/
theorem TestResult.length_json (r : TestResult) :
    (r.json f64).length = 180 + r.role.json.length + (jsonU64 r.bytes).length +
      (f64 r.durationSecs).length + (f64 r.bitsPerSec).length + (f64 r.bytesPerSec).length +
      (Json.optional jsonU64 r.packetsExpected).length +
      (Json.optional jsonU64 r.packetsReceived).length +
      (Json.optional jsonU64 r.packetsLost).length + (Json.optional f64 r.lossRatio).length +
      (Json.optional f64 r.jitterMs).length + (r.samples.map fun s => (s.json f64).length).sum +
      (r.samples.length - 1) := by
  -- as numerals, so that the sum below is over the values only
  have hnames : "type".length = 4 ∧ "role".length = 4 ∧ "bytes".length = 5 ∧
      "duration_secs".length = 13 ∧ "bits_per_sec".length = 12 ∧ "bytes_per_sec".length = 13 ∧
      "packets_expected".length = 16 ∧ "packets_received".length = 16 ∧
      "packets_lost".length = 12 ∧ "loss_ratio".length = 10 ∧ "jitter_ms".length = 9 ∧
      "samples".length = 7 ∧ "Result".length = 6 := by
    decide
  rw [TestResult.json, length_object]
  simp only [List.map_cons, List.map_nil, List.sum_cons, List.sum_nil, List.length_cons,
    List.length_nil, length_array, length_quoted, List.map_map, List.length_map,
    Function.comp_def, hnames]
  omega

/-! ## What fits a frame -/

/-- A sample without the UDP fields. -/
def Sample.Plain (s : Sample) : Prop := s.packetsLost = none ∧ s.jitterMs = none

/-- A Result without the UDP fields, its samples included. -/
structure TestResult.Plain (r : TestResult) : Prop where
  packetsExpected : r.packetsExpected = none
  packetsReceived : r.packetsReceived = none
  packetsLost : r.packetsLost = none
  lossRatio : r.lossRatio = none
  jitterMs : r.jitterMs = none
  samples : ∀ s ∈ r.samples, s.Plain

theorem Sample.length_json_bounds (hf : Spelled f64) (s : Sample) :
    70 ≤ (s.json f64).length ∧ (s.json f64).length ≤ 177 := by
  have ht := hf s.tSecs
  have hbits := hf s.bitsPerSec
  have hpos := length_jsonU64_pos s.bytes
  have hbytes := length_jsonU64_le s.bytes
  have hlost := length_optional_u64 s.packetsLost
  have hjitter := length_optional_f64 hf s.jitterMs
  rw [length_json]
  omega

theorem Sample.Plain.length_json_le (hf : Spelled f64) {s : Sample} (hs : s.Plain) :
    (s.json f64).length ≤ 141 := by
  have ht := hf s.tSecs
  have hbits := hf s.bitsPerSec
  have hbytes := length_jsonU64_le s.bytes
  have hnull : "null".length = 4 := rfl
  rw [length_json, hs.1, hs.2]
  simp only [Json.optional, length_ascii]
  omega

theorem RoleDir.length_json (role : RoleDir) :
    6 ≤ role.json.length ∧ role.json.length ≤ 9 := by
  cases role <;> exact ⟨Nat.le_of_ble_eq_true rfl, Nat.le_of_ble_eq_true rfl⟩

/-- What a Result takes beside its samples. -/
theorem TestResult.exists_head (hf : Spelled f64) (r : TestResult) :
    ∃ head, 195 ≤ head ∧ head ≤ 389 ∧ (r.Plain → head ≤ 301) ∧
      (r.json f64).length =
        head + (r.samples.map fun s => (s.json f64).length).sum + (r.samples.length - 1) := by
  have hrole := r.role.length_json
  have hpos := length_jsonU64_pos r.bytes
  have hbytes := length_jsonU64_le r.bytes
  have hsecs := hf r.durationSecs
  have hbits := hf r.bitsPerSec
  have hrate := hf r.bytesPerSec
  have hexpected := length_optional_u64 r.packetsExpected
  have hreceived := length_optional_u64 r.packetsReceived
  have hlost := length_optional_u64 r.packetsLost
  have hratio := length_optional_f64 hf r.lossRatio
  have hjitter := length_optional_f64 hf r.jitterMs
  refine ⟨_, ?_, ?_, fun hr => ?_, length_json r⟩
  · omega
  · omega
  · have hnull : "null".length = 4 := rfl
    rw [hr.packetsExpected, hr.packetsReceived, hr.packetsLost, hr.lossRatio, hr.jitterMs]
    simp only [Json.optional, length_ascii]
    omega

theorem TestResult.length_json_le (hf : Spelled f64) (r : TestResult) :
    (r.json f64).length ≤ 389 + 177 * r.samples.length + (r.samples.length - 1) := by
  obtain ⟨head, -, hhead, -, hlen⟩ := r.exists_head hf
  have hsum := List.sum_le_card_nsmul (r.samples.map fun s => (s.json f64).length) 177
    (by simpa using fun s _ => (Sample.length_json_bounds hf s).2)
  rw [List.length_map, smul_eq_mul] at hsum
  omega

theorem TestResult.Plain.length_json_le (hf : Spelled f64) {r : TestResult} (hr : r.Plain) :
    (r.json f64).length ≤ 301 + 141 * r.samples.length + (r.samples.length - 1) := by
  obtain ⟨head, -, -, hhead, hlen⟩ := r.exists_head hf
  have hhead := hhead hr
  have hsum := List.sum_le_card_nsmul (r.samples.map fun s => (s.json f64).length) 141
    (by simpa using fun s hs => (hr.samples s hs).length_json_le hf)
  rw [List.length_map, smul_eq_mul] at hsum
  omega

theorem TestResult.le_length_json (hf : Spelled f64) (r : TestResult) :
    194 + 71 * r.samples.length ≤ (r.json f64).length := by
  obtain ⟨head, hhead, -, -, hlen⟩ := r.exists_head hf
  have hsum := List.card_nsmul_le_sum (r.samples.map fun s => (s.json f64).length) 70
    (by simpa using fun s _ => (Sample.length_json_bounds hf s).1)
  rw [List.length_map, smul_eq_mul] at hsum
  omega

/-! ## What `write_msg` makes of it -/

theorem writable_result_iff {serde : Serde} (hw : serde.WritesResults f64) (r : TestResult) :
    Writable serde (.result r) ↔ (r.json f64).length ≤ MAX_FRAME_BYTES := by
  constructor
  · intro h
    obtain ⟨payload, hvec, hle, -⟩ := writable_payload h
    rw [hw r] at hvec
    cases hvec
    exact hle
  · intro hle
    rw [Writable, writeMsg_of_le (hw r) hle]

/-- At most 366 samples fit, whatever their values. -/
theorem writable_of_length_le {serde : Serde} (hf : Spelled f64) (hw : serde.WritesResults f64)
    {r : TestResult} (hr : r.samples.length ≤ 366) : Writable serde (.result r) := by
  have hle := TestResult.length_json_le hf r
  have hmax : MAX_FRAME_BYTES = 65536 := rfl
  rw [writable_result_iff hw]
  omega

/-- Without the UDP fields 459 do. -/
theorem TestResult.Plain.writable_of_length_le {serde : Serde} (hf : Spelled f64)
    (hw : serde.WritesResults f64) {r : TestResult} (hr : r.Plain)
    (hlen : r.samples.length ≤ 459) : Writable serde (.result r) := by
  have hle := hr.length_json_le hf
  have hmax : MAX_FRAME_BYTES = 65536 := rfl
  rw [writable_result_iff hw]
  omega

/-- From 921 samples on no Result fits. -/
theorem not_writable_of_le_length {serde : Serde} (hf : Spelled f64)
    (hw : serde.WritesResults f64) {r : TestResult} (hr : 921 ≤ r.samples.length) :
    ¬ Writable serde (.result r) := by
  have hle := TestResult.le_length_json hf r
  have hmax : MAX_FRAME_BYTES = 65536 := rfl
  rw [writable_result_iff hw]
  omega

end Lengths

/-! ## The messages of the exchange -/

def jsonBool (b : Bool) : List Byte := ascii (if b then "true" else "false")

def Mode.json : Mode → List Byte
  | .tcp => quoted "tcp"
  | .udp => quoted "udp"
  | .file => quoted "file"

/-- `Msg::Hello`, of a version without characters to escape. -/
def Hello.json (h : Hello) : List Byte :=
  object [
    ("type", quoted "Hello"),
    ("protocol_version", decimal h.protocolVersion.toNat),
    ("client_version", quoted h.clientVersion),
    ("nonce", jsonU64 h.nonce)]

/-- `Msg::Welcome`, of a version without characters to escape. -/
def Welcome.json (w : Welcome) : List Byte :=
  object [
    ("type", quoted "Welcome"),
    ("protocol_version", decimal w.protocolVersion.toNat),
    ("server_version", quoted w.serverVersion),
    ("nonce", jsonU64 w.nonce),
    ("accepted", jsonBool w.accepted)]

/-- `Msg::Negotiate`. -/
def Negotiate.json (n : Negotiate) : List Byte :=
  object [
    ("type", quoted "Negotiate"),
    ("mode", n.mode.json),
    ("duration_secs", jsonU64 n.durationSecs),
    ("warmup_secs", jsonU64 n.warmupSecs),
    ("parallel", decimal n.parallel.toNat),
    ("buffer_bytes", jsonU64 n.bufferBytes),
    ("bidir", jsonBool n.bidir),
    ("bitrate_bps", Json.optional jsonU64 n.bitrateBps),
    ("packet_bytes", Json.optional jsonU64 n.packetBytes),
    ("file_len", Json.optional jsonU64 n.fileLen),
    ("null_source", Json.optional jsonBool n.nullSource)]

/-- `Msg::Start`. -/
def Start.json (s : Start) : List Byte :=
  object [
    ("type", quoted "Start"),
    ("data_port", decimal s.dataPort.toNat),
    ("server_seed", jsonU64 s.serverSeed)]

/-- `Msg::Run` and `Msg::Stop`, which are nothing but their tag. -/
def tagOnly (tag : String) : List Byte := object [("type", quoted tag)]

theorem length_jsonBool (b : Bool) : (jsonBool b).length ≤ 5 := by
  cases b <;> exact Nat.le_of_ble_eq_true rfl

theorem Mode.length_json (m : Mode) : m.json.length ≤ 6 := by
  cases m <;> exact Nat.le_of_ble_eq_true rfl

theorem length_optional_bool (o : Option Bool) : (Json.optional jsonBool o).length ≤ 5 := by
  cases o with
  | none => exact Nat.le_of_ble_eq_true rfl
  | some b => exact length_jsonBool b

/-- Whatever is asked for, a request fits a frame. -/
theorem Negotiate.length_json_le (n : Negotiate) : n.json.length ≤ 320 := by
  have hnames : "type".length = 4 ∧ "mode".length = 4 ∧ "duration_secs".length = 13 ∧
      "warmup_secs".length = 11 ∧ "parallel".length = 8 ∧ "buffer_bytes".length = 12 ∧
      "bidir".length = 5 ∧ "bitrate_bps".length = 11 ∧ "packet_bytes".length = 12 ∧
      "file_len".length = 8 ∧ "null_source".length = 11 ∧ "Negotiate".length = 9 := by
    decide
  have hmode := n.mode.length_json
  have hduration := length_jsonU64_le n.durationSecs
  have hwarmup := length_jsonU64_le n.warmupSecs
  have hparallel : (decimal n.parallel.toNat).length ≤ 10 :=
    length_decimal_le (by decide) (n.parallel.isLt.trans (by decide))
  have hbuffer := length_jsonU64_le n.bufferBytes
  have hbidir := length_jsonBool n.bidir
  have hbitrate := (length_optional_u64 n.bitrateBps).2
  have hpacket := (length_optional_u64 n.packetBytes).2
  have hfile := (length_optional_u64 n.fileLen).2
  have hsource := length_optional_bool n.nullSource
  rw [Negotiate.json, length_object]
  simp only [List.map_cons, List.map_nil, List.sum_cons, List.sum_nil, List.length_cons,
    List.length_nil, length_quoted, hnames]
  omega

theorem Start.length_json_le (s : Start) : s.json.length ≤ 80 := by
  have hnames : "type".length = 4 ∧ "data_port".length = 9 ∧ "server_seed".length = 11 ∧
      "Start".length = 5 := by
    decide
  have hport : (decimal s.dataPort.toNat).length ≤ 5 :=
    length_decimal_le (by decide) (s.dataPort.isLt.trans (by decide))
  have hseed := length_jsonU64_le s.serverSeed
  rw [Start.json, length_object]
  simp only [List.map_cons, List.map_nil, List.sum_cons, List.sum_nil, List.length_cons,
    List.length_nil, length_quoted, hnames]
  omega

end Andri

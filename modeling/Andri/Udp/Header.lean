/-
  Andri.Udp.Header

  The 16-byte datagram header of `src/modes/udp.rs`: sequence number and send
  timestamp, both little-endian.  Stamping and reading are inverse on every
  buffer long enough for the header, and leave the padding behind it alone.
-/
import Andri.Lib.Endian
import Andri.Udp.Params

namespace Andri.Udp

open Lib

/-- `stamp`: write the header over the first 16 bytes of the buffer. -/
def stamp (buf : List Byte) (seq sendNs : U64) : List Byte :=
  leBytes 8 seq.toNat ++ leBytes 8 sendNs.toNat ++ buf.drop HEADER_LEN.toNat

/-- `unstamp`: read the header, if the datagram is long enough. -/
def unstamp (buf : List Byte) : Option (U64 × U64) :=
  if buf.length < HEADER_LEN.toNat then none
  else some (BitVec.ofNat 64 (leValue (buf.take 8)),
    BitVec.ofNat 64 (leValue ((buf.drop 8).take 8)))

variable {buf : List Byte} {seq sendNs : U64}

/-- Too short a datagram is the only one without a header. -/
theorem unstamp_eq_none_iff : unstamp buf = none ↔ buf.length < 16 := by
  unfold unstamp
  split
  · next hshort => exact ⟨fun _ => hshort, fun _ => rfl⟩
  · next hlong => exact ⟨fun h => absurd h (Option.some_ne_none _), fun h => absurd h hlong⟩

/-- What was stamped is read back. -/
theorem unstamp_stamp : unstamp (stamp buf seq sendNs) = some (seq, sendNs) := by
  have hlen : ¬ (stamp buf seq sendNs).length < HEADER_LEN.toNat := by
    have hheader : HEADER_LEN.toNat = 16 := rfl
    simp only [stamp, List.length_append, leBytes_length, List.length_drop, hheader]
    omega
  -- the two fields stand at offsets 0 and 8
  have hseq : (stamp buf seq sendNs).take 8 = leBytes 8 seq.toNat := by
    rw [stamp, List.append_assoc]
    exact List.take_left' (leBytes_length 8 _)
  have hsend : ((stamp buf seq sendNs).drop 8).take 8 = leBytes 8 sendNs.toNat := by
    rw [stamp, List.append_assoc, List.drop_left' (leBytes_length 8 _)]
    exact List.take_left' (leBytes_length 8 _)
  rw [unstamp, if_neg hlen, hseq, hsend, ofNat_leValue_leBytes, ofNat_leValue_leBytes]

/-- The padding is not touched. -/
theorem drop_stamp : (stamp buf seq sendNs).drop 16 = buf.drop 16 := by
  have hheader : (leBytes 8 seq.toNat ++ leBytes 8 sendNs.toNat).length = 16 := by simp
  exact List.drop_left' hheader

theorem length_stamp (h : 16 ≤ buf.length) : (stamp buf seq sendNs).length = buf.length := by
  have hheader : HEADER_LEN.toNat = 16 := rfl
  simp only [stamp, List.length_append, leBytes_length, List.length_drop, hheader]
  omega

/-- Stamping what was read changes nothing. -/
theorem stamp_unstamp (h : unstamp buf = some (seq, sendNs)) : stamp buf seq sendNs = buf := by
  have hlong : ¬ buf.length < HEADER_LEN.toNat := by
    intro hshort
    rw [unstamp, if_pos hshort] at h
    cases h
  have hlen : 16 ≤ buf.length := not_lt.mp hlong
  rw [unstamp, if_neg hlong] at h
  cases h
  have hseq : (buf.take 8).length = 8 := by
    rw [List.length_take]
    omega
  have hsend : ((buf.drop 8).take 8).length = 8 := by
    rw [List.length_take, List.length_drop]
    omega
  rw [stamp, leBytes_ofNat_leValue hseq, leBytes_ofNat_leValue hsend, List.append_assoc]
  -- the three pieces are the buffer cut at 8 and at 16
  calc buf.take 8 ++ ((buf.drop 8).take 8 ++ buf.drop 16)
      = buf.take 8 ++ ((buf.drop 8).take 8 ++ (buf.drop 8).drop 8) := by rw [List.drop_drop]
    _ = buf := by rw [List.take_append_drop, List.take_append_drop]

/-- The header codec: what is stamped on a buffer of 16 bytes or more is read back and
    leaves the rest of the buffer as it was; stamping what is read leaves all of
    it; and only a shorter buffer has nothing to read. -/
theorem header_codec :
    (∀ (buf : List Byte) (seq sendNs : U64), 16 ≤ buf.length →
      unstamp (stamp buf seq sendNs) = some (seq, sendNs) ∧
      (stamp buf seq sendNs).length = buf.length ∧
      (stamp buf seq sendNs).drop 16 = buf.drop 16) ∧
    (∀ (buf : List Byte) (seq sendNs : U64), unstamp buf = some (seq, sendNs) →
      stamp buf seq sendNs = buf) ∧
    ∀ buf : List Byte, unstamp buf = none ↔ buf.length < 16 :=
  ⟨fun _ _ _ h => ⟨unstamp_stamp, length_stamp h, drop_stamp⟩, fun _ _ _ => stamp_unstamp,
    fun _ => unstamp_eq_none_iff⟩

/-- A header over 32 zero bytes. -/
theorem header_codec_zeros :
    unstamp (stamp (List.replicate 32 0) 12345 678900000) = some (12345, 678900000) :=
  (header_codec.1 _ _ _ (by simp)).1

end Andri.Udp

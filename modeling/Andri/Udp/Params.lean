/-
  Andri.Udp.Params

  What `udp::serve` and `udp::drive` of `src/modes/udp.rs` derive from a
  `Negotiate`, in the machine arithmetic the code uses.  Each side applies its
  own defaults to the optional fields.
-/
import Andri.Proto.Msg

namespace Andri.Udp

open Lib

/-- Fixed datagram header: seq and send_ns. -/
def HEADER_LEN : Usize := 16

/-- Pacing tick rate. -/
def TICKS_PER_SEC : U64 := 1000

/-- The datagram size, defaulted and padded to the header by both sides. -/
def packetBytes (neg : Negotiate) : Usize := umax (neg.packetBytes.getD 1472) HEADER_LEN

/-! ## Server -/

/-- `(packet_bytes as u64) * 8`. -/
def bitsPerPacket (neg : Negotiate) : U64 := packetBytes neg * 8

/-- `neg.bitrate_bps.unwrap_or(0) / bits_per_packet.max(1)`. -/
def pps (neg : Negotiate) : U64 := neg.bitrateBps.getD 0 / umax (bitsPerPacket neg) 1

/-- The sequence number at which the server starts measuring. -/
def warmupPackets (neg : Negotiate) : U64 := pps neg * neg.warmupSecs

/-- The size of the receive buffer, `packet_bytes.max(65_535)`. -/
def recvBufLen (neg : Negotiate) : Usize := umax (packetBytes neg) 65535

/-! ## Client -/

/-- The offered load `drive` paces at. -/
def driveBitrate (neg : Negotiate) : U64 := neg.bitrateBps.getD 1000000000

/-- `packets_per_tick`, fractional. -/
def packetsPerTick (bitrate : U64) (packetBytes : Usize) (ticksPerSec : U64) : ℚ :=
  let bitsPerPacket : ℚ := packetBytes.toNat * 8
  bitrate.toNat / bitsPerPacket / ticksPerSec.toNat

/-! ## Bounds -/

theorem packetBytes_ge (neg : Negotiate) : 16 ≤ (packetBytes neg).toNat := by
  rw [packetBytes, toNat_umax]
  exact le_max_right _ _

theorem toNat_bitsPerPacket_eq_iff (neg : Negotiate) :
    (bitsPerPacket neg).toNat = (packetBytes neg).toNat * 8 ↔
      (packetBytes neg).toNat * 8 < 2 ^ 64 :=
  toNat_mul_eq_iff (packetBytes neg) 8

/-- With an exact packet size in bits, `pps` is the exact quotient. -/
theorem toNat_pps {neg : Negotiate} (h : (packetBytes neg).toNat * 8 < 2 ^ 64) :
    (pps neg).toNat = (neg.bitrateBps.getD 0).toNat / ((packetBytes neg).toNat * 8) := by
  have hp := packetBytes_ge neg
  have hone : (1 : U64).toNat = 1 := rfl
  rw [pps, BitVec.toNat_udiv, toNat_umax, (toNat_bitsPerPacket_eq_iff neg).mpr h, hone,
    Nat.max_eq_left (by omega)]

theorem toNat_warmupPackets_eq_iff (neg : Negotiate) :
    (warmupPackets neg).toNat = (pps neg).toNat * neg.warmupSecs.toNat ↔
      (pps neg).toNat * neg.warmupSecs.toNat < 2 ^ 64 :=
  toNat_mul_eq_iff (pps neg) neg.warmupSecs

end Andri.Udp

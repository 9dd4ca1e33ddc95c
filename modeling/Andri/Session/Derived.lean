/-
  Andri.Session.Derived

  The parameters of a session come off the wire unvalidated.  `DerivedExact`
  collects what the server computes from a request in each mode and says that
  every value is the mathematical one and the UDP receive buffer within
  `isize::MAX`; the theorem gives the exact region of requests for which that is
  so.
-/
import Andri.Tcp.Params
import Andri.Udp.Params

namespace Andri

open Lib

/-- `isize::MAX`, the largest size an allocation may ask for. -/
def ISIZE_MAX : Nat := 2 ^ 63 - 1

/-- Nothing the server derives from the request overflows or over-allocates. -/
def DerivedExact (neg : Negotiate) : Prop :=
  match neg.mode with
  | .tcp => (Tcp.windowSecs neg).toNat = neg.durationSecs.toNat + neg.warmupSecs.toNat
  | .udp =>
      (Udp.bitsPerPacket neg).toNat = (Udp.packetBytes neg).toNat * 8 ∧
      (Udp.warmupPackets neg).toNat =
        (neg.bitrateBps.getD 0).toNat / max ((Udp.packetBytes neg).toNat * 8) 1 *
          neg.warmupSecs.toNat ∧
      (Udp.recvBufLen neg).toNat = max (Udp.packetBytes neg).toNat 65535 ∧
      (Udp.recvBufLen neg).toNat ≤ ISIZE_MAX
  | .file => True

/-- A UDP request is safe exactly when the packet size in bits fits a word and
    so does the warm-up threshold; the buffer then fits as well. -/
theorem udp_derivedExact_iff (neg : Negotiate) (hmode : neg.mode = .udp) :
    DerivedExact neg ↔
      (Udp.packetBytes neg).toNat < 2 ^ 61 ∧
      (neg.bitrateBps.getD 0).toNat / ((Udp.packetBytes neg).toNat * 8) * neg.warmupSecs.toNat
        < 2 ^ 64 := by
  have hp := Udp.packetBytes_ge neg
  have hmax : max ((Udp.packetBytes neg).toNat * 8) 1 = (Udp.packetBytes neg).toNat * 8 := by
    omega
  have hbuf : (Udp.recvBufLen neg).toNat = max (Udp.packetBytes neg).toNat 65535 :=
    toNat_umax _ _
  simp only [DerivedExact, hmode, hmax]
  constructor
  · rintro ⟨hbits, hwarm, -, -⟩
    have hlt := (Udp.toNat_bitsPerPacket_eq_iff neg).mp hbits
    refine ⟨by omega, ?_⟩
    rw [← hwarm]
    exact (Udp.warmupPackets neg).isLt
  · rintro ⟨hsmall, hwarm⟩
    -- with the packet size in bits exact, so is the quotient
    have hlt : (Udp.packetBytes neg).toNat * 8 < 2 ^ 64 := by omega
    rw [← Udp.toNat_pps hlt] at hwarm ⊢
    refine ⟨(Udp.toNat_bitsPerPacket_eq_iff neg).mpr hlt,
      (Udp.toNat_warmupPackets_eq_iff neg).mpr hwarm, hbuf, ?_⟩
    rw [hbuf, ISIZE_MAX]
    omega

/-- The requests the server handles without overflow or over-allocation: in
    TCP mode the window in seconds fits a word, in UDP mode the packet size is
    below `2 ^ 61` bytes and the warm-up packet count fits a word, in file
    mode all of them. -/
theorem derivedExact_iff (neg : Negotiate) :
    DerivedExact neg ↔
      match neg.mode with
      | .tcp => neg.durationSecs.toNat + neg.warmupSecs.toNat < 2 ^ 64
      | .udp =>
          (Udp.packetBytes neg).toNat < 2 ^ 61 ∧
          (neg.bitrateBps.getD 0).toNat / ((Udp.packetBytes neg).toNat * 8) *
            neg.warmupSecs.toNat < 2 ^ 64
      | .file => True := by
  cases hmode : neg.mode with
  | tcp => simpa only [DerivedExact, hmode] using Tcp.toNat_windowSecs_eq_iff neg
  | udp => exact udp_derivedExact_iff neg hmode
  | file => simp only [DerivedExact, hmode]

/-- A UDP request for packets of `2 ^ 63` bytes. -/
def hugePacketRequest : Negotiate where
  mode := .udp
  durationSecs := 10
  warmupSecs := 1
  parallel := 1
  bufferBytes := 65536
  bidir := false
  bitrateBps := some 1000000
  packetBytes := some (BitVec.ofNat 64 (2 ^ 63))
  fileLen := none
  nullSource := none

/-- The bits per packet wrap to zero and the receive buffer is beyond what can
    be allocated. -/
theorem hugePacketRequest_unsafe :
    Udp.bitsPerPacket hugePacketRequest = 0 ∧
    ISIZE_MAX < (Udp.recvBufLen hugePacketRequest).toNat ∧
    ¬ ∀ neg : Negotiate, DerivedExact neg := by
  have hbits : Udp.bitsPerPacket hugePacketRequest = 0 := by decide
  refine ⟨hbits, by decide, fun hall => ?_⟩
  have h := (hall hugePacketRequest).1
  rw [hbits] at h
  revert h
  decide

end Andri

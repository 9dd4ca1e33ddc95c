/-
  Andri.Tcp.Params

  What `tcp::serve` and `tcp::drive` of `src/modes/tcp.rs` derive from a
  `Negotiate`.
-/
import Andri.Proto.Msg

namespace Andri.Tcp

open Lib

/-- Read buffer of the receive loop. -/
def READ_BUF : Nat := 256 * 1024

/-- `neg.duration_secs + neg.warmup_secs`, the whole sending window. -/
def windowSecs (neg : Negotiate) : U64 := neg.durationSecs + neg.warmupSecs

theorem toNat_windowSecs_eq_iff (neg : Negotiate) :
    (windowSecs neg).toNat = neg.durationSecs.toNat + neg.warmupSecs.toNat ↔
      neg.durationSecs.toNat + neg.warmupSecs.toNat < 2 ^ 64 :=
  toNat_add_eq_iff neg.durationSecs neg.warmupSecs

end Andri.Tcp

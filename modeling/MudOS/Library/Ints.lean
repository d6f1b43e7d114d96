-- The integers of C: what the exact result of an operation wraps to in a type
-- of 32 or of 16 bits, and when it does not wrap.
import Mathlib.Tactic.Common

namespace mudos.ints

def int32 (n : Int) : Int := (n + 2147483648) % 4294967296 - 2147483648

def uint16 (n : Int) : Int := n % 65536

theorem int32_eq {n : Int} (h : -2147483648 ≤ n) (h' : n < 2147483648) : int32 n = n := by
  unfold int32
  omega

end mudos.ints

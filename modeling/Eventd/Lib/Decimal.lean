import Mathlib.Tactic

/-!
# Decimal numbers in a text

* `isDigit`, `decimal`: the digits of ASCII and the number that some of them denote.
-/

namespace Decimal

def isDigit (byte : UInt8) : Bool := 0x30 ≤ byte && byte ≤ 0x39

/-- The number that digits denote. -/
def decimal (digits : List UInt8) : ℕ :=
  digits.foldl (fun value digit => 10 * value + (digit.toNat - 0x30)) 0

end Decimal

import Fickle.Power

/-! # Numbers in a power-of-two base -/

namespace Fickle.Text

def hexDigit (n : Nat) : Char := "0123456789abcdef".toList.getD n '0'

/-- The last `width` hexadecimal digits of a number, the leading zeros included. -/
def hex (width n : Nat) : String :=
  String.ofList ((List.range width).map fun i => hexDigit (n / 16 ^ (width - 1 - i) % 16))

/-- Hexadecimal digits without leading zeros. -/
def hexShort (n : Nat) : String := String.ofList (Nat.toDigits 16 n)

/-- The last `width` binary digits of a number. -/
def binary (width n : Nat) : String :=
  String.ofList ((List.range width).map fun i => hexDigit (n / 2 ^ (width - 1 - i) % 2))

end Fickle.Text

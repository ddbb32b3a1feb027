import Fickle.Decimal.Shortest

/-! # Numbers with a set number of places

The exact value of the double is rounded, and a half goes to the even neighbour.
-/

namespace Fickle.Decimal

/-- The quotient rounded to the nearest natural number, a half to the even one. -/
def roundDiv (num den : Nat) : Nat :=
  let q := num / den
  let twice := 2 * (num % den)
  if twice < den then q else if den < twice then q + 1 else q + q % 2

/-- The magnitude in units of `10 ^ -places`. -/
def Magnitude.inUnits (x : Magnitude) (places : Nat) : Nat :=
  roundDiv (x.significand * 2 ^ x.exponent.toNat * 10 ^ places) (2 ^ (-x.exponent).toNat)

def fixed (places : Nat) (x : Binary64) : String :=
  if x.isNaN then "NaN"
  else
    let sign := if x.isNegative then "-" else ""
    if !Scalar.isFinite x then sign ++ "inf"
    else
      let n := (Magnitude.ofBits x.bits).inUnits places
      let fraction := toString (n % 10 ^ places)
      let zeros := String.ofList (List.replicate (places - fraction.length) '0')
      sign ++ toString (n / 10 ^ places) ++ "." ++ zeros ++ fraction

end Fickle.Decimal

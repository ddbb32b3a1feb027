import Fickle.Binary64

/-! # The fewest digits that read back

A finite double stands for an interval of reals, those that round to it. Of the decimals in that
interval the ones with the fewest digits are taken, and of those the one nearest to the double.
-/

namespace Fickle.Decimal

/-- The magnitude `significand * 2 ^ exponent` of a finite double. -/
structure Magnitude where
  significand : Nat
  exponent : Int
  /-- The gap to the double below is half the gap to the double above. -/
  narrowBelow : Bool

/-- The magnitude in the bits of a finite double; the sign is ignored. -/
def Magnitude.ofBits (bits : UInt64) : Magnitude :=
  let field := ((bits >>> 52) &&& 0x7FF).toNat
  let fraction := (bits &&& 0xFFFFFFFFFFFFF).toNat
  -- The smallest doubles lack the hidden bit.
  if field = 0 then ⟨fraction, -1074, false⟩
  else ⟨2 ^ 52 + fraction, (field : Int) - 1075, fraction = 0 ∧ 1 < field⟩

/-- The decimal `digits * 10 ^ exponent`. -/
structure Digits where
  digits : Nat
  exponent : Int

/-- Which of two decimals at the same distance is taken. -/
inductive Tie where
  | up
  | even

/-- Compares `a * 10 ^ i` with `b * 2 ^ j`. -/
def compareScaled (a : Nat) (i : Int) (b : Nat) (j : Int) : Ordering :=
  compare (a * 10 ^ i.toNat * 2 ^ (-j).toNat) (b * 2 ^ j.toNat * 10 ^ (-i).toNat)

/-- Whether the reals that round to `x` include `d`: the ends of their interval belong to it when
the significand is even. -/
def Magnitude.covers (x : Magnitude) (d : Digits) : Bool :=
  let low := if x.narrowBelow then 4 * x.significand - 1 else 4 * x.significand - 2
  let high := 4 * x.significand + 2
  let atLow := compareScaled d.digits d.exponent low (x.exponent - 2)
  let atHigh := compareScaled d.digits d.exponent high (x.exponent - 2)
  if x.significand % 2 = 0 then atLow != .lt && atHigh != .gt
  else atLow == .gt && atHigh == .lt

/-- How many times `10 ^ e` goes into the magnitude. -/
def Magnitude.quotient (x : Magnitude) (e : Int) : Nat :=
  (x.significand * 2 ^ x.exponent.toNat * 10 ^ (-e).toNat) / (2 ^ (-x.exponent).toNat * 10 ^ e.toNat)

/-- The least `k` with the magnitude below `10 ^ k`, found from the binary logarithm and at most
two steps up. -/
def Magnitude.scale (x : Magnitude) : Int :=
  let estimate := ((x.significand.log2 : Int) + x.exponent) * 30103 / 100000
  if x.quotient estimate = 0 then estimate
  else if x.quotient (estimate + 1) = 0 then estimate + 1
  else estimate + 2

/-- The decimal nearest to the magnitude on the grid of multiples of `10 ^ e` that reads back. -/
def Magnitude.onGrid (x : Magnitude) (tie : Tie) (e : Int) : Option Digits :=
  let below := x.quotient e
  let down : Digits := ⟨below, e⟩
  let up : Digits := ⟨below + 1, e⟩
  -- Zero is no candidate, since the magnitude is not zero.
  match below != 0 && x.covers down, x.covers up with
  | true, true =>
    match compareScaled (2 * below + 1) e (2 * x.significand) x.exponent with
    | .lt => some up
    | .gt => some down
    | .eq =>
      match tie with
      | .up => some up
      | .even => some (if below % 2 = 0 then down else up)
  | true, false => some down
  | false, true => some up
  | false, false => none

/-- Moves the zeros at the end of the digits into the exponent. -/
def Digits.strip (d : Digits) : Digits :=
  if d.digits ≠ 0 ∧ d.digits % 10 = 0 then Digits.strip ⟨d.digits / 10, d.exponent + 1⟩ else d
termination_by d.digits
decreasing_by omega

def Magnitude.exact (x : Magnitude) : Digits :=
  let down := (-x.exponent).toNat
  ⟨x.significand * 2 ^ x.exponent.toNat * 5 ^ down, -(down : Int)⟩

/-- The fewest digits that read back, for a magnitude that is not zero. -/
def Magnitude.shortest (x : Magnitude) (tie : Tie) : Digits :=
  let k := x.scale
  -- Seventeen digits always read back.
  (((List.range 17).findSome? fun n : Nat => x.onGrid tie (k - 1 - n)).getD x.exact).strip

end Fickle.Decimal

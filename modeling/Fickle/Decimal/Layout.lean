import Fickle.Decimal.Shortest

/-! # How the chosen digits are laid out

One record holds what a number format decides once the digits are known.
-/

namespace Fickle.Decimal

structure Layout where
  /-- Whether a number whose first digit stands for `10 ^ e` is written without an exponent. -/
  positional : Int → Bool
  /-- A whole number without an exponent ends in `.0`. -/
  pointZero : Bool
  /-- An exponent that is not negative has a sign. -/
  plus : Bool
  tie : Tie

/-- Numbers in messages: never an exponent, and nothing after a whole number. -/
def Layout.message : Layout := ⟨fun _ => true, false, false, .up⟩

/-- Numbers as parts of a shown value: without an exponent from `1e-4` up to `1e16`. -/
def Layout.value : Layout := ⟨fun e => -4 ≤ e && e < 16, true, false, .up⟩

/-- Numbers in a settings document: without an exponent from `1e-5` up to `1e16`, and exponents
have a sign. -/
def Layout.document : Layout := ⟨fun e => -5 ≤ e && e < 16, true, true, .even⟩

/-- Digits with the point put so that the first one stands for `10 ^ e`. -/
def pointed (digits : String) (e : Int) (pointZero : Bool) : String :=
  let size : Int := digits.length
  if e < 0 then "0." ++ String.ofList (List.replicate (-e - 1).toNat '0') ++ digits
  else if size ≤ e + 1 then
    digits ++ String.ofList (List.replicate (e + 1 - size).toNat '0') ++ (if pointZero then ".0" else "")
  else
    let cs := digits.toList
    String.ofList (cs.take (e + 1).toNat) ++ "." ++ String.ofList (cs.drop (e + 1).toNat)

def scientific (digits : String) (e : Int) (plus : Bool) : String :=
  let cs := digits.toList
  let mantissa :=
    match cs with
    | c :: d :: ds => String.ofList (c :: '.' :: d :: ds)
    | _ => digits
  mantissa ++ "e" ++ (if e < 0 then "-" else if plus then "+" else "") ++ toString e.natAbs

def Layout.render (l : Layout) (x : Binary64) : String :=
  if x.isNaN then "NaN"
  else
    let sign := if x.isNegative then "-" else ""
    if !Scalar.isFinite x then sign ++ "inf"
    else
      let m := Magnitude.ofBits x.bits
      if m.significand = 0 then sign ++ (if l.pointZero then "0.0" else "0")
      else
        let d := m.shortest l.tie
        let digits := toString d.digits
        let e := d.exponent + digits.length - 1
        sign ++ if l.positional e then pointed digits e l.pointZero else scientific digits e l.plus

end Fickle.Decimal

namespace Fickle.Binary64

def text (x : Binary64) : String := Decimal.Layout.message.render x

def valueText (x : Binary64) : String := Decimal.Layout.value.render x

end Fickle.Binary64

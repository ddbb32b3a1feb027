import Fickle.Fault

/-! # Which arguments a construct takes

The form is checked first, then the values.
-/

namespace Fickle.Args

variable {α : Type} [Scalar α]

/-- What is wrong with the values of the arguments, if anything. -/
def flaw? : Args α → Option ArgFlaw
  | float v => if Scalar.isFinite v then none else some .valueNotFinite
  | ishValue value variance =>
    if !Scalar.isFinite value then some .valueNotFinite
    else
      match variance with
      | none => none
      | some v =>
        if !Scalar.isWidth v then some .varianceNegative
        else if maxVariance < v then some .varianceTooLarge
        else none
  | compare left right tolerance =>
    if !(Scalar.isFinite left && Scalar.isFinite right) then some .operandsNotFinite
    else
      match tolerance with
      | none => none
      | some t => if Scalar.isWidth t then none else some .toleranceNegative
  | drift sample => if Scalar.isFinite sample.nominal then none else some .nominalNotFinite
  | binary (some odds) =>
    if !odds.toList.all Scalar.isWidth then some .oddsNegative
    else if odds.total ≤ 0.0 then some .oddsZero
    else none
  | unit | condition _ | int _ | count _ | binary none => none

def check (c : Construct) (args : Args α) : Except Fault Unit :=
  if args.shape ≠ c.shape then .error (.argumentMismatch c c.shape args.shape)
  else
    match args.flaw? with
    | some flaw => .error (.invalidArgument c flaw)
    | none => .ok ()

end Fickle.Args

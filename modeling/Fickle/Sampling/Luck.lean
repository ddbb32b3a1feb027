import Fickle.Sampling

/-! # Luck

An outcome is classed by what it is, never by how it was drawn, so that a replay moves instability
as the recorded run did.
-/

namespace Fickle

def Luck.ofBool (ok : Bool) : Luck := if ok then .favorable else .unfavorable

def luck {α : Type} [Scalar α] (c : Construct) (args : Args α) (o : Outcome α)
    (profile : Profile α) : Luck :=
  match c.behaviour, args, o with
  | .conditional, .condition b, .bool r => if b then .ofBool r else .neutral
  | .gate, _, .bool r => .ofBool r
  | .flip, .condition b, .bool r => .ofBool (r == b)
  | .integer, .int v, .int r => .ofBool (r == v)
  | .float, .float v, .float r =>
    .ofBool (decide (Scalar.abs (r - v) ≤ reliableNoise * magnitude v))
  | .spread, .ishValue v variance, .float r =>
    .ofBool (decide (Scalar.abs (r - v) ≤ variance.getD profile.ishVariance))
  | .closeness, .compare left right tolerance, .bool r =>
    let close := Scalar.abs (left - right) ≤ tolerance.getD profile.defaultTolerance
    .ofBool (r == decide close)
  | .count, .count n, .count r => .ofBool (r == n)
  | _, _, _ => .neutral

end Fickle

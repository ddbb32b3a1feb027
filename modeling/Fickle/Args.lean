import Fickle.Construct
import Fickle.Duration

/-! # What a call passes to a construct -/

namespace Fickle

variable {α : Type}

/-- What a drifting variable knows about itself when it is read. -/
structure DriftSample (α : Type) where
  nominal : α
  age : Duration
  /-- The reads so far, this one included. -/
  accesses : UInt64
  /-- The time since the read before, zero at the first one. -/
  idle : Duration
  deriving DecidableEq

structure Odds (α : Type) where
  positive : α
  negative : α
  neutral : α
  deriving DecidableEq

def Odds.toList (o : Odds α) : List α := [o.positive, o.negative, o.neutral]

def Odds.total [Scalar α] (o : Odds α) : α := Scalar.sum o.toList

inductive Args (α : Type) where
  | unit
  | condition (holds : Bool)
  | int (value : Int64)
  | float (value : α)
  | ishValue (value : α) (variance : Option α)
  | compare (left right : α) (tolerance : Option α)
  | count (n : UInt64)
  | drift (sample : DriftSample α)
  | binary (odds : Option (Odds α))
  deriving DecidableEq

def Args.shape : Args α → ArgShape
  | .unit => .unit
  | .condition _ => .condition
  | .int _ => .int
  | .float _ => .float
  | .ishValue _ _ => .ishValue
  | .compare _ _ _ => .compare
  | .count _ => .count
  | .drift _ => .drift
  | .binary _ => .binary

/-- The largest variance that a call may ask for: an eighth of the largest double. Chaos widens a
spread to at most four times the variance, and that has to stay finite. -/
def maxVariance [Scalar α] : α := OfScientific.ofScientific ((2 ^ 1024 - 2 ^ 971) / 8) false 0

end Fickle

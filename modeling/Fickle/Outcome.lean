import Fickle.Decimal.Layout
import Fickle.Construct
import Fickle.Site

/-! # Outcomes and decisions

An outcome is what a construct hands back; a decision is an outcome with the place and the
probability it was drawn at, as it is recorded and replayed.
-/

namespace Fickle

inductive Outcome (α : Type) where
  | bool (b : Bool)
  | int (v : Int64)
  | float (v : α)
  /-- One of three states, -1, 0 or 1. -/
  | ternary (v : Int8)
  | count (n : UInt64)
  deriving DecidableEq, Inhabited

namespace Outcome

variable {α : Type}

def asBool? : Outcome α → Option Bool
  | bool b => some b
  | _ => none

def asInt? : Outcome α → Option Int64
  | int v => some v
  | _ => none

def asFloat? : Outcome α → Option α
  | float v => some v
  | _ => none

def asTernary? : Outcome α → Option Int8
  | ternary v => some v
  | _ => none

def asCount? : Outcome α → Option UInt64
  | count n => some n
  | _ => none

/-- Equality bit by bit: zero differs from its negative, and a value that is no number equals
itself. -/
def bitEq : Outcome Binary64 → Outcome Binary64 → Bool
  | float a, float b => a.bits == b.bits
  | bool a, bool b => a == b
  | int a, int b => a == b
  | ternary a, ternary b => a == b
  | count a, count b => a == b
  | _, _ => false

/-- Equality as values, numbers being compared as numbers. -/
def sameValue : Outcome Binary64 → Outcome Binary64 → Bool
  | float a, float b => a.sameNumber b
  | bool a, bool b => a == b
  | int a, int b => a == b
  | ternary a, ternary b => a == b
  | count a, count b => a == b
  | _, _ => false

def valueText : Outcome Binary64 → String
  | bool b => "Bool(" ++ (if b then "true" else "false") ++ ")"
  | int v => "Int(" ++ toString v.toInt ++ ")"
  | float v => "Float(" ++ v.valueText ++ ")"
  | ternary v => "Ternary(" ++ toString v.toInt ++ ")"
  | count n => "Count(" ++ toString n.toNat ++ ")"

end Outcome

/-- How an outcome counts towards the session's luck. -/
inductive Luck where
  /-- It is what reliable behaviour would nominally give. -/
  | favorable
  /-- It is not. -/
  | unfavorable
  /-- There is nothing to compare it with. -/
  | neutral
  deriving DecidableEq

structure Decision where
  /-- The number of the decision in its session. -/
  seq : UInt64
  site : Site
  construct : Construct
  /-- The probability of the nominal outcome that was in force. -/
  probability : Binary64
  outcome : Outcome Binary64
  deriving DecidableEq, Inhabited

namespace Decision

def bitEq (a b : Decision) : Bool :=
  a.seq == b.seq && a.site == b.site && a.construct == b.construct
    && a.probability.bits == b.probability.bits && a.outcome.bitEq b.outcome

def sameValue (a b : Decision) : Bool :=
  a.seq == b.seq && a.site == b.site && a.construct == b.construct
    && a.probability.sameNumber b.probability && a.outcome.sameValue b.outcome

end Decision

end Fickle

import Fickle.Scalar

/-! # Constructs

The seventeen primitives whose outcome is left to chance. What a construct takes, what it yields
and where chaos drives it depends only on its behaviour, of which there are ten.
-/

namespace Fickle

inductive Construct where
  | maybe
  | sometimes
  | fuzzyInt
  | fuzzyFloat
  | fuzzyBool
  | ishComparison
  | repeatCount
  | sortaWhile
  | maybeFor
  | eventually
  /-- A value that drifts with age and use; computed, not drawn. -/
  | timeDrift
  | sortaPrint
  | kindaBinary
  | ishValue
  | fuzzyReassign
  | kindaImport
  | maybeImport
  deriving DecidableEq, Inhabited

inductive ArgShape where
  | unit
  | condition
  | int
  | float
  | ishValue
  | compare
  | count
  | drift
  | binary
  deriving DecidableEq

def ArgShape.name : ArgShape → String
  | .unit => "unit"
  | .condition => "condition"
  | .int => "int"
  | .float => "float"
  | .ishValue => "ish-value"
  | .compare => "compare"
  | .count => "count"
  | .drift => "drift"
  | .binary => "binary"

/-- Where the probability of the nominal outcome heads as chaos rises. -/
inductive ChaosTarget where
  /-- To a coin flip. -/
  | entropy
  /-- To the opposite of reliable behaviour. -/
  | inversion
  deriving DecidableEq

def ChaosTarget.probability {α : Type} [Scalar α] (reliable : α) : ChaosTarget → α
  | .entropy => 0.5
  | .inversion => 1.0 - reliable

inductive Behaviour where
  /-- A condition that must be true and be let through. -/
  | conditional
  /-- A gate that is open or shut. -/
  | gate
  /-- A truth value, kept or flipped. -/
  | flip
  /-- An integer, kept or moved. -/
  | integer
  /-- A number moved by a share of its size. -/
  | float
  /-- A number moved by an absolute amount. -/
  | spread
  /-- Whether two numbers are close. -/
  | closeness
  /-- A count, kept or moved. -/
  | count
  /-- A computed drift. -/
  | drift
  /-- One of three states. -/
  | choice
  deriving DecidableEq

namespace Behaviour

def shape : Behaviour → ArgShape
  | .conditional | .flip => .condition
  | .gate => .unit
  | .integer => .int
  | .float => .float
  | .spread => .ishValue
  | .closeness => .compare
  | .count => .count
  | .drift => .drift
  | .choice => .binary

def target : Behaviour → ChaosTarget
  | .conditional | .gate | .choice => .entropy
  | .flip | .integer | .float | .spread | .closeness | .count | .drift => .inversion

def yieldsBool : Behaviour → Bool
  | .conditional | .gate | .flip | .closeness => true
  | .integer | .float | .spread | .count | .drift | .choice => false

end Behaviour

namespace Construct

def all : List Construct :=
  [maybe, sometimes, fuzzyInt, fuzzyFloat, fuzzyBool, ishComparison, repeatCount, sortaWhile,
   maybeFor, eventually, timeDrift, sortaPrint, kindaBinary, ishValue, fuzzyReassign, kindaImport,
   maybeImport]

/-- The byte that stands for the construct in a log. -/
def tag : Construct → UInt8
  | maybe => 1
  | sometimes => 2
  | fuzzyInt => 3
  | fuzzyFloat => 4
  | fuzzyBool => 5
  | ishComparison => 6
  | repeatCount => 7
  | sortaWhile => 8
  | maybeFor => 9
  | eventually => 10
  | timeDrift => 11
  | sortaPrint => 12
  | kindaBinary => 13
  | ishValue => 14
  | fuzzyReassign => 15
  | kindaImport => 16
  | maybeImport => 17

def ofTag? (b : UInt8) : Option Construct := all.find? fun c => c.tag == b

def name : Construct → String
  | maybe => "maybe"
  | sometimes => "sometimes"
  | fuzzyInt => "kinda_int"
  | fuzzyFloat => "kinda_float"
  | fuzzyBool => "kinda_bool"
  | ishComparison => "ish_comparison"
  | repeatCount => "kinda_repeat"
  | sortaWhile => "sorta_while"
  | maybeFor => "maybe_for"
  | eventually => "eventually"
  | timeDrift => "time_drift"
  | sortaPrint => "sorta_print"
  | kindaBinary => "kinda_binary"
  | ishValue => "ish_value"
  | fuzzyReassign => "fuzzy_reassign"
  | kindaImport => "kinda_import"
  | maybeImport => "maybe_import"

def ofName? (s : String) : Option Construct := all.find? fun c => c.name == s

def behaviour : Construct → Behaviour
  | maybe | sometimes | sortaWhile | eventually => .conditional
  | maybeFor | sortaPrint | kindaImport | maybeImport => .gate
  | fuzzyBool => .flip
  | fuzzyInt | fuzzyReassign => .integer
  | fuzzyFloat => .float
  | ishValue => .spread
  | ishComparison => .closeness
  | repeatCount => .count
  | timeDrift => .drift
  | kindaBinary => .choice

def shape (c : Construct) : ArgShape := c.behaviour.shape

def target (c : Construct) : ChaosTarget := c.behaviour.target

def yieldsBool (c : Construct) : Bool := c.behaviour.yieldsBool

/-- The outcome is computed, and the random stream is left alone. -/
def isDeterministic (c : Construct) : Bool := c.behaviour == .drift

theorem mem_all (c : Construct) : c ∈ all := by
  cases c <;> decide

theorem ofTag?_tag (c : Construct) : ofTag? c.tag = some c := by
  cases c <;> decide

end Construct

end Fickle

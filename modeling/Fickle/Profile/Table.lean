import Fickle.Construct

/-! # Base probabilities

Four tables of the probability of the nominal outcome, before chaos and instability.
-/

namespace Fickle

abbrev Table (α : Type) := Construct → α

namespace Table

variable {α : Type} [Scalar α]

/-- The baseline that every deviation is measured from. -/
def reliable : Table α
  | .maybe => 0.95
  | .sometimes => 0.90
  | .fuzzyInt => 0.90
  | .fuzzyFloat => 0.90
  | .fuzzyBool => 0.97
  | .ishComparison => 0.98
  | .repeatCount => 0.90
  | .sortaWhile => 0.98
  | .maybeFor => 0.95
  | .eventually => 0.95
  | .timeDrift => 0.95
  | .sortaPrint => 0.95
  | .kindaBinary => 0.90
  | .ishValue => 0.90
  | .fuzzyReassign => 0.90
  | .kindaImport => 0.98
  | .maybeImport => 0.90

def cautious : Table α
  | .maybe => 0.85
  | .sometimes => 0.75
  | .fuzzyInt => 0.75
  | .fuzzyFloat => 0.75
  | .fuzzyBool => 0.90
  | .ishComparison => 0.92
  | .repeatCount => 0.70
  | .sortaWhile => 0.95
  | .maybeFor => 0.85
  | .eventually => 0.85
  | .timeDrift => 0.85
  | .sortaPrint => 0.85
  | .kindaBinary => 0.80
  | .ishValue => 0.75
  | .fuzzyReassign => 0.75
  | .kindaImport => 0.92
  | .maybeImport => 0.80

def playful : Table α
  | .maybe => 0.70
  | .sometimes => 0.60
  | .fuzzyInt => 0.50
  | .fuzzyFloat => 0.50
  | .fuzzyBool => 0.80
  | .ishComparison => 0.85
  | .repeatCount => 0.50
  | .sortaWhile => 0.90
  | .maybeFor => 0.75
  | .eventually => 0.70
  | .timeDrift => 0.70
  | .sortaPrint => 0.80
  | .kindaBinary => 0.70
  | .ishValue => 0.50
  | .fuzzyReassign => 0.50
  | .kindaImport => 0.80
  | .maybeImport => 0.65

def chaotic : Table α
  | .maybe => 0.55
  | .sometimes => 0.50
  | .fuzzyInt => 0.30
  | .fuzzyFloat => 0.30
  | .fuzzyBool => 0.65
  | .ishComparison => 0.70
  | .repeatCount => 0.30
  | .sortaWhile => 0.75
  | .maybeFor => 0.60
  | .eventually => 0.55
  | .timeDrift => 0.50
  | .sortaPrint => 0.60
  | .kindaBinary => 0.55
  | .ishValue => 0.30
  | .fuzzyReassign => 0.30
  | .kindaImport => 0.65
  | .maybeImport => 0.55

/-- The probability of the nominal outcome at full chaos. -/
def extreme (c : Construct) : α := c.target.probability (reliable c)

end Table

end Fickle

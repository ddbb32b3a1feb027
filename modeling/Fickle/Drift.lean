import Fickle.Args

/-! # Drift

How far a value has moved from what it was declared as: a function of its age, its use and the
time it lay idle, with no randomness.
-/

namespace Fickle

structure DriftModel (α : Type) where
  /-- The idle time after which half of the bonus for staleness is reached. -/
  recencyHalfLife : Duration
  /-- The age that counts as one unit. -/
  ageUnit : Duration
  ageWeight : α
  accessWeight : α
  recencyWeight : α
  /-- The largest drift, as a share of the size. -/
  maxFraction : α
  deriving DecidableEq

namespace DriftModel

variable {α : Type} [Scalar α]

def standard : DriftModel α where
  recencyHalfLife := Duration.ofSecs 30
  ageUnit := Duration.ofSecs 1
  ageWeight := 1.0
  accessWeight := 0.5
  recencyWeight := 0.5
  maxFraction := 0.5

def volatile : DriftModel α where
  recencyHalfLife := Duration.ofSecs 1
  ageUnit := Duration.ofMillis 10
  ageWeight := 2.0
  accessWeight := 1.0
  recencyWeight := 1.0
  maxFraction := 1.0

instance : Inhabited (DriftModel α) := ⟨standard⟩

/-- How many units a duration has; a unit of no length counts nothing. -/
def ratio (value unit : Duration) : α :=
  if unit.isZero then 0.0 else value.inSeconds / unit.inSeconds

/-- The drift of a sample, without size or strength. -/
def load (m : DriftModel α) (s : DriftSample α) : α :=
  let staleness : α := 1.0 - Scalar.halfPow (ratio s.idle m.recencyHalfLife)
  m.ageWeight * Scalar.log1p (ratio s.age m.ageUnit)
    + m.accessWeight * Scalar.log1p (Scalar.ofNat s.accesses.toNat)
    + m.recencyWeight * staleness

/-- What a read adds to the nominal value. It points away from zero and is scaled by the size of
the value, taken to be one at least. -/
def offset (m : DriftModel α) (strength : α) (s : DriftSample α) : α :=
  let fraction := Scalar.smaller (Scalar.larger strength 0.0 * m.load s) m.maxFraction
  let size := Scalar.larger (Scalar.abs s.nominal) 1.0
  let direction : α := if s.nominal < 0.0 then -1.0 else 1.0
  direction * fraction * size

def value (m : DriftModel α) (strength : α) (s : DriftSample α) : α :=
  s.nominal + m.offset strength s

end DriftModel

/-- The model with its numbers compared as numbers. -/
def DriftModel.sameValue {α : Type} (same : α → α → Bool) (a b : DriftModel α) : Bool :=
  a.recencyHalfLife == b.recencyHalfLife && a.ageUnit == b.ageUnit
    && same a.ageWeight b.ageWeight && same a.accessWeight b.accessWeight
    && same a.recencyWeight b.recencyWeight && same a.maxFraction b.maxFraction

end Fickle

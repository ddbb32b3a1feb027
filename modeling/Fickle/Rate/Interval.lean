import Fickle.Rate.Normal

/-! # Which observed rates are accepted

An interval around the expected rate, from the normal approximation of the binomial distribution
with a correction for continuity.
-/

namespace Fickle

structure RateInterval (α : Type) where
  expected : α
  halfWidth : α

namespace RateInterval

variable {α : Type} [Scalar α]

/-- The number of trials as it enters the formulas, one at least. -/
def trialCount (trials : Nat) : α := Scalar.ofNat (max trials 1)

def standardError (expected : α) (trials : Nat) : α :=
  Scalar.sqrt (expected * (1.0 - expected) / trialCount trials)

def ofCriticalValue (expected : α) (trials : Nat) (z : α) : RateInterval α :=
  ⟨expected, z * standardError expected trials + 0.5 / trialCount trials⟩

def ofConfidence (expected : α) (trials : Nat) (confidence : α) : RateInterval α :=
  ofCriticalValue expected trials (Normal.criticalValue confidence)

def lower (i : RateInterval α) : α := Scalar.larger (i.expected - i.halfWidth) 0.0

def upper (i : RateInterval α) : α := Scalar.smaller (i.expected + i.halfWidth) 1.0

def contains (i : RateInterval α) (rate : α) : Bool :=
  decide (Scalar.abs (rate - i.expected) ≤ i.halfWidth)

end RateInterval

variable {α : Type} [Scalar α]

/-- The successes and the failures that have to be expected before the approximation is
trusted. -/
def minExpectedCount : α := 5.0

/-- The fewest trials for which the approximation is trusted. -/
def minTrials (expected : α) : UInt64 :=
  let tail := Scalar.smaller expected (1.0 - expected)
  -- A sure rate needs no approximation.
  if tail ≤ 0.0 then 1 else Scalar.ceil (minExpectedCount / tail)

/-- The least confidence whose interval accepts a rate: zero on the expectation, near one when only
a very wide interval would do. -/
def confidenceNeeded (expected rate : α) (trials : Nat) : α :=
  let n : α := RateInterval.trialCount trials
  let deviation := Scalar.larger (Scalar.abs (rate - expected) - 0.5 / n) 0.0
  let error := RateInterval.standardError expected trials
  -- Equal to zero as a number, whatever its sign.
  if deviation ≤ 0.0 ∧ 0.0 ≤ deviation then 0.0
  else if error ≤ 0.0 ∧ 0.0 ≤ error then 1.0
  else Scalar.clamp 0.0 1.0 (2.0 * Normal.cdf (deviation / error) - 1.0)

end Fickle

import Fickle.Args
import Fickle.Chaos
import Fickle.Instability
import Fickle.Profile.Style
import Fickle.Profile.Table
import Fickle.Text.Blank

/-! # Personality profiles

A profile holds how far each construct is to be trusted. Chaos moves its probabilities away from
reliable behaviour, and instability pushes them down.
-/

namespace Fickle

structure Profile (α : Type) where
  name : String
  table : Table α
  /-- How strongly instability pushes probabilities down. -/
  volatility : α
  /-- The share of the way to the chaotic extreme that chaos 10 covers. -/
  chaosAmplifier : α
  /-- The largest offset of an integer at chaos 1. -/
  intFuzzRadius : Int64
  /-- Noise of a number as a share of its size, when it misfires. -/
  floatNoise : α
  /-- Spread of a repeat count as a share of it. -/
  repeatSpread : α
  /-- The tolerance of a comparison that names none. -/
  defaultTolerance : α
  /-- The variance of a value that names none. -/
  ishVariance : α
  /-- Drift per unit of age and use, as a share of the size. -/
  driftRate : α
  style : Style

inductive ProfileFlaw (α : Type) where
  | emptyName
  /-- A rate that is not in `[0, 1]`. -/
  | rateOutside (what : String) (value : α)
  | negativeRadius
  /-- A width that is negative or not finite. -/
  | badWidth (what : String)
  | varianceTooLarge (value : α)
  /-- A base probability beyond the chaotic extreme or the reliable baseline. -/
  | baseOutside (construct : Construct) (base extreme reliable : α)

namespace Profile

variable {α : Type} [Scalar α]

/-- The share of probability that one point of instability takes, before volatility. -/
def instabilityStep : α := 0.05

/-- The probability of the nominal outcome at a chaos level and an instability. -/
def effective (p : Profile α) (c : Construct) (level : ChaosLevel) (i : Instability) : α :=
  let base := p.table c
  let chaotic := base - (base - Table.extreme c) * p.chaosAmplifier * level.intensity
  let shift := p.volatility * Scalar.ofNat i.level.toNat * instabilityStep
  Scalar.clamp 0.0 1.0 (chaotic - shift)

/-- The rates that have to lie in `[0, 1]`, in the order in which they are checked. -/
def rates (p : Profile α) : List (String × α) :=
  [("volatility", p.volatility), ("chaos_amplifier", p.chaosAmplifier),
   ("float_noise", p.floatNoise), ("repeat_spread", p.repeatSpread), ("drift_rate", p.driftRate)]

/-- The widths that have to be finite and not negative. -/
def widths (p : Profile α) : List (String × α) :=
  [("default_tolerance", p.defaultTolerance), ("ish_variance", p.ishVariance)]

/-- The base probability lies between the chaotic extreme and the reliable baseline, so that chaos
leads away from reliable behaviour. -/
def baseInRange (p : Profile α) (c : Construct) : Bool :=
  Scalar.within (Table.extreme c) (Table.reliable c) (p.table c)

def flaw? (p : Profile α) : Option (ProfileFlaw α) :=
  if Text.isBlankText p.name then some .emptyName
  else if let some (what, v) := p.rates.find? fun r => !Scalar.within 0.0 1.0 r.2 then
    some (.rateOutside what v)
  else if p.intFuzzRadius < 0 then some .negativeRadius
  else if let some (what, _) := p.widths.find? fun w => !Scalar.isWidth w.2 then some (.badWidth what)
  else if maxVariance < p.ishVariance then some (.varianceTooLarge p.ishVariance)
  else
    (Construct.all.find? fun c => !p.baseInRange c).map fun c =>
      .baseOutside c (p.table c) (Table.extreme c) (Table.reliable c)

end Profile

def ProfileFlaw.text : ProfileFlaw Binary64 → String
  | emptyName => "empty name"
  | rateOutside what v => what ++ " " ++ v.text ++ " outside [0, 1]"
  | negativeRadius => "int_fuzz_radius must be >= 0"
  | badWidth what => what ++ " must be finite and >= 0"
  | varianceTooLarge v => "ish_variance " ++ v.text ++ " too large"
  | baseOutside c base extreme reliable =>
    c.name ++ " base " ++ base.text ++ " outside [" ++ extreme.text ++ ", " ++ reliable.text ++ "]"

end Fickle

import Fickle.Draws
import Fickle.Drift
import Fickle.Profile.Personality

/-! # Drawing outcomes

`sample` turns a probability and the arguments of a call into an outcome. A draw below the
probability gives the nominal outcome; what happens otherwise depends on the behaviour.
-/

namespace Fickle

/-- What an outcome is drawn under. -/
structure Setting (α : Type) where
  /-- The probability of the nominal outcome. -/
  probability : α
  profile : Profile α
  chaos : ChaosLevel
  drift : DriftModel α

variable {α : Type} [Scalar α]

/-- The noise of a number under the reliable personality: the band of a favorable read. -/
def reliableNoise : α := (Personality.reliable.profile : Profile α).floatNoise

/-- The size of a number, taken to be one at least. -/
def magnitude (v : α) : α := Scalar.larger (Scalar.abs v) 1.0

/-! ## Closeness -/

/-- The width of the fuzzy boundary on either side, as a share of the tolerance. -/
def boundaryBand : α := 0.25

/-- The probability that a comparison holds: `p` well inside the tolerance, `1 - p` well outside
it, and on a straight line between the two in the boundary band. -/
def ishProbability (difference tolerance p : α) : α :=
  let band := tolerance * boundaryBand
  -- Without a band the boundary is sharp.
  if band ≤ 0.0 then
    if difference ≤ tolerance then p else 1.0 - p
  else
    let lower := tolerance - band
    let upper := tolerance + band
    if difference ≤ lower then p
    else if upper ≤ difference then 1.0 - p
    else
      let t := (difference - lower) / (upper - lower)
      p + (1.0 - 2.0 * p) * t

/-! ## Three states -/

/-- Odds whose sum is this close to one are used as they are. -/
def oddsSlack : α := 0.01

/-- The sum of the odds is too far from one. -/
def Odds.isOff (o : Odds α) : Bool := decide (oddsSlack < Scalar.abs (o.total - 1.0))

def Odds.scaled (o : Odds α) (total : α) : Odds α :=
  ⟨o.positive / total, o.negative / total, o.neutral / total⟩

/-- The odds in force. Without odds of its own a call is decided with probability `p`, either way
alike; odds that are off are divided by their sum. -/
def oddsInForce (given : Option (Odds α)) (p : α) : Odds α :=
  match given with
  | none => ⟨p / 2.0, p / 2.0, 1.0 - p⟩
  | some o => if o.isOff then o.scaled o.total else o

/-- The state that a draw falls on. -/
def Odds.pick (o : Odds α) (roll : α) : Int8 :=
  if roll < o.positive then 1 else if roll < o.positive + o.negative then -1 else 0

/-! ## Widths -/

/-- The strength of drift: the drift rate at a coin flip. It depends on the personality and the
chaos level, and never on the instability. -/
def driftStrength (profile : Profile α) (chaos : ChaosLevel) : α :=
  let p := profile.effective .timeDrift chaos Instability.calm
  profile.driftRate * 2.0 * (1.0 - p)

/-- The largest offset of an integer, one at least. -/
def intRadius (profile : Profile α) (chaos : ChaosLevel) : Int64 :=
  max (Scalar.round (Scalar.ofInt profile.intFuzzRadius.toInt * chaos.scale : α)) 1

/-- The largest offset of a repeat count, one at least. -/
def repeatSpread (n : UInt64) (profile : Profile α) (chaos : ChaosLevel) : Int64 :=
  let scaled : α := Scalar.ofNat n.toNat * profile.repeatSpread * chaos.scale
  max (Scalar.round (Scalar.smaller scaled (Scalar.ofNat (2 ^ 63)))) 1

/-! ## Outcomes -/

/-- The outcome for arguments that do not belong to the construct; checked arguments never get
here. -/
def unfitOutcome (c : Construct) : Args α → Outcome α
  | .unit => .bool (!c.isDeterministic)
  | .condition b => .bool b
  | .int v => .int v
  | .float v => .float v
  | .ishValue v _ => .float v
  | .compare left right tolerance =>
    .bool (decide (Scalar.abs (left - right) ≤ tolerance.getD 0.0))
  | .count n => .count n
  | .drift s => .float s.nominal
  | .binary _ => .ternary 0

def sample {γ : Type} [Draws γ α] (c : Construct) (args : Args α) (s : Setting α) (g : γ) :
    Outcome α × γ :=
  let p := s.probability
  match c.behaviour, args with
  -- A draw is made for a false condition as well.
  | .conditional, .condition b =>
    let (u, g) := Draws.unit g
    (.bool (b && decide (u < p)), g)
  | .gate, _ =>
    let (u, g) := Draws.unit g
    (.bool (decide (u < p)), g)
  | .flip, .condition b =>
    let (u, g) := Draws.unit g
    (.bool (if u < p then b else !b), g)
  | .integer, .int v =>
    let (u, g) := Draws.unit g
    if u < p then (.int v, g)
    else
      let (d, g) := Draws.nonzero (intRadius s.profile s.chaos) g
      (.int (Int64.ofIntClamp (v.toInt + d.toInt)), g)
  | .float, .float v =>
    let (u, g) := Draws.unit g
    -- A favorable read is noisy too, and both take two draws.
    let band := if u < p then reliableNoise else s.profile.floatNoise * s.chaos.scale
    let (d, g) := Draws.offset g
    (.float (v + d * band * magnitude v), g)
  | .spread, .ishValue v variance =>
    let variance := variance.getD s.profile.ishVariance
    let (u, g) := Draws.unit g
    let spread := if u < p then variance else 2.0 * variance * s.chaos.scale
    let (d, g) := Draws.offset g
    (.float (v + d * spread), g)
  | .closeness, .compare left right tolerance =>
    let tolerance := tolerance.getD s.profile.defaultTolerance
    let (u, g) := Draws.unit g
    (.bool (decide (u < ishProbability (Scalar.abs (left - right)) tolerance p)), g)
  | .count, .count n =>
    let (u, g) := Draws.unit g
    if u < p then (.count n, g)
    else
      let (d, g) := Draws.nonzero (repeatSpread n s.profile s.chaos) g
      -- The sum is held at zero and at the largest count.
      (.count (UInt64.ofNatClamp (n.toNat + d.toInt).toNat), g)
  | .drift, .drift sample =>
    (.float (s.drift.value (driftStrength s.profile s.chaos) sample), g)
  | .choice, .binary odds =>
    let (u, g) := Draws.unit g
    (.ternary ((oddsInForce odds p).pick u), g)
  | _, args => (unfitOutcome c args, g)

end Fickle

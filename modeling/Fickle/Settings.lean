import Fickle.Drift
import Fickle.Fault
import Fickle.Profile.Personality

/-! # Settings of a session

Values are checked when a session is made from them, never clamped.
-/

namespace Fickle

structure Settings where
  /-- A name that the registry resolves. -/
  personality : String
  chaosLevel : UInt8
  /-- The seed of the random stream; without one the session draws its own. -/
  seed : Option UInt64
  /-- Record from the first decision on. -/
  record : Bool
  drift : DriftModel Binary64
  deriving DecidableEq

namespace Settings

def standard : Settings where
  personality := Personality.playful.name
  chaosLevel := 5
  seed := none
  record := false
  drift := DriftModel.standard

instance : Inhabited Settings := ⟨standard⟩

def ofPersonality (name : String) : Settings := { standard with personality := name }

def deterministic (seed : UInt64) : Settings :=
  { standard with personality := Personality.reliable.name, chaosLevel := 1, seed := some seed }

def pandemonium : Settings :=
  { standard with personality := Personality.chaotic.name, chaosLevel := 10 }

def seeded (name : String) (level : UInt8) (seed : UInt64) : Settings :=
  { ofPersonality name with chaosLevel := level, seed := some seed }

def chaos (s : Settings) : Except Fault ChaosLevel := ChaosLevel.ofNat s.chaosLevel

/-- Equality as values, numbers being compared as numbers. -/
def sameValue (a b : Settings) : Bool :=
  a.personality == b.personality && a.chaosLevel == b.chaosLevel && a.seed == b.seed
    && a.record == b.record && a.drift.sameValue Binary64.sameNumber b.drift

end Settings

end Fickle

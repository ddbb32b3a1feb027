import Fickle.Duration

/-! # The clock

A clock that is moved by hand. It never goes back.
-/

namespace Fickle

structure Clock where
  now : Duration
  deriving DecidableEq, Inhabited

namespace Clock

def zero : Clock := ⟨Duration.zero⟩

def advance (c : Clock) (step : Duration) : Clock := ⟨c.now.add step⟩

/-- Moves forward to `target`; a target in the past changes nothing. -/
def syncTo (c : Clock) (target : Duration) : Clock := ⟨c.now.later target⟩

end Clock

end Fickle

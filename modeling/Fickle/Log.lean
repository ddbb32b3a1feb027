import Fickle.Fault
import Fickle.Log.Flags

/-! # Logs

The decisions of a recorded run, with the settings that it takes to run it again.
-/

namespace Fickle

structure Log where
  seed : UInt64
  /-- The personality when the recording began. -/
  personality : String
  chaos : ChaosLevel
  /-- The seed was drawn by the session and not chosen. -/
  autoSeeded : Bool
  decisions : Array Decision
  deriving DecidableEq

namespace Log

def empty (personality : String) (chaos : ChaosLevel) (seed : UInt64) (autoSeeded : Bool) : Log :=
  ⟨seed, personality, chaos, autoSeeded, #[]⟩

def size (l : Log) : Nat := l.decisions.size

def push (l : Log) (d : Decision) : Log := { l with decisions := l.decisions.push d }

def hasDrift (l : Log) : Bool := l.decisions.toList.any fun d => d.construct == .timeDrift

def agree (same : Decision → Decision → Bool) : List Decision → List Decision → Bool
  | [], [] => true
  | a :: as, b :: bs => same a b && agree same as bs
  | _, _ => false

def sameBy (same : Decision → Decision → Bool) (a b : Log) : Bool :=
  a.seed == b.seed && a.personality == b.personality && a.chaos == b.chaos
    && a.autoSeeded == b.autoSeeded && agree same a.decisions.toList b.decisions.toList

def bitEq : Log → Log → Bool := sameBy Decision.bitEq

def sameValue : Log → Log → Bool := sameBy Decision.sameValue

end Log

end Fickle

import Fickle.Rate.Assertion
import Fickle.Stream

/-! # Calibration

Assertions are made about a source whose rate is known, each with a stream of its own. A calibrated
assertion passes about as often as its confidence says.
-/

namespace Fickle

structure Calibration where
  rate : Binary64
  trials : Nat
  metaTrials : Nat
  confidence : Binary64
  seed : UInt64

namespace Calibration

def standard : Calibration where
  rate := 0.5
  trials := 400
  metaTrials := 200
  confidence := 0.95
  seed := 0

structure Counts where
  passes : Nat
  fails : Nat
  inconclusive : Nat
  deriving DecidableEq

namespace Counts

def zero : Counts := ⟨0, 0, 0⟩

def add (c : Counts) : Verdict → Counts
  | .pass => { c with passes := c.passes + 1 }
  | .fail => { c with fails := c.fails + 1 }
  | .inconclusive => { c with inconclusive := c.inconclusive + 1 }

def total (c : Counts) : Nat := c.passes + c.fails + c.inconclusive

/-- The share of the assertions that passed, zero when there are none. -/
def passRate {α : Type} [Scalar α] (c : Counts) : α :=
  if c.total = 0 then 0.0 else Scalar.ofNat c.passes / Scalar.ofNat c.total

end Counts

def toss (rate : Binary64) : ExceptT Fault (StateM Stream) Bool := do
  let (b, s) := (← get).bernoulli rate
  set s
  return b

def assertion (c : Calibration) (i : Nat) : Except Fault (Report Binary64) × Stream :=
  (assertRate (m := ExceptT Fault (StateM Stream)) (fun _ => toss c.rate) (fun _ => Duration.zero)
    c.rate (.trials c.trials) c.confidence).run (Stream.ofSeed (Stream.subseed c.seed (UInt64.ofNat i)))

/-- The counts after `n` more assertions from index `i` on. -/
def runFrom (c : Calibration) : Nat → Nat → Counts → Except Fault Counts
  | 0, _, counts => .ok counts
  | n + 1, i, counts => do
    let report ← (c.assertion i).1
    c.runFrom n (i + 1) (counts.add report.verdict)

def run (c : Calibration) : Except Fault Counts := c.runFrom c.metaTrials 0 Counts.zero

end Calibration

end Fickle

import Fickle.Decimal.Fixed
import Fickle.Fault
import Fickle.Rate.Interval

/-! # Assertions about rates

A predicate that depends on chance is tried again and again, and the rate at which it holds is
compared with the expected one.
-/

namespace Fickle

inductive Budget where
  | trials (n : Nat)
  /-- As many as fit in a time, and never more than `limit`. -/
  | timeout (time : Duration) (limit : Nat)

namespace Budget

def limit : Budget → Nat
  | trials n => n
  | timeout _ limit => limit

def isEmpty : Budget → Bool
  | trials n => n == 0
  | timeout time limit => time.isZero || limit == 0

def hasTime (b : Budget) (elapsed : Duration) : Bool :=
  match b with
  | trials _ => true
  | timeout time _ => decide (elapsed < time)

end Budget

inductive Verdict where
  | pass
  | fail
  /-- Too few trials for the approximation. -/
  | inconclusive
  deriving DecidableEq

def Verdict.name : Verdict → String
  | pass => "pass"
  | fail => "fail"
  | inconclusive => "inconclusive"

structure Trial where
  index : Nat
  outcome : Bool
  deriving DecidableEq

def successes (trials : List Trial) : Nat := (trials.filter Trial.outcome).length

structure Report (α : Type) where
  verdict : Verdict
  observed : α
  /-- The least confidence whose interval accepts the observed rate. -/
  needed : α
  expected : α
  confidence : α
  interval : RateInterval α
  trials : List Trial

namespace Report

variable {α : Type} [Scalar α]

/-- The share of the trials that succeeded, zero when there are none. -/
def rate (trials : List Trial) : α :=
  if trials.isEmpty then 0.0
  else Scalar.ofNat (successes trials) / Scalar.ofNat trials.length

def verdictOf (interval : RateInterval α) (trials : Nat) (observed : α) : Verdict :=
  if trials < (minTrials interval.expected).toNat then .inconclusive
  else if interval.contains observed then .pass
  else .fail

def judgeBy (z : α) (trials : List Trial) (expected confidence : α) : Report α :=
  let observed : α := rate trials
  let interval := RateInterval.ofCriticalValue expected trials.length z
  ⟨verdictOf interval trials.length observed, observed,
    confidenceNeeded expected observed trials.length, expected, confidence, interval, trials⟩

def judge (trials : List Trial) (expected confidence : α) : Report α :=
  judgeBy (Normal.criticalValue confidence) trials expected confidence

def text (r : Report Binary64) : String :=
  r.verdict.name ++ ": observed " ++ Decimal.fixed 4 r.observed ++ " over "
    ++ toString r.trials.length ++ " trials, expected " ++ Decimal.fixed 4 r.expected ++ " in ["
    ++ Decimal.fixed 4 r.interval.lower ++ ", " ++ Decimal.fixed 4 r.interval.upper ++ "] at "
    ++ Decimal.fixed 3 r.confidence

end Report

/-! ## Running trials -/

/-- Whether an assertion can be made at all; checked before any trial. -/
def checkAssertion (expected : Binary64) (budget : Budget) (confidence : Binary64) :
    Except Fault Unit :=
  if !(Scalar.isFinite expected && Scalar.within 0.0 1.0 expected) then
    .error (.rateOutOfRange expected)
  else if !((0.0 : Binary64) < confidence ∧ confidence < 1.0) then
    .error (.confidenceOutOfRange confidence)
  else if budget.isEmpty then .error .emptyBudget
  else .ok ()

section

variable {m : Type → Type} [Monad m]

/-- Runs at most `n` trials from index `i` on, as long as there is time; `done` are the earlier
ones, the last one first. -/
def runTrials (predicate : Nat → m Bool) (hasTime : Nat → Bool) :
    Nat → Nat → List Trial → m (List Trial)
  | 0, _, done => return done.reverse
  | n + 1, i, done =>
    if hasTime i then do
      let outcome ← predicate i
      runTrials predicate hasTime n (i + 1) (⟨i, outcome⟩ :: done)
    else return done.reverse

variable [MonadExceptOf Fault m]

/-- Asserts that `predicate` holds at the expected rate. `elapsed` is the time that has gone by
before the trial of an index. The first failure of the predicate ends the assertion. -/
def assertRate (predicate : Nat → m Bool) (elapsed : Nat → Duration) (expected : Binary64)
    (budget : Budget) (confidence : Binary64) : m (Report Binary64) := do
  match checkAssertion expected budget confidence with
  | .error f => throw f
  | .ok _ =>
    let trials ← runTrials predicate (fun i => budget.hasTime (elapsed i)) budget.limit 0 []
    return Report.judge trials expected confidence

end

end Fickle

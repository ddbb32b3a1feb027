import Fickle.Program.World
import Fickle.Rate.Assertion

/-! # Trials in sessions of their own

Each trial runs in a fresh session with the sub-stream of its index and with a clock of its own.
What that clock reads is the only thing that a trial does not bring along itself.
-/

namespace Fickle

structure Runner where
  /-- The settings of every session but for the seed. -/
  settings : Settings
  registry : Registry
  baseSeed : UInt64

/-- What the clock of each trial reads, one look after the other. It reads zero when the trial
begins. -/
abbrev Readings := Nat → Nat → Duration

/-- Clocks that never move. -/
def Readings.still : Readings := fun _ _ => Duration.zero

namespace Runner

/-- A runner with these settings. Its sessions never record. -/
def ofSettings (settings : Settings) (registry : Registry) (baseSeed : UInt64) : Runner :=
  ⟨{ settings with record := false }, registry, baseSeed⟩

def ofPersonality (name : String) (level : UInt8) (registry : Registry) (baseSeed : UInt64) :
    Runner :=
  ofSettings { Settings.ofPersonality name with chaosLevel := level } registry baseSeed

def seed (r : Runner) (index : Nat) : UInt64 := Stream.subseed r.baseSeed (UInt64.ofNat index)

def session (r : Runner) (index : Nat) : Except Fault Session :=
  Session.create { r.settings with seed := some (r.seed index) } r.registry (r.seed index)

/-- The world that a trial begins in. -/
def world (session : Session) (readings : Nat → Duration) : World :=
  .ofHost (Host.ofSession session Clock.zero) readings

def runOne (r : Runner) (predicate : Act Bool) (readings : Readings) (index : Nat) :
    Except Fault Trial := do
  let session ← r.session index
  let outcome ← (predicate.play (world session (readings index))).1
  return ⟨index, outcome⟩

end Runner

/-! ## Trials in a row and on a pool -/

namespace Trials

section

variable {m : Type → Type} [Monad m]

/-- Runs `n` more trials from index `i` on; `done` are the earlier ones, the last one first. The
first failure ends the run. -/
@[specialize]
def runFrom (trial : Nat → m Trial) : Nat → Nat → List Trial → m (List Trial)
  | 0, _, done => return done.reverse
  | n + 1, i, done => do
    let t ← trial i
    runFrom trial n (i + 1) (t :: done)

/-- Runs `n` trials from index `i` on in halves, which are halved again up to `depth` times. Each
part is run by one worker, and the parts are put together in the order of their indices. -/
def collect (trial : Nat → m Trial) : Nat → Nat → Nat → m (List Trial)
  | 0, i, n => runFrom trial n i []
  | depth + 1, i, n =>
    -- A single trial is not split.
    if n / 2 = 0 then runFrom trial n i []
    else do
      let left ← collect trial depth i (n / 2)
      return left ++ (← collect trial depth (i + n / 2) (n - n / 2))

/-- The trial whose index is the counter. A trial that fails leaves the counter where it is. -/
def counted (trial : Nat → m Trial) : StateT Nat m Bool := do
  let t ← trial (← get)
  modify (· + 1)
  return t.outcome

variable [MonadExceptOf Fault m]

/-- Runs the trials with index below `n` on a pool of so many workers, one at least. A pool that
does not start, for the reason `refusal`, runs none. -/
def runPool (trial : Nat → m Trial) (n threads : Nat) (refusal : Option String) :
    m (List Trial) :=
  match refusal with
  | some reason => throw (.invalidSettings (.pool reason))
  | none => collect trial (Nat.log2 (max threads 1) + 1) 0 n

/-- Asserts a rate by one trial after another. -/
def assertCounted (trial : Nat → m Trial) (elapsed : Nat → Duration) (expected : Binary64)
    (budget : Budget) (confidence : Binary64) : m (Report Binary64) :=
  (assertRate (fun _ => counted trial) elapsed expected budget confidence).run' 0

/-- Asserts a rate by trials on a pool of workers. -/
def assertPool (trial : Nat → m Trial) (expected : Binary64) (n threads : Nat)
    (confidence : Binary64) (refusal : Option String) : m (Report Binary64) := do
  match checkAssertion expected (.trials n) confidence with
  | .error f => throw f
  | .ok _ =>
    let trials ← runPool trial n threads refusal
    return Report.judge trials expected confidence

end

end Trials

namespace Runner

/-! ## Trials of a runner -/

def runIsolated (r : Runner) (n : Nat) (predicate : Act Bool)
    (readings : Readings := Readings.still) : Except Fault (List Trial) :=
  Trials.runFrom (r.runOne predicate readings) n 0 []

def runParallel (r : Runner) (n threads : Nat) (predicate : Act Bool)
    (readings : Readings := Readings.still) (refusal : Option String := none) :
    Except Fault (List Trial) :=
  Trials.runPool (r.runOne predicate readings) n threads refusal

/-- Asserts the rate at which a predicate holds in sessions of their own. -/
def assertRate (r : Runner) (predicate : Act Bool) (elapsed : Nat → Duration)
    (expected : Binary64) (budget : Budget) (confidence : Binary64)
    (readings : Readings := Readings.still) : Except Fault (Report Binary64) :=
  Trials.assertCounted (r.runOne predicate readings) elapsed expected budget confidence

/-- The same assertion with the trials spread over workers. -/
def assertRateParallel (r : Runner) (predicate : Act Bool) (expected : Binary64)
    (n threads : Nat) (confidence : Binary64) (readings : Readings := Readings.still)
    (refusal : Option String := none) : Except Fault (Report Binary64) :=
  Trials.assertPool (r.runOne predicate readings) expected n threads confidence refusal

end Runner

end Fickle

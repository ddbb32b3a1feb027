import Fickle.Log.Codec
import Fickle.Program.Import

/-! # Scenarios

A program with a statement of every kind is recorded, run again, saved, loaded and replayed, and
all of these have to agree.
-/

namespace Fickle

/-! ## The mixed program -/

namespace Mixed

def tick : Duration := Duration.ofMillis 250

def base : Site := Site.ofSource "mixed.knda" 1 1

/-- The statement with index `i`, as the kind of call that its turn brings. -/
def statement (i : Nat) : Program (Outcome Binary64) :=
  let site := base.child (UInt32.ofNat i)
  match i % 13 with
  | 0 => return .bool (← Program.maybe site true)
  | 1 => return .int (← Program.kindaInt site (Int64.ofNat i * 3))
  | 2 => return .float (← Program.kindaFloat site (2.5 + Scalar.ofNat i))
  | 3 => return .bool (← Program.sometimes site (i % 2 == 1))
  | 4 => return .bool (← Program.ish site (Scalar.ofNat i) 5.0 none)
  | 5 => return .ternary (← Program.kindaBinary site none)
  | 6 => return .count (← Program.kindaRepeat site 4)
  | 7 => return .float (← Program.ishValue site 100.0 none)
  | 8 => return .bool (← Program.kindaBool site true)
  | 9 => return .int (← Program.fuzzyReassign site (-Int64.ofNat i))
  | 10 => return .bool (← Program.sortaPrint site "still here")
  | _ => return .bool (← Program.kindaImport site "mixed" (.ok i)).module.isSome

def advance (step : Duration) : Program Unit :=
  modify fun h => { h with clock := h.clock.advance step }

/-- `n` statements from index `i` on; every thirteenth reads the drifting variable. -/
def runFrom : Nat → Nat → DriftVar → Program (List (Outcome Binary64))
  | 0, _, _ => return []
  | n + 1, i, v => do
    let (outcome, v) ←
      if i % 13 = 12 then do
        let (r, v) ← (Program.timeDrift v : StateM Host _)
        pure (.float (← Program.ofExcept r), v)
      else pure (← statement i, v)
    advance tick
    return outcome :: (← runFrom n (i + 1) v)

/-- The mixed program, `calls` statements long. -/
def run (calls : Nat) : Program (List (Outcome Binary64)) := do
  let v ← Program.driftVar (base.child (UInt32.ofNat (2 ^ 32 - 1))) 40.0
  runFrom calls 0 v

end Mixed

/-! ## Scenarios -/

structure Scenario where
  name : String
  personality : String
  chaosLevel : UInt8
  seed : UInt64
  calls : Nat

structure ScenarioResult where
  scenario : Scenario
  decisions : Nat
  unfavorable : Nat
  /-- What did not hold, in words. -/
  violations : List String

def ScenarioResult.passed (r : ScenarioResult) : Bool := r.violations.isEmpty

namespace Scenario

def standard (name personality : String) : Scenario := ⟨name, personality, 5, 42, 60⟩

def host (s : Scenario) (clock : Clock) : Except Fault Host := do
  return Host.ofSession
    (← Session.create (Settings.seeded s.personality s.chaosLevel s.seed) Registry.builtin s.seed)
    clock

/-- A step of the check. It may fail, and the violations found before that stay found; the last one
comes first. -/
abbrev Check := ExceptT Fault (StateM (List String))

def violate (what : String) : Check Unit := modify fun vs => what :: vs

/-- Notes what is amiss, unless all is well. -/
@[macro_inline]
def require (well : Bool) (what : String) : Check Unit := if well then pure () else violate what

def check {β : Type} (r : Except Fault β) : Check β := ExceptT.mk (pure r)

def sameOutcomes : List (Outcome Binary64) → List (Outcome Binary64) → Bool
  | [], [] => true
  | a :: as, b :: bs => a.bitEq b && sameOutcomes as bs
  | _, _ => false

/-- The mixed program from the start of a recording to its end. -/
def recorded (s : Scenario) : Program (List (Outcome Binary64) × Tally × Option Log) := do
  Program.startRecording
  let outcomes ← Mixed.run s.calls
  let tally := (← Program.session).tally
  return (outcomes, tally, ← Program.stopRecording)

/-- The recorded run: its outcomes, its counters and its log. -/
def recordRun (s : Scenario) : Except Fault (List (Outcome Binary64) × Tally × Log) := do
  let host ← s.host Clock.zero
  match (← (s.recorded.run host).1) with
  | (outcomes, tally, some log) => return (outcomes, tally, log)
  | (_, _, none) => throw (.invalidSettings .notRecording)

/-- The decisions and the unfavorable ones of the recorded run, with all that has to agree with it
checked. -/
def checks (s : Scenario) : Check (Nat × Nat) := do
  let (live, tally, log) ← check s.recordRun
  require (log.size == tally.decisions) ("log holds " ++ toString log.size
    ++ " decisions, session made " ++ toString tally.decisions)
  for d in log.decisions do
    require (Scalar.within 0.0 1.0 d.probability)
      ("seq " ++ toString d.seq.toNat ++ " recorded probability " ++ d.probability.text)
  let again ← check (s.host Clock.zero)
  let rerun ← check ((Mixed.run s.calls).run again).1
  require (sameOutcomes live rerun) "same seed produced different outcomes"
  let decoded ← check (log.encode >>= Log.decode)
  require (decoded.bitEq log) "record log changed across encode/decode"
  let session ← check (Session.replay decoded Registry.builtin)
  -- The replay runs at another time, which must not show.
  let later := Host.ofSession session ⟨Duration.ofSecs 3600⟩
  let (replayed, later) := (Mixed.run s.calls).run later
  require (sameOutcomes live (← check replayed)) "replay returned different outcomes"
  match (Program.finishReplay.run later).1 with
  | .error f => violate ("replay incomplete: " ++ f.message)
  | .ok _ => pure ()
  return (tally.decisions, tally.unfavorable)

def run (s : Scenario) : ScenarioResult :=
  match s.checks.run [] with
  | (.ok (decisions, unfavorable), violations) =>
    ⟨s, decisions, unfavorable, violations.reverse⟩
  | (.error f, violations) =>
    ⟨s, 0, 0, (("runtime error: " ++ f.message) :: violations).reverse⟩

/-- Every built-in personality at chaos 1, 5 and 10. -/
def standardSuite : List Scenario :=
  Personality.all.flatMap fun p =>
    [1, 5, 10].map fun level =>
      { standard (p.name ++ "_chaos_" ++ toString level) p.name with
        chaosLevel := UInt8.ofNat level
        seed := UInt64.ofNat (level * 1000 + 7) }

end Scenario

namespace ScenarioResult

/-- Something was run, and all of it passed. -/
def allPassed (results : List ScenarioResult) : Bool :=
  !results.isEmpty && results.all ScenarioResult.passed

def text (r : ScenarioResult) : String :=
  "[" ++ (if r.passed then "PASS" else "FAIL") ++ "] " ++ r.scenario.name ++ " ("
    ++ toString r.decisions ++ " decisions, " ++ toString r.unfavorable ++ " unfavorable)\n"
    ++ String.join (r.violations.map fun v => "    - " ++ v ++ "\n")

def summary (results : List ScenarioResult) : String := String.join (results.map text)

end ScenarioResult

end Fickle

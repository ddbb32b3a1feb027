import Fickle.Clock
import Fickle.Event
import Fickle.Session.Evaluate

/-! # Programs

A program runs on a host: a session, a clock, the lines printed so far and the events reported so
far. An action of a program may fail, and what it did to the host before it failed stays done.
-/

namespace Fickle

structure Host where
  session : Session
  clock : Clock
  /-- Printed lines, the last one first. -/
  printed : List String
  /-- Reported events, the last one first. -/
  journal : List Event

/-- An action on a host. -/
abbrev Program := ExceptT Fault (StateM Host)

/-- What a program gives on a host, and the host after it. -/
def Program.play {β : Type} (p : Program β) (h : Host) : Except Fault β × Host :=
  Id.run (StateT.run (ExceptT.run p) h)

namespace Host

/-- A host with nothing printed or reported. -/
def ofSession (session : Session) (clock : Clock) : Host := ⟨session, clock, [], []⟩

def report (h : Host) (e : Event) : Host := { h with journal := e :: h.journal }

/-- The events of a session that begins with the given settings, the last one first. -/
def openingEvents (settings : Settings) (first : Event) : List Event :=
  if settings.record then [.recordingStarted, first] else [first]

def create (settings : Settings) (registry : Registry) (drawn : UInt64) (clock : Clock) :
    Except Fault Host := do
  let session ← Session.create settings registry drawn
  return { ofSession session clock with journal := openingEvents settings .sessionStarted }

end Host

namespace Program

def report (e : Event) : Program Unit := modify fun h => h.report e

def print (line : String) : Program Unit :=
  modify fun h => { h with printed := line :: h.printed }

def setSession (s : Session) : Program Unit := modify fun h => { h with session := s }

def session : Program Session := return (← get).session

def ofExcept {β : Type} (r : Except Fault β) : Program β := ExceptT.mk (pure r)

/-! ## Calls -/

def evaluate (c : Construct) (site : Site) (args : Args Binary64) : Program (Outcome Binary64) := do
  let s ← session
  match s.evaluate c site args with
  | .ok (outcome, s') =>
    if s.scalesOdds args then report .oddsScaled
    setSession s'
    return outcome
  | .error f =>
    if f.isDivergence then report .replayDiverged
    throw f

def evaluateNamed (name : String) (site : Site) (args : Args Binary64) :
    Program (Outcome Binary64) :=
  match Construct.ofName? name with
  | some c => evaluate c site args
  | none => throw (.invalidSettings (.unknownConstruct name))

/-! ## The session -/

def setPersonality (name : String) : Program Unit := do
  setSession (← ofExcept ((← session).setPersonality name))
  report .personalityChanged

def setChaosLevel (level : UInt8) : Program Unit := do
  setSession (← ofExcept ((← session).setChaosLevel level))
  report .chaosChanged

def reseed (seed : UInt64) : Program Unit := do
  setSession ((← session).reseed seed)

/-- Begins again with other settings. -/
def restart (settings : Settings) (drawn : UInt64) : Program Unit := do
  setSession (← ofExcept ((← session).restart settings drawn))
  (Host.openingEvents settings .sessionRestarted).reverse.forM report

def startRecording : Program Unit := do
  setSession (← ofExcept (← session).startRecording)
  report .recordingStarted

def stopRecording : Program (Option Log) := do
  let (log?, s) := (← session).stopRecording
  setSession s
  if let some log := log? then report (.recordingStopped log.size)
  return log?

/-- Puts a session that replays a log in the place of the one at hand. -/
def replay (log : Log) (registry : Registry) : Program Unit := do
  setSession (← ofExcept (Session.replay log registry))
  report .sessionStarted
  report (.replayStarted log.size)

def finishReplay : Program Unit := do
  let s ← session
  let (result, s') := s.finishReplay
  setSession s'
  if s.isReplaying then
    report (match result with
      | .ok _ => .replayFinished
      | .error _ => .replayCutShort)
  ofExcept result

/-- The summary of the session, which ends. -/
def teardown : Program Summary := do
  let s ← session
  report (.tornDown s.tally.decisions)
  return s.summary

/-! ## Fallbacks -/

def recordFallback (message : String) : Program Unit := do
  setSession (← session).recordFallback
  report (.fallbackTaken message)

/-- The value, or the fallback when there is none. Taking the fallback is bad luck. -/
def welp {β : Type} (text : β → String) (primary : Option β) (fallback : β) : Program β :=
  match primary with
  | some v => return v
  | none => do
    recordFallback ((← session).profile.style.fallbackMessage (text fallback))
    return fallback

/-- The result, or the fallback when it is an error. -/
def welpResult {β : Type} (text : β → String) (primary : Except String β) (fallback : β) :
    Program β :=
  match primary with
  | .ok v => return v
  | .error _ => do
    report .primaryFailed
    welp text none fallback

end Program

end Fickle

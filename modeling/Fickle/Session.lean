import Fickle.Log
import Fickle.Profile.Registry
import Fickle.Sampling.Luck
import Fickle.Settings
import Fickle.Stream

/-! # Sessions

A session owns all that chance depends on: the personality, the chaos level, the one random
stream, the instability, and the log that is being written or replayed.
-/

namespace Fickle

/-- What has been counted. No run gets to the end of the sixty-four bits that would hold a count, so
none is given an end here. -/
structure Tally where
  decisions : Nat
  favorable : Nat
  unfavorable : Nat
  neutral : Nat
  /-- Fallbacks taken outside any decision. -/
  fallbacks : Nat
  deriving DecidableEq, Inhabited

namespace Tally

def zero : Tally := ⟨0, 0, 0, 0, 0⟩

def record (t : Tally) (l : Luck) : Tally :=
  let t := { t with decisions := t.decisions + 1 }
  match l with
  | .favorable => { t with favorable := t.favorable + 1 }
  | .unfavorable => { t with unfavorable := t.unfavorable + 1 }
  | .neutral => { t with neutral := t.neutral + 1 }

end Tally

/-- A place in a log that is being replayed. -/
structure Cursor where
  log : Log
  /-- The decisions that have been consumed. -/
  next : Nat

namespace Cursor

def start (log : Log) : Cursor := ⟨log, 0⟩

def remaining (c : Cursor) : Nat := c.log.size - c.next

/-- Takes the next recorded decision, which has to be of the construct and the site of the call
with number `seq`. -/
def advance (c : Cursor) (seq : Nat) (site : Site) (construct : Construct) :
    Except Fault (Decision × Cursor) :=
  match c.log.decisions[c.next]? with
  | none => .error (.replayExhausted seq site construct)
  | some d =>
    -- A call of another construct is told before one at another site.
    if d.construct ≠ construct then
      .error (.replayDivergence seq site d.construct construct)
    else if d.site ≠ site then .error (.replaySiteMismatch seq construct d.site site)
    else .ok (d, { c with next := c.next + 1 })

end Cursor

inductive Mode where
  | live
  | recording (log : Log)
  | replaying (cursor : Cursor)

structure Session where
  registry : Registry
  profile : Profile Binary64
  chaos : ChaosLevel
  seed : UInt64
  /-- The seed was drawn and not chosen. -/
  autoSeeded : Bool
  stream : Stream
  instability : Instability
  /-- The number that the next decision gets, with no end to it, as in a tally. -/
  next : Nat
  mode : Mode
  drift : DriftModel Binary64
  tally : Tally

/-- What is left of a session that has ended. -/
structure Summary where
  seed : UInt64
  personality : String
  chaos : ChaosLevel
  instability : UInt32
  tally : Tally
  /-- The log that was still being recorded. -/
  recording : Option Log

namespace Session

/-! ## What a session shows -/

def isRecording (s : Session) : Bool :=
  match s.mode with
  | .recording _ => true
  | .live | .replaying _ => false

def isReplaying (s : Session) : Bool :=
  match s.mode with
  | .replaying _ => true
  | .live | .recording _ => false

def modeName (s : Session) : String :=
  match s.mode with
  | .live => "live"
  | .recording _ => "recording"
  | .replaying _ => "replaying"

/-- The recorded decisions that a replay has not consumed. -/
def remaining? (s : Session) : Option Nat :=
  match s.mode with
  | .replaying c => some c.remaining
  | .live | .recording _ => none

/-- The probability of the nominal outcome that a construct has now. -/
def effective (s : Session) (c : Construct) : Binary64 :=
  s.profile.effective c s.chaos s.instability

def valueText (s : Session) : String :=
  "RuntimeSession \x7b personality: " ++ Text.quoted s.profile.name
    ++ ", chaos: ChaosLevel(" ++ s.chaos.text ++ "), seed: " ++ toString s.seed.toNat
    ++ ", seq: " ++ toString s.next ++ ", instability: " ++ toString s.instability.level.toNat
    ++ ", mode: " ++ Text.quoted s.modeName ++ " \x7d"

def summary (s : Session) : Summary where
  seed := s.seed
  personality := s.profile.name
  chaos := s.chaos
  instability := s.instability.level
  tally := s.tally
  recording :=
    match s.mode with
    | .recording log => some log
    | .live | .replaying _ => none

/-! ## Beginnings -/

/-- The stream from its start, a calm instability, and all counters at zero. -/
def rewind (s : Session) (seed : UInt64) (autoSeeded : Bool) : Session :=
  { s with
    seed, autoSeeded
    stream := Stream.ofSeed seed
    instability := Instability.calm
    next := 0
    tally := Tally.zero }

def freshLog (s : Session) : Log := Log.empty s.profile.name s.chaos s.seed s.autoSeeded

/-- Records every decision from here on. The stream starts again, so that the log is enough to
repeat the run. A replay cannot be recorded. -/
def startRecording (s : Session) : Except Fault Session :=
  if s.isReplaying then .error .replayActive
  else
    let s := s.rewind s.seed s.autoSeeded
    .ok { s with mode := .recording s.freshLog }

/-- A session that begins with the given settings. When they have no seed, `drawn` is taken. -/
def create (settings : Settings) (registry : Registry) (drawn : UInt64) : Except Fault Session := do
  let profile ← registry.get settings.personality
  let chaos ← settings.chaos
  let seed := settings.seed.getD drawn
  let s : Session := {
    registry, profile, chaos, seed
    autoSeeded := settings.seed.isNone
    stream := Stream.ofSeed seed
    instability := Instability.calm
    next := 0
    mode := .live
    drift := settings.drift
    tally := Tally.zero }
  if settings.record then s.startRecording else return s

def replay (log : Log) (registry : Registry) : Except Fault Session := do
  let s ← create (Settings.seeded log.personality log.chaos.val log.seed) registry log.seed
  return { s with autoSeeded := log.autoSeeded, mode := .replaying (Cursor.start log) }

/-- Begins again with other settings; only the registry is kept. -/
def restart (s : Session) (settings : Settings) (drawn : UInt64) : Except Fault Session := do
  let profile ← s.registry.get settings.personality
  let chaos ← settings.chaos
  let seed := settings.seed.getD drawn
  -- A recording or a replay that was going on is dropped.
  let s := { s with profile, chaos, drift := settings.drift, mode := .live }
  let s := s.rewind seed settings.seed.isNone
  if settings.record then s.startRecording else return s

/-- Starts the stream again from `seed`. A recording begins again too, since its decisions belong
to the old stream. -/
def reseed (s : Session) (seed : UInt64) : Session :=
  let s := s.rewind seed false
  match s.mode with
  | .recording _ => { s with mode := .recording s.freshLog }
  | .live | .replaying _ => s

/-! ## Changes -/

def setPersonality (s : Session) (name : String) : Except Fault Session := do
  let profile ← s.registry.get name
  return { s with profile }

def setChaosLevel (s : Session) (level : UInt8) : Except Fault Session := do
  let chaos ← ChaosLevel.ofNat level
  return { s with chaos }

/-- Hands out the log of a recording, and goes on without one. -/
def stopRecording (s : Session) : Option Log × Session :=
  match s.mode with
  | .recording log => (some log, { s with mode := .live })
  | .live | .replaying _ => (none, s)

/-- Ends a replay, which should have consumed its log. -/
def finishReplay (s : Session) : Except Fault Unit × Session :=
  match s.mode with
  | .replaying c =>
    (if c.next < c.log.size then .error (.replayIncomplete c.next c.log.size) else .ok (),
      { s with mode := .live })
  | .live | .recording _ => (.ok (), s)

/-- Counts a fallback as bad luck. -/
def recordFallback (s : Session) : Session :=
  { s with
    instability := s.instability.record .unfavorable
    tally := { s.tally with fallbacks := s.tally.fallbacks + 1 } }

end Session

end Fickle

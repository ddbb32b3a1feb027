import Fickle.Profile
import Fickle.Text.Quoted

/-! # What can go wrong

Each fault is a cause with the facts that belong to it. Its class tells a host whom to blame, and
its message is for people.
-/

namespace Fickle

/-- Why the arguments of a call are refused, or its outcome does not fit. -/
inductive ArgFlaw where
  | valueNotFinite
  | varianceNegative
  | varianceTooLarge
  | operandsNotFinite
  | toleranceNegative
  | nominalNotFinite
  | oddsNegative
  | oddsZero
  | constituentNotBoolean
  | wantedBoolean (got : Outcome Binary64)
  /-- A construct yielded an outcome of a kind that it does not have. -/
  | produced (got : Outcome Binary64)

def ArgFlaw.text : ArgFlaw → String
  | valueNotFinite => "value is not finite"
  | varianceNegative => "variance must be >= 0"
  | varianceTooLarge => "variance too large"
  | operandsNotFinite => "operands must be finite"
  | toleranceNegative => "tolerance must be >= 0"
  | nominalNotFinite => "nominal value is not finite"
  | oddsNegative => "probabilities must be finite and >= 0"
  | oddsZero => "probabilities sum to zero"
  | constituentNotBoolean => "composed constituents must be boolean"
  | wantedBoolean got => "expected a boolean outcome, got " ++ got.valueText
  | produced got => "produced " ++ got.valueText

/-- Why settings, or something given beside them, are refused. -/
inductive SettingsFlaw where
  | document
  | variable (name value : String)
  | unknownConstruct (name : String)
  | unknownLineFormat (name : String)
  /-- A composition that asks for more true constituents than it has. -/
  | atLeast (wanted given : Nat)
  | notRecording
  /-- The workers of a pool could not be started; the reason is the machine's own. -/
  | pool (reason : String)
  | other (reason : String)

def SettingsFlaw.text : SettingsFlaw → String
  | document => "<json>"
  | .variable name value => name ++ "=" ++ Text.quoted value
  | unknownConstruct name => "unknown construct " ++ Text.quoted name
  | unknownLineFormat name => "unknown log format " ++ Text.quoted name
  | atLeast wanted given =>
    "at-least " ++ toString wanted ++ " of " ++ toString given ++ " constituents"
  | notRecording => "recording was not active"
  | pool reason => "trial pool: " ++ reason
  | other reason => reason

/-- Why a log cannot be written, read or replayed. -/
inductive LogFlaw where
  | badMagic
  | unsupportedVersion (version : UInt8)
  | unknownFlags (bits : UInt8)
  | nameNotText
  | nameTooLong
  | boolPayload (raw : UInt64)
  | ternaryPayload (raw : Int64)
  | probability (value : Binary64) (seq : UInt64)
  | countOverflow
  | countMismatch (count bytes : Nat)
  | digestMismatch
  | outOfOrder (seq : UInt64)
  /-- A recorded outcome of a kind that the construct does not have. -/
  | misfit (outcome : Outcome Binary64) (construct : Construct)

def LogFlaw.text : LogFlaw → String
  | badMagic => "bad magic"
  | unsupportedVersion v => "unsupported version " ++ toString v.toNat
  | unknownFlags bits => "unknown flags 0b" ++ Text.binary 8 bits.toNat
  | nameNotText => "personality is not UTF-8"
  | nameTooLong => "personality name longer than 255 bytes"
  | boolPayload raw => "bool payload " ++ toString raw.toNat
  | ternaryPayload raw => "ternary payload " ++ toString raw.toInt
  | probability value seq => "probability " ++ value.text ++ " at seq " ++ toString seq.toNat
  | countOverflow => "decision count overflows"
  | countMismatch count bytes =>
    "header declares " ++ toString count ++ " decisions but " ++ toString bytes
      ++ " record bytes follow"
  | digestMismatch => "digest mismatch"
  | outOfOrder seq => "sequence number " ++ toString seq.toNat ++ " out of order"
  | misfit outcome construct =>
    "recorded outcome " ++ outcome.valueText ++ " does not fit " ++ construct.name

inductive Fault where
  | unknownPersonality (name : String)
  | chaosOutOfRange (level : UInt8)
  | rateOutOfRange (rate : Binary64)
  | confidenceOutOfRange (confidence : Binary64)
  | argumentMismatch (construct : Construct) (expected actual : ArgShape)
  | invalidArgument (construct : Construct) (flaw : ArgFlaw)
  | invalidSettings (flaw : SettingsFlaw)
  | invalidProfile (name : String) (flaw : ProfileFlaw Binary64)
  | duplicatePersonality (name : String)
  | duplicateComposition (name : String)
  | unknownComposition (name : String)
  | replayDivergence (seq : Nat) (site : Site) (expected actual : Construct)
  | replaySiteMismatch (seq : Nat) (construct : Construct) (expected actual : Site)
  | replayExhausted (seq : Nat) (site : Site) (construct : Construct)
  | replayIncomplete (consumed recorded : Nat)
  | replayActive
  | emptyBudget
  | badLog (flaw : LogFlaw)
  | truncated (expected actual : Nat)
  | unknownConstructTag (tag : UInt8)
  | unknownOutcomeTag (tag : UInt8)
  /-- Bytes could not be moved; the reason is the device's own. -/
  | transfer (reason : String)

/-- Whom a fault points at. -/
inductive FaultClass where
  /-- Settings, a profile, an argument or a parameter. -/
  | configuration
  /-- A program that is not the recorded one any more. -/
  | replayDivergence
  /-- An assertion with nothing to spend. -/
  | assertionBudget
  /-- A log or its bytes. -/
  | format
  deriving DecidableEq

namespace Fault

def kind : Fault → FaultClass
  | unknownPersonality _ | chaosOutOfRange _ | rateOutOfRange _ | confidenceOutOfRange _
  | argumentMismatch _ _ _ | invalidArgument _ _ | invalidSettings _ | invalidProfile _ _
  | duplicatePersonality _ | duplicateComposition _ | unknownComposition _ | replayActive =>
    .configuration
  | replayDivergence _ _ _ _ | replaySiteMismatch _ _ _ _ | replayExhausted _ _ _
  | replayIncomplete _ _ => .replayDivergence
  | emptyBudget => .assertionBudget
  | badLog _ | truncated _ _ | unknownConstructTag _ | unknownOutcomeTag _ | transfer _ => .format

def isDivergence (f : Fault) : Bool := f.kind == .replayDivergence

def message : Fault → String
  | unknownPersonality name => "Unknown personality: " ++ name
  | chaosOutOfRange level => "Chaos level " ++ toString level.toNat ++ " outside 1..=10"
  | rateOutOfRange rate => "Invalid probability for expected rate: " ++ rate.text
  | confidenceOutOfRange confidence => "Confidence " ++ confidence.text ++ " outside (0, 1)"
  | argumentMismatch construct expected actual =>
    "Construct " ++ construct.name ++ " expects " ++ expected.name ++ " arguments, got " ++ actual.name
  | invalidArgument construct flaw =>
    "Invalid argument for " ++ construct.name ++ ": " ++ flaw.text
  | invalidSettings flaw => "Invalid configuration: " ++ flaw.text
  | invalidProfile name flaw => "Invalid personality profile " ++ name ++ ": " ++ flaw.text
  | duplicatePersonality name => "Personality already registered: " ++ name
  | duplicateComposition name => "Composed construct already declared: " ++ name
  | unknownComposition name => "Unknown composed construct: " ++ name
  | replayDivergence seq site expected actual =>
    "Replay diverged at seq " ++ toString seq ++ " (site " ++ site.text ++ "): expected "
      ++ expected.name ++ ", got " ++ actual.name
  | replaySiteMismatch seq construct expected actual =>
    "Replay diverged at seq " ++ toString seq ++ " (" ++ construct.name ++ "): expected site "
      ++ expected.text ++ ", got " ++ actual.text
  | replayExhausted seq site construct =>
    "Replay log exhausted at seq " ++ toString seq ++ ": program called " ++ construct.name
      ++ " at site " ++ site.text
  | replayIncomplete consumed recorded =>
    "Replay ended early: consumed " ++ toString consumed ++ " of " ++ toString recorded
      ++ " recorded decisions"
  | replayActive => "Session is replaying; recording cannot start"
  | emptyBudget => "Assertion budget must allow at least one trial"
  | badLog flaw => "Invalid log format: " ++ flaw.text
  | truncated expected actual =>
    "Buffer too short: expected " ++ toString expected ++ ", got " ++ toString actual
  | unknownConstructTag tag => "Unknown construct tag: " ++ toString tag.toNat
  | unknownOutcomeTag tag => "Unknown outcome tag: " ++ toString tag.toNat
  | transfer reason => "I/O error: " ++ reason

end Fault

def ChaosLevel.ofNat (level : UInt8) : Except Fault ChaosLevel :=
  match ofNat? level with
  | some c => .ok c
  | none => .error (.chaosOutOfRange level)

end Fickle

/-! # Events

What a session reports of itself while it runs.
-/

namespace Fickle

inductive Event where
  | sessionStarted
  | sessionRestarted
  | tornDown (decisions : Nat)
  | personalityChanged
  | chaosChanged
  | recordingStarted
  | recordingStopped (decisions : Nat)
  | replayStarted (decisions : Nat)
  | replayFinished
  | replayCutShort
  | replayDiverged
  | oddsScaled
  | primaryFailed
  /-- A fallback was taken, told in the voice of the personality. -/
  | fallbackTaken (message : String)
  /-- An import went another way, told in the voice of the personality. -/
  | importNote (message : String)
  | fallbackModuleUsed
  | compositionDeclared (decisions : Nat)
  deriving DecidableEq

inductive Severity where
  | debug
  | info
  | warn
  deriving DecidableEq

def Severity.name : Severity → String
  | debug => "DEBUG"
  | info => "INFO"
  | warn => "WARN"

namespace Event

def severity : Event → Severity
  | compositionDeclared _ => .debug
  | replayCutShort | replayDiverged | oddsScaled | primaryFailed | fallbackTaken _ => .warn
  | sessionStarted | sessionRestarted | tornDown _ | personalityChanged | chaosChanged
  | recordingStarted | recordingStopped _ | replayStarted _ | replayFinished | importNote _
  | fallbackModuleUsed => .info

def message : Event → String
  | sessionStarted => "session initialized"
  | sessionRestarted => "session reinitialized"
  | tornDown _ => "session torn down"
  | personalityChanged => "personality changed"
  | chaosChanged => "chaos level changed"
  | recordingStarted => "recording started"
  | recordingStopped _ => "recording stopped"
  | replayStarted _ => "replay started"
  | replayFinished => "replay finished"
  | replayCutShort => "replay ended before the log was exhausted"
  | replayDiverged => "replay diverged"
  | oddsScaled => "binary probabilities do not sum to 1, normalizing"
  | primaryFailed => "welp primary failed"
  | fallbackTaken message => message
  | importNote message => message
  | fallbackModuleUsed => "using fallback module"
  | compositionDeclared _ => "composition declared"

def decisions? : Event → Option Nat
  | tornDown n | recordingStopped n | replayStarted n | compositionDeclared n => some n
  | sessionStarted | sessionRestarted | personalityChanged | chaosChanged | recordingStarted
  | replayFinished | replayCutShort | replayDiverged | oddsScaled | primaryFailed
  | fallbackTaken _ | importNote _ | fallbackModuleUsed => none

/-- The line of a journal: how severe, what happened, and the decisions if they are counted. -/
def line (e : Event) : String :=
  e.severity.name ++ " " ++ e.message ++
    match e.decisions? with
    | some n => " decisions=" ++ n.repr
    | none => ""

end Event

end Fickle

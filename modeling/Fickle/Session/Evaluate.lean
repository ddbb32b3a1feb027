import Fickle.Args.Check
import Fickle.Session

/-! # Evaluating a construct

Every call goes through `evaluate`. It draws the outcome, or takes it from the log that is being
replayed, and then books the decision. A call that fails leaves nothing behind.
-/

namespace Fickle.Session

def setting (s : Session) (c : Construct) : Setting Binary64 :=
  ⟨s.effective c, s.profile, s.chaos, s.drift⟩

/-- The probability and the outcome of a call, and the session with its stream or its log moved
on. -/
def resolve (s : Session) (c : Construct) (site : Site) (args : Args Binary64) :
    Except Fault (Binary64 × Outcome Binary64 × Session) :=
  match s.mode with
  | .replaying cursor => do
    let (d, cursor) ← cursor.advance s.next site c
    return (d.probability, d.outcome, { s with mode := .replaying cursor })
  | .live | .recording _ =>
    let (outcome, stream) := sample c args (s.setting c) s.stream
    .ok (s.effective c, outcome, { s with stream })

/-- Books a decision with its luck: in the instability, in the counters, and in the log of a
recording. -/
def book (s : Session) (d : Decision) (l : Luck) : Session :=
  { s with
    instability := s.instability.record l
    tally := s.tally.record l
    next := s.next + 1
    mode :=
      match s.mode with
      | .recording log => .recording (log.push d)
      | .live => .live
      | .replaying cursor => .replaying cursor }

def evaluate (s : Session) (c : Construct) (site : Site) (args : Args Binary64) :
    Except Fault (Outcome Binary64 × Session) := do
  args.check c
  -- Nothing is booked before this, so a call that fails here leaves the session as it was.
  let (probability, outcome, s) ← s.resolve c site args
  let d : Decision := ⟨UInt64.ofNat s.next, site, c, probability, outcome⟩
  return (outcome, s.book d (luck c args outcome s.profile))

/-- A call draws with odds that are off and have to be scaled. -/
def scalesOdds (s : Session) (args : Args Binary64) : Bool :=
  match args with
  | .binary (some odds) => !s.isReplaying && odds.isOff
  | _ => false

end Fickle.Session

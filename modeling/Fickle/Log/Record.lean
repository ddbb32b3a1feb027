import Fickle.Fault

/-! # The record of a decision

Thirty-four bytes:

- bytes 0 to 7: the sequence number
- bytes 8 to 15: the call site
- byte 16: the tag of the construct
- byte 17: the tag of the outcome
- bytes 18 to 25: the bits of the probability
- bytes 26 to 33: the payload of the outcome
-/

namespace Fickle.Log

/-- The byte that tells the forms of an outcome apart. -/
inductive OutcomeTag where
  | bool
  | int
  | float
  | ternary
  | count
  deriving DecidableEq

namespace OutcomeTag

def toByte : OutcomeTag → UInt8
  | bool => 0
  | int => 1
  | float => 2
  | ternary => 3
  | count => 4

def ofByte? (b : UInt8) : Option OutcomeTag :=
  [bool, int, float, ternary, count].find? fun t => t.toByte == b

def ofOutcome {α : Type} : Outcome α → OutcomeTag
  | .bool _ => bool
  | .int _ => int
  | .float _ => float
  | .ternary _ => ternary
  | .count _ => count

end OutcomeTag

/-- The payload of an outcome; a ternary one keeps its sign. -/
def payload : Outcome Binary64 → UInt64
  | .bool b => if b then 1 else 0
  | .int v => v.toUInt64
  | .float v => v.bits
  | .ternary v => v.toInt64.toUInt64
  | .count n => n

def outcomeOf (tag : OutcomeTag) (raw : UInt64) : Except Fault (Outcome Binary64) :=
  match tag with
  | .bool =>
    if raw = 0 then .ok (.bool false)
    else if raw = 1 then .ok (.bool true)
    else .error (.badLog (.boolPayload raw))
  | .int => .ok (.int raw.toInt64)
  | .float => .ok (.float ⟨raw⟩)
  | .ternary =>
    let v := raw.toInt64
    if -1 ≤ v ∧ v ≤ 1 then .ok (.ternary v.toInt8) else .error (.badLog (.ternaryPayload v))
  | .count => .ok (.count raw)

def recordSize : Nat := 34

def encodeDecision (d : Decision) : List UInt8 :=
  Bytes.ofWord d.seq ++ (Bytes.ofWord d.site.id ++ d.construct.tag
    :: (OutcomeTag.ofOutcome d.outcome).toByte
    :: (Bytes.ofWord d.probability.bits ++ Bytes.ofWord (payload d.outcome)))

/-- The decision at the front, and the bytes after it. -/
def decodeDecision (bs : List UInt8) : Except Fault (Decision × List UInt8) := do
  if (bs.take recordSize).length < recordSize then throw (.truncated recordSize bs.length)
  let seq := Bytes.toWord (bs.take 8)
  let site := Site.ofBytes ((bs.drop 8).take 8)
  let constructByte := bs.getD 16 0
  let some construct := Construct.ofTag? constructByte | throw (.unknownConstructTag constructByte)
  let tagByte := bs.getD 17 0
  let some tag := OutcomeTag.ofByte? tagByte | throw (.unknownOutcomeTag tagByte)
  let probability : Binary64 := ⟨Bytes.toWord ((bs.drop 18).take 8)⟩
  -- The bits of a number that is none fail here as well.
  if !Scalar.within 0.0 1.0 probability then throw (.badLog (.probability probability seq))
  let outcome ← outcomeOf tag (Bytes.toWord ((bs.drop 26).take 8))
  return (⟨seq, site, construct, probability, outcome⟩, bs.drop recordSize)

end Fickle.Log

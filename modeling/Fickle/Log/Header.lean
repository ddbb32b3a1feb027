import Fickle.Fault
import Fickle.Log.Flags

/-! # The header of a log

Twenty-four bytes, and then the name of the personality:

- bytes 0 to 3: `KNDA`
- byte 4: the version
- byte 5: the flags
- byte 6: the chaos level
- byte 7: the length of the name
- bytes 8 to 15: the seed
- bytes 16 to 23: the number of decisions
-/

namespace Fickle.Log

structure Header where
  version : UInt8
  flags : Flags
  chaos : ChaosLevel
  seed : UInt64
  /-- The number of records that follow. -/
  count : UInt64
  personality : String
  deriving DecidableEq

namespace Header

def fixedSize : Nat := 24

def magic : List UInt8 := [0x4B, 0x4E, 0x44, 0x41]

def currentVersion : UInt8 := 1

/-- The length of the longest name that a header can carry. -/
def maxNameLength : Nat := 255

def start (personality : String) (chaos : ChaosLevel) (seed : UInt64) : Header :=
  ⟨currentVersion, Flags.none, chaos, seed, 0, personality⟩

def encodedLength (h : Header) : Nat := fixedSize + h.personality.utf8ByteSize

def bytes (h : Header) : List UInt8 :=
  magic ++ h.version :: h.flags.bits :: h.chaos.val :: UInt8.ofNat h.personality.utf8ByteSize
    :: (Bytes.ofWord h.seed ++ (Bytes.ofWord h.count ++ Bytes.ofText h.personality))

def encode (h : Header) : Except Fault (List UInt8) :=
  if maxNameLength < h.personality.utf8ByteSize then .error (.badLog .nameTooLong)
  else .ok h.bytes

/-- The header at the front, and the bytes after it. -/
def decode (bs : List UInt8) : Except Fault (Header × List UInt8) := do
  if (bs.take fixedSize).length < fixedSize then throw (.truncated fixedSize bs.length)
  if bs.take 4 ≠ magic then throw (.badLog .badMagic)
  let version := bs.getD 4 0
  if version ≠ currentVersion then throw (.badLog (.unsupportedVersion version))
  let flags : Flags := ⟨bs.getD 5 0⟩
  if flags.hasUnknown then throw (.badLog (.unknownFlags flags.bits))
  let chaos ← ChaosLevel.ofNat (bs.getD 6 0)
  let nameLength := (bs.getD 7 0).toNat
  let seed := Bytes.toWord ((bs.drop 8).take 8)
  let count := Bytes.toWord ((bs.drop 16).take 8)
  let rest := bs.drop fixedSize
  let name := rest.take nameLength
  -- The name is the only field that may be cut off, since the others fit the fixed size.
  if name.length < nameLength then throw (.truncated (fixedSize + nameLength) (fixedSize + rest.length))
  match Bytes.toText? name with
  | none => throw (.badLog .nameNotText)
  | some personality =>
    return (⟨version, flags, chaos, seed, count, personality⟩, rest.drop nameLength)

end Header

end Fickle.Log

import Fickle.Log
import Fickle.Log.Header
import Fickle.Log.Record

/-! # Logs as bytes

The header, a record for each decision, and the first eight bytes of the digest of all that.
-/

namespace Fickle.Log

def digestSize : Nat := 8

def flags (l : Log) : Flags := (Flags.none.setAutoSeeded l.autoSeeded).setDrift l.hasDrift

def header (l : Log) : Header :=
  { Header.start l.personality l.chaos l.seed with
    flags := l.flags, count := UInt64.ofNat l.size }

def encodedLength (l : Log) : Nat := l.header.encodedLength + l.size * recordSize + digestSize

def encode (l : Log) : Except Fault (List UInt8) := do
  let header ← l.header.encode
  let body := header ++ l.decisions.toList.flatMap encodeDecision
  return body ++ Sha256.digest8 body

/-- Reads `n` records, whose sequence numbers have to grow. -/
def decodeRecords : Nat → Option UInt64 → List UInt8 → Except Fault (List Decision)
  | 0, _, _ => .ok []
  | n + 1, previous, bs => do
    let (d, rest) ← decodeDecision bs
    if previous.any fun p => d.seq ≤ p then throw (.badLog (.outOfOrder d.seq))
    let ds ← decodeRecords n (some d.seq) rest
    return d :: ds

def decode (bs : List UInt8) : Except Fault Log := do
  if bs.length < digestSize then throw (.truncated digestSize bs.length)
  let body := bs.take (bs.length - digestSize)
  let trailer := bs.drop (bs.length - digestSize)
  let (header, records) ← Header.decode body
  let count := header.count.toNat
  -- The length that the count announces has to fit a word.
  if 2 ^ 64 ≤ count * recordSize then throw (.badLog .countOverflow)
  if records.length ≠ count * recordSize then
    throw (.badLog (.countMismatch count records.length))
  if Sha256.digest8 body ≠ trailer then throw (.badLog .digestMismatch)
  let decisions ← decodeRecords count none records
  return ⟨header.seed, header.personality, header.chaos, header.flags.isAutoSeeded,
    decisions.toArray⟩

/-! ## Devices -/

/-- A place that bytes can be put: whether it takes them, and whether they settle. -/
structure Device where
  write : List UInt8 → Except String Unit
  flush : Except String Unit

def transfer {β : Type} (r : Except String β) : Except Fault β := r.mapError Fault.transfer

/-- Encodes the log, and only then touches the device. -/
def writeTo (l : Log) (d : Device) : Except Fault Unit := do
  let bytes ← l.encode
  transfer (d.write bytes)
  transfer d.flush

def readFrom (source : Except String (List UInt8)) : Except Fault Log := do
  decode (← transfer source)

end Fickle.Log

import Fickle.Binary64
import Fickle.Draws

/-! # The random stream

A stream is the key stream of the ChaCha cipher with twelve rounds, read as 32-bit words. A seed
of 64 bits is spread over the key by a linear congruential generator.
-/

namespace Fickle

/-- A place in the stream that a key gives. -/
structure Stream where
  key : Vector UInt32 8
  /-- The number of the next block. -/
  block : UInt64
  /-- The words of the block before that are still to be read. -/
  pending : List UInt32
  deriving DecidableEq

namespace Stream

@[inline]
def rotateLeft (x n : UInt32) : UInt32 := (x <<< n) ||| (x >>> (32 - n))

def rotateRight (x n : UInt32) : UInt32 := (x >>> n) ||| (x <<< ((32 - n) % 32))

/-! ## Seeds -/

/-- One step of the generator that spreads a seed over the key. -/
def spreadStep (s : UInt64) : UInt64 := s * 6364136223846793005 + 11634580027462260723

def spreadWord (s : UInt64) : UInt32 :=
  rotateRight (((s >>> 18) ^^^ s) >>> 27).toUInt32 (s >>> 59).toUInt32

def spread : Nat → UInt64 → List UInt32
  | 0, _ => []
  | n + 1, s => let s := spreadStep s; spreadWord s :: spread n s

def ofSeed (seed : UInt64) : Stream :=
  let words := (spread 8 seed).toArray
  ⟨Vector.ofFn fun i => words.getD i.val 0, 0, []⟩

/-- The seed of the sub-stream at `index`: sub-streams of one seed never share theirs. -/
def subseed (seed index : UInt64) : UInt64 :=
  let z := seed + (index + 1) * 0x9E3779B97F4A7C15
  let z := (z ^^^ (z >>> 30)) * 0xBF58476D1CE4E5B9
  let z := (z ^^^ (z >>> 27)) * 0x94D049BB133111EB
  z ^^^ (z >>> 31)

/-! ## Blocks -/

abbrev Block := Vector UInt32 16

def quarter (v : Block) (a b c d : Fin 16) : Block :=
  let xa := v[a] + v[b]
  let xd := rotateLeft (v[d] ^^^ xa) 16
  let xc := v[c] + xd
  let xb := rotateLeft (v[b] ^^^ xc) 12
  let xa := xa + xb
  let xd := rotateLeft (xd ^^^ xa) 8
  let xc := xc + xd
  let xb := rotateLeft (xb ^^^ xc) 7
  (((v.set a xa).set b xb).set c xc).set d xd

/-- A round on the columns and one on the diagonals. -/
def doubleRound (v : Block) : Block :=
  let v := quarter (quarter (quarter (quarter v 0 4 8 12) 1 5 9 13) 2 6 10 14) 3 7 11 15
  quarter (quarter (quarter (quarter v 0 5 10 15) 1 6 11 12) 2 7 8 13) 3 4 9 14

def blockInput (key : Vector UInt32 8) (n : UInt64) : Block :=
  #v[0x61707865, 0x3320646e, 0x79622d32, 0x6b206574,
     key[0], key[1], key[2], key[3], key[4], key[5], key[6], key[7],
     n.toUInt32, (n >>> 32).toUInt32, 0, 0]

def blockWords (key : Vector UInt32 8) (n : UInt64) : List UInt32 :=
  let start := blockInput key n
  -- Twelve rounds, two at a time.
  let mixed := (List.range 6).foldl (fun v _ => doubleRound v) start
  (Vector.zipWith (· + ·) mixed start).toList

/-! ## Words -/

def word32 (s : Stream) : UInt32 × Stream :=
  match s.pending with
  | w :: rest => (w, { s with pending := rest })
  | [] =>
    let words := blockWords s.key s.block
    (words.headD 0, { s with block := s.block + 1, pending := words.tail })

/-- Two words, the low one first. -/
def word64 (s : Stream) : UInt64 × Stream :=
  let (low, s) := s.word32
  let (high, s) := s.word32
  (high.toUInt64 <<< 32 ||| low.toUInt64, s)

/-! ## Draws -/

/-- The double `2 ^ -53`. -/
def unitStep : Binary64 := ⟨0x3CA0000000000000⟩

/-- A number in `[0, 1)` with 53 random bits. -/
def unit (s : Stream) : Binary64 × Stream :=
  let (w, s) := s.word64
  (Scalar.ofNat (w >>> 11).toNat * unitStep, s)

/-- A number below `range`, as the high half of a product. Words whose low half is past the last
whole multiple of `range` are passed over; the chance of that is below a half, and after the given
number of them the next word is taken as it is. -/
def below (range zone : UInt64) : Nat → Stream → UInt64 × Stream
  | 0, s =>
    let (w, s) := s.word64
    (UInt64.ofNat (w.toNat * range.toNat / 2 ^ 64), s)
  | n + 1, s =>
    let (w, s) := s.word64
    let product := w.toNat * range.toNat
    if product % 2 ^ 64 ≤ zone.toNat then (UInt64.ofNat (product / 2 ^ 64), s)
    else below range zone n s

def upTo (bound : Int64) (s : Stream) : Int64 × Stream :=
  let range := bound.toUInt64
  let zone := (range <<< (63 - range.log2)) - 1
  let (k, s) := below range zone 1024 s
  (1 + k.toInt64, s)

def coin (s : Stream) : Bool × Stream :=
  let (w, s) := s.word32
  (w >>> 31 == 1, s)

/-- True with probability `p`, which lies in `[0, 1]`. Certainty costs no draw. -/
def bernoulli (p : Binary64) (s : Stream) : Bool × Stream :=
  if p.toFloat == 1.0 then (true, s)
  else
    let (w, s) := s.word64
    (w < (p.toFloat * 18446744073709551616.0).toUInt64, s)

instance : Draws Stream Binary64 where
  unit := unit
  upTo := upTo
  coin := coin

end Stream

end Fickle

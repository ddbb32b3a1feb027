/-! # Numbers as bytes

Little-endian: the byte of least weight comes first.
-/

namespace Fickle.Bytes

/-- The `n` low bytes of a number, the lowest first. -/
def ofNat : Nat → Nat → List UInt8
  | 0, _ => []
  | n + 1, x => UInt8.ofNat x :: ofNat n (x / 256)

/-- The number whose bytes these are, the lowest first. -/
def toNat : List UInt8 → Nat
  | [] => 0
  | b :: bs => b.toNat + 256 * toNat bs

def ofWord (x : UInt64) : List UInt8 := ofNat 8 x.toNat

def toWord (bs : List UInt8) : UInt64 := UInt64.ofNat (toNat bs)

/-- The number in the first `n` bytes, and the bytes after them. -/
def takeNat (n : Nat) (bs : List UInt8) : Nat × List UInt8 :=
  (toNat (bs.take n), bs.drop n)

def ofText (s : String) : List UInt8 := s.toUTF8.data.toList

def toText? (bs : List UInt8) : Option String := String.fromUTF8? ⟨bs.toArray⟩

@[simp]
theorem length_ofNat (n x : Nat) : (ofNat n x).length = n := by
  induction n generalizing x with
  | zero => rfl
  | succ n ih => simp [ofNat, ih]

end Fickle.Bytes

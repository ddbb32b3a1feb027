import Fickle.Scalar

/-! # Durations

Whole nanoseconds, fewer than 2^64 seconds of them. Sums stop at the longest duration and
differences at zero.
-/

namespace Fickle

structure Duration where
  nanos : Nat
  lt_limit : nanos < 2 ^ 64 * 10 ^ 9 := by decide
  deriving DecidableEq

namespace Duration

def limit : Nat := 2 ^ 64 * 10 ^ 9

def zero : Duration := ⟨0, by decide⟩

instance : Inhabited Duration := ⟨zero⟩

/-- The duration of that many nanoseconds, or the longest one. -/
def ofNanos (n : Nat) : Duration :=
  ⟨min n (2 ^ 64 * 10 ^ 9 - 1), by omega⟩

def ofNanos? (n : Nat) : Option Duration :=
  if h : n < 2 ^ 64 * 10 ^ 9 then some ⟨n, h⟩ else none

def ofParts (secs : UInt64) (nanos : Nat) : Duration := ofNanos (secs.toNat * 10 ^ 9 + nanos)

def ofSecs (n : Nat) : Duration := ofNanos (n * 10 ^ 9)

def ofMillis (n : Nat) : Duration := ofNanos (n * 10 ^ 6)

def secs (d : Duration) : Nat := d.nanos / 10 ^ 9

/-- The nanoseconds beyond the whole seconds. -/
def subsec (d : Duration) : Nat := d.nanos % 10 ^ 9

def isZero (d : Duration) : Bool := d.nanos == 0

instance : LE Duration := ⟨fun a b => a.nanos ≤ b.nanos⟩
instance : LT Duration := ⟨fun a b => a.nanos < b.nanos⟩
instance : DecidableLE Duration := fun a b => inferInstanceAs (Decidable (a.nanos ≤ b.nanos))
instance : DecidableLT Duration := fun a b => inferInstanceAs (Decidable (a.nanos < b.nanos))

def add (a b : Duration) : Duration := ofNanos (a.nanos + b.nanos)

def sub (a b : Duration) : Duration := ⟨a.nanos - b.nanos, by have := a.lt_limit; omega⟩

def later (a b : Duration) : Duration := if b.nanos ≤ a.nanos then a else b

def inSeconds {α : Type} [Scalar α] (d : Duration) : α :=
  Scalar.ofNat d.secs + Scalar.ofNat d.subsec / 1e9

end Duration

end Fickle

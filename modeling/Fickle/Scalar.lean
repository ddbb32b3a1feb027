import Fickle.Power

/-! # The numbers of the model

Probabilities, spreads and drift are written once, over any type with the operations below. The
program runs them on `Binary64`; an exact type can be put in its place to reason about them.
-/

namespace Fickle

/-- A type of numbers. Comparisons may be partial: a double that is no number is comparable with
nothing, itself included. -/
class Scalar (α : Type) extends Add α, Sub α, Mul α, Div α, Neg α, OfScientific α, LE α, LT α where
  decLe : DecidableLE α
  decLt : DecidableLT α
  ofNat : Nat → α
  ofInt : Int → α
  /-- A number, and not an infinite one. -/
  isFinite : α → Bool
  abs : α → α
  sqrt : α → α
  exp : α → α
  log : α → α
  log1p : α → α
  /-- One half to the power `x`. -/
  halfPow : α → α
  /-- The nearest integer, a half going away from zero, brought into the 64-bit range. -/
  round : α → Int64
  /-- The integer part, brought into the 64-bit range. -/
  trunc : α → Int64
  /-- The least whole number that is not below, brought into the unsigned 64-bit range. -/
  ceil : α → UInt64

attribute [reducible, instance] Scalar.decLe Scalar.decLt

namespace Scalar

variable {α : Type} [Scalar α]

/-- The larger of two numbers. What is no number gives way to the other one. -/
def larger (x y : α) : α :=
  if x < y then y else if x ≤ x then x else y

/-- The smaller of two numbers. What is no number gives way to the other one. -/
def smaller (x y : α) : α :=
  if y < x then y else if x ≤ x then x else y

/-- Brings a number into `[lo, hi]`. What is no number stays as it is. -/
def clamp (lo hi x : α) : α :=
  if x < lo then lo else if hi < x then hi else x

/-- Whether a number lies in `[lo, hi]`; what is no number lies nowhere. -/
def within (lo hi x : α) : Bool :=
  decide (lo ≤ x ∧ x ≤ hi)

def isWidth (v : α) : Bool :=
  isFinite v && !decide (v < 0.0)

/-- The sum from left to right, starting at zero. -/
def sum (xs : List α) : α :=
  xs.foldl (· + ·) 0.0

end Scalar

end Fickle

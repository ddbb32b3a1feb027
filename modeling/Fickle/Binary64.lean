import Fickle.Scalar

/-! # Doubles

A double is kept as its sixty-four bits, so that two values without a number but with different
payloads stay different, and equality is equality of bits. Arithmetic goes through `Float`.
-/

namespace Fickle

structure Binary64 where
  bits : UInt64
  deriving DecidableEq, Inhabited

namespace Binary64

@[inline]
def ofFloat (x : Float) : Binary64 := ⟨x.toBits⟩

@[inline]
def toFloat (x : Binary64) : Float := Float.ofBits x.bits

/-- Equality as numbers: zero equals its negative, and what is no number equals nothing. -/
def sameNumber (x y : Binary64) : Bool := x.toFloat == y.toFloat

def isNaN (x : Binary64) : Bool := x.toFloat.isNaN

def isNegative (x : Binary64) : Bool := x.bits >>> 63 == 1

/-- The logarithm of `1 + x`. What the sum loses to rounding is added back, to first order; a sum
that is zero or infinite has lost nothing. -/
def log1p (x : Float) : Float :=
  let u := 1.0 + x
  if u == 1.0 then x
  else if u == 0.0 || u.isInf then u.log
  else u.log + (x - (u - 1.0)) / u

/-- The least whole number that is not below, brought into the unsigned 64-bit range: the integer
part, and one more where something is left. -/
def ceil (x : Float) : UInt64 :=
  let whole := x.toUInt64
  if whole.toFloat < x ∧ whole.toNat < UInt64.size - 1 then whole + 1 else whole

instance : Scalar Binary64 where
  add x y := ofFloat (x.toFloat + y.toFloat)
  sub x y := ofFloat (x.toFloat - y.toFloat)
  mul x y := ofFloat (x.toFloat * y.toFloat)
  div x y := ofFloat (x.toFloat / y.toFloat)
  neg x := ofFloat (-x.toFloat)
  ofScientific m s e := ofFloat (Float.ofScientific m s e)
  le x y := x.toFloat ≤ y.toFloat
  lt x y := x.toFloat < y.toFloat
  decLe x y := inferInstanceAs (Decidable (x.toFloat ≤ y.toFloat))
  decLt x y := inferInstanceAs (Decidable (x.toFloat < y.toFloat))
  ofNat n := ofFloat (Float.ofNat n)
  ofInt n := ofFloat (Float.ofInt n)
  isFinite x := x.toFloat.isFinite
  abs x := ofFloat x.toFloat.abs
  sqrt x := ofFloat x.toFloat.sqrt
  exp x := ofFloat x.toFloat.exp
  log x := ofFloat x.toFloat.log
  log1p x := ofFloat (log1p x.toFloat)
  halfPow x := ofFloat (Float.pow 0.5 x.toFloat)
  round x := x.toFloat.round.toInt64
  trunc x := x.toFloat.toModel.toInt64
  ceil x := ceil x.toFloat

end Binary64

end Fickle

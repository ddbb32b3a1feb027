import Fickle.Scalar

/-! # Random draws -/

namespace Fickle

/-- A source of random draws of numbers of type `α`. -/
class Draws (γ : Type) (α : outParam Type) where
  /-- A number in `[0, 1)`. -/
  unit : γ → α × γ
  /-- An integer from 1 to the bound, which is at least 1. -/
  upTo : Int64 → γ → Int64 × γ
  coin : γ → Bool × γ

namespace Draws

variable {α γ : Type} [Scalar α] [Draws γ α]

/-- A number in `[-1, 1)`. -/
def offset (g : γ) : α × γ :=
  let (u, g) := unit g
  (u * 2.0 - 1.0, g)

/-- An integer from `-radius` to `radius`, but not zero. -/
def nonzero (radius : Int64) (g : γ) : Int64 × γ :=
  let (size, g) := upTo (max radius 1) g
  let (positive, g) := coin g
  (if positive then size else -size, g)

end Draws

end Fickle

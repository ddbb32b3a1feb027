import Fickle.Scalar

/-! # The chaos level

From 1, calm, to 10. Other levels are refused, never clamped.
-/

namespace Fickle

structure ChaosLevel where
  val : UInt8
  one_le : 1 ≤ val := by decide
  le_ten : val ≤ 10 := by decide
  deriving DecidableEq

namespace ChaosLevel

def least : ChaosLevel := ⟨1, by decide, by decide⟩

def greatest : ChaosLevel := ⟨10, by decide, by decide⟩

instance : Inhabited ChaosLevel := ⟨⟨5, by decide, by decide⟩⟩

def ofNat? (level : UInt8) : Option ChaosLevel :=
  if h : 1 ≤ level ∧ level ≤ 10 then some ⟨level, h.1, h.2⟩ else none

def all : List ChaosLevel := (List.range 11).filterMap fun n => ofNat? (UInt8.ofNat n)

/-- Zero at level 1, one at level 10, and linear between. -/
def intensity {α : Type} [Scalar α] (c : ChaosLevel) : α :=
  Scalar.ofNat (c.val.toNat - 1) / 9.0

/-- How much spreads widen: once at level 1, twice at level 10. -/
def scale {α : Type} [Scalar α] (c : ChaosLevel) : α := 1.0 + c.intensity

def text (c : ChaosLevel) : String := toString c.val.toNat

end ChaosLevel

end Fickle

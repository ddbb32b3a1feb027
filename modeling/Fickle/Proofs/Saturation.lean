import Fickle.Clock

/-! # Numbers that stop at an end of their range

What a conversion or a sum that saturates comes to, as an integer without bounds.
-/

namespace Fickle

theorem toInt_ofIntClamp (x : Int) :
    (Int64.ofIntClamp x).toInt = max Int64.minValue.toInt (min Int64.maxValue.toInt x) := by
  have hends : Int64.minValue.toInt ≤ Int64.maxValue.toInt := by decide
  unfold Int64.ofIntClamp
  split
  · split
    · rw [Int64.toInt_ofIntLE]
      omega
    · omega
  · omega

theorem toNat_ofNatClamp (n : Nat) :
    (UInt64.ofNatClamp n).toNat = min (UInt64.size - 1) n := by
  unfold UInt64.ofNatClamp
  split
  · rw [UInt64.toNat_ofNatLT]
    omega
  · rw [UInt64.toNat_ofNatLT]
    omega

/-! ## Durations -/

namespace Duration

theorem le_iff {a b : Duration} : a ≤ b ↔ a.nanos ≤ b.nanos := Iff.rfl

@[simp]
theorem nanos_zero : zero.nanos = 0 := rfl

@[simp]
theorem nanos_sub (a b : Duration) : (a.sub b).nanos = a.nanos - b.nanos := rfl

@[simp]
theorem nanos_later (a b : Duration) : (a.later b).nanos = max a.nanos b.nanos := by
  unfold later
  split <;> omega

theorem le_add (a b : Duration) : a ≤ a.add b := by
  have hlimit := a.lt_limit
  show a.nanos ≤ min (a.nanos + b.nanos) (2 ^ 64 * 10 ^ 9 - 1)
  omega

theorem later_eq_left {a b : Duration} (h : b ≤ a) : a.later b = a := if_pos h

end Duration

/-! ## Clocks -/

namespace Clock

theorem now_le_advance (c : Clock) (step : Duration) : c.now ≤ (c.advance step).now :=
  c.now.le_add step

theorem now_le_syncTo (c : Clock) (target : Duration) : c.now ≤ (c.syncTo target).now := by
  unfold syncTo
  rw [Duration.le_iff, Duration.nanos_later]
  omega

end Clock

end Fickle

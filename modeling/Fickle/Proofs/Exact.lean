import Mathlib.Analysis.SpecialFunctions.Pow.Real
import Fickle.Profile

/-! # Exact arithmetic

The real numbers in the place of doubles. What the program computes with them is what it would
compute if nothing were rounded.
-/

namespace Fickle

noncomputable instance : Scalar ℝ where
  decLe := inferInstance
  decLt := inferInstance
  ofNat n := n
  ofInt n := n
  isFinite _ := true
  abs x := |x|
  sqrt := Real.sqrt
  exp := Real.exp
  log := Real.log
  log1p x := Real.log (1 + x)
  halfPow x := (1 / 2 : ℝ) ^ x
  round x := Int64.ofIntClamp (if 0 ≤ x then ⌊x + 1 / 2⌋ else ⌈x - 1 / 2⌉)
  trunc x := Int64.ofIntClamp (if 0 ≤ x then ⌊x⌋ else ⌈x⌉)
  ceil x := UInt64.ofNatClamp ⌈x⌉.toNat

namespace Exact

theorem zero_eq : (0.0 : ℝ) = 0 := by norm_num

theorem one_eq : (1.0 : ℝ) = 1 := by norm_num

theorem two_eq : (2.0 : ℝ) = 2 := by norm_num

theorem larger_eq (x y : ℝ) : Scalar.larger x y = max x y := by
  unfold Scalar.larger
  rw [if_pos le_rfl, max_def_lt]

theorem smaller_eq (x y : ℝ) : Scalar.smaller x y = min x y := by
  unfold Scalar.smaller
  rw [if_pos le_rfl, min_comm, min_def_lt]

theorem clamp_eq (x : ℝ) : Scalar.clamp 0.0 1.0 x = max 0 (min 1 x) := by
  unfold Scalar.clamp
  norm_num
  split
  · rw [max_eq_left]
    exact (min_le_right 1 x).trans (by linarith)
  · split
    · rw [min_eq_left (by linarith), max_eq_right zero_le_one]
    · rw [min_eq_right (by linarith), max_eq_right (by linarith)]

theorem within_iff {lo hi x : ℝ} : Scalar.within lo hi x = true ↔ lo ≤ x ∧ x ≤ hi :=
  decide_eq_true_iff

theorem isWidth_iff {x : ℝ} : Scalar.isWidth x = true ↔ 0 ≤ x := by
  show (true && !decide (x < 0.0)) = true ↔ 0 ≤ x
  norm_num

theorem le_ofScientific {n k : ℕ} (h : n ≤ k) :
    (n : ℝ) ≤ OfScientific.ofScientific k false 0 := by
  have hwhole : (OfScientific.ofScientific k false 0 : ℝ) = k := by
    show ((Rat.ofScientific k false 0 : ℚ) : ℝ) = k
    rw [Rat.ofScientific_false_def]
    norm_num
  rw [hwhole]
  exact_mod_cast h

theorem five_le_maxVariance : (5 : ℕ) ≤ (maxVariance : ℝ) := by
  unfold maxVariance
  exact le_ofScientific (by decide +kernel)

theorem intensity_eq (level : ChaosLevel) :
    (level.intensity : ℝ) = ((level.val.toNat - 1 : ℕ) : ℝ) / 9 := by
  unfold ChaosLevel.intensity
  norm_num
  rfl

theorem intensity_mem (level : ChaosLevel) :
    0 ≤ (level.intensity : ℝ) ∧ (level.intensity : ℝ) ≤ 1 := by
  have hten : level.val.toNat ≤ 10 := UInt8.le_iff_toNat_le.mp level.le_ten
  have hnine : ((level.val.toNat - 1 : ℕ) : ℝ) ≤ 9 := by exact_mod_cast (by omega)
  rw [intensity_eq]
  exact ⟨by positivity, by linarith⟩

/-- Full chaos never makes a construct certain, and never impossible. -/
theorem extreme_mem (c : Construct) :
    0 < (Table.extreme c : ℝ) ∧ (Table.extreme c : ℝ) ≤ Table.reliable c ∧
      (Table.reliable c : ℝ) < 1 := by
  cases c <;> norm_num [Table.extreme, Table.reliable, Construct.target, Construct.behaviour,
    Behaviour.target, ChaosTarget.probability]

end Exact

end Fickle

import Fickle.Binary64

/-! # Doubles as the numbers that they stand for -/

open Float.Model Float.Model.UnpackedFloat

namespace Fickle.Binary64

/-! ## Order -/

theorem le_iff (x y : Binary64) :
    x ≤ y ↔ x.toFloat.toModel.unpack.le y.toFloat.toModel.unpack = true := by
  show decide (x.toFloat.toModel ≤ y.toFloat.toModel) = true ↔ _
  rw [decide_eq_true_iff]
  rfl

theorem lt_iff (x y : Binary64) :
    x < y ↔ x.toFloat.toModel.unpack.lt y.toFloat.toModel.unpack = true := by
  show decide (x.toFloat.toModel < y.toFloat.toModel) = true ↔ _
  rw [decide_eq_true_iff]
  rfl

protected theorem le_of_lt {x y : Binary64} (h : x < y) : x ≤ y := by
  rw [lt_iff] at h
  rw [le_iff]
  unfold Float.Model.UnpackedFloat.lt at h
  unfold Float.Model.UnpackedFloat.le
  rw [beq_iff_eq.mp h]
  rfl

theorem compare_swap (u v : UnpackedFloat) : v.compare u = (u.compare v).map Ordering.swap := by
  cases u with
  | notANumber => cases v <;> rfl
  | infinity s =>
    cases v with
    | notANumber => cases s <;> rfl
    | infinity s' => cases s <;> cases s' <;> rfl
    | zero s' => cases s <;> rfl
    | finite s' m' e' hm' => cases s <;> cases s' <;> rfl
  | zero s =>
    cases v with
    | notANumber => rfl
    | infinity s' => cases s' <;> rfl
    | zero s' => rfl
    | finite s' m' e' hm' => cases s' <;> rfl
  | finite s m e hm =>
    cases v with
    | notANumber => cases s <;> rfl
    | infinity s' => cases s <;> cases s' <;> rfl
    | zero s' => cases s <;> rfl
    | finite s' m' e' hm' =>
      have hswap : (compare e' e).then (compare m' m) =
          ((compare e e').then (compare m m')).swap := by
        rw [Ordering.swap_then, Int.compare_swap, Nat.compare_swap]
      cases s <;> cases s'
      · exact congrArg (fun o => some o.swap) hswap
      · rfl
      · rfl
      · exact congrArg some hswap

theorem isSome_compare (u v : UnpackedFloat) (hu : u.isNaN = false) (hv : v.isNaN = false) :
    (u.compare v).isSome = true := by
  cases u with
  | notANumber => cases hu
  | infinity s =>
    cases v with
    | notANumber => cases hv
    | infinity s' => rfl
    | zero s' => cases s <;> rfl
    | finite s' m' e' hm' => cases s <;> rfl
  | zero s =>
    cases v with
    | notANumber => cases hv
    | infinity s' => cases s' <;> rfl
    | zero s' => rfl
    | finite s' m' e' hm' => cases s' <;> rfl
  | finite s m e hm =>
    cases v with
    | notANumber => cases hv
    | infinity s' => cases s' <;> rfl
    | zero s' => cases s <;> rfl
    | finite s' m' e' hm' => cases s <;> cases s' <;> rfl

theorem le_of_not_lt {x y : Binary64} (hx : x.isNaN = false) (hy : y.isNaN = false)
    (h : ¬ x < y) : y ≤ x := by
  rw [lt_iff] at h
  rw [le_iff]
  have hsome := isSome_compare _ _ hx hy
  unfold UnpackedFloat.lt at h
  unfold UnpackedFloat.le
  rw [compare_swap]
  rcases hc : x.toFloat.toModel.unpack.compare y.toFloat.toModel.unpack with _ | o
  · rw [hc] at hsome
    cases hsome
  · rw [hc] at h
    cases o
    · exact absurd rfl h
    · rfl
    · rfl

theorem isNaN_eq_false_of_le {x y : Binary64} (h : x ≤ y) : x.isNaN = false := by
  rw [le_iff] at h
  show x.toFloat.toModel.unpack.isNaN = false
  cases hx : x.toFloat.toModel.unpack with
  | notANumber =>
    rw [hx] at h
    cases h
  | infinity s => rfl
  | zero s => rfl
  | finite s m e hm => rfl

theorem isNaN_eq_false_of_within {lo hi x : Binary64} (h : Scalar.within lo hi x = true) :
    x.isNaN = false := by
  unfold Scalar.within at h
  exact isNaN_eq_false_of_le (of_decide_eq_true h).2

theorem within_clamp {lo hi x : Binary64} (hlo : lo ≤ lo) (hhi : hi ≤ hi) (hle : lo ≤ hi)
    (hx : x.isNaN = false) : Scalar.within lo hi (Scalar.clamp lo hi x) = true := by
  unfold Scalar.within Scalar.clamp
  rw [decide_eq_true_iff]
  by_cases hbelow : x < lo
  · rw [if_pos hbelow]
    exact ⟨hlo, hle⟩
  rw [if_neg hbelow]
  by_cases habove : hi < x
  · rw [if_pos habove]
    exact ⟨hle, hhi⟩
  rw [if_neg habove]
  exact ⟨le_of_not_lt hx (isNaN_eq_false_of_le hlo) hbelow,
    le_of_not_lt (isNaN_eq_false_of_le hhi) hx habove⟩

end Fickle.Binary64

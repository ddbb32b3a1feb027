import Fickle.Proofs.Rate.Centre
import Fickle.Proofs.Rate.Tail

/-! # The approximation of the quantile

In exact arithmetic. The approximation of the distribution function takes it back to the probability
that it was made from, up to the error that is documented of the former.
-/

namespace Fickle.Normal

variable {p x : ℝ}

theorem quantile_of_central (h0 : 1 / 2 ≤ p) (h1 : p ≤ 1 - 0.02425) :
    quantile p = Centre.value (p - 1 / 2) := by
  have hlow : ¬ p < 0.02425 := by
    norm_num
    linarith
  have hhalf : p - 0.5 = p - 1 / 2 := by norm_num
  unfold quantile
  simp only [Exact.one_eq, if_neg hlow, if_pos h1, hhalf, polynomial, List.foldl_cons, List.foldl_nil,
    Centre.value, Centre.num, Centre.den, Coeffs.eval_cons, Coeffs.eval_nil]
  push_cast
  rw [← mul_div_mul_left _ _ (by norm_num : (1e15 : ℝ) ≠ 0)]
  congr 1
  · ring
  · ring

theorem quantile_of_tail (h0 : 1 - 0.02425 < p) (h1 : p < 1) :
    quantile p = Tail.value √(-2 * Real.log (1 - p)) := by
  have hlow : ¬ p < 0.02425 := by
    norm_num at h0 ⊢
    linarith
  unfold quantile
  simp only [Exact.one_eq, if_neg hlow, if_neg (not_le.mpr h0), tailQuantile, polynomial,
    List.foldl_cons, List.foldl_nil, Exact.two_eq]
  have hsqrt (x : ℝ) : Scalar.sqrt x = √x := rfl
  have hlog (x : ℝ) : Scalar.log x = Real.log x := rfl
  rw [hsqrt, hlog]
  generalize √(-2 * Real.log (1 - p)) = u
  simp only [Tail.value, Tail.num, Tail.den, Coeffs.eval_cons, Coeffs.eval_nil]
  push_cast
  rw [← mul_div_mul_left _ _ (by norm_num : (1e18 : ℝ) ≠ 0)]
  congr 1
  · ring
  · ring

theorem quantile_mem (h0 : 1 / 2 ≤ p) (h1 : p < 1) :
    0 ≤ quantile p ∧ |share coarse (quantile p) - (2 * p - 1)| ≤ 2.9e-7 := by
  rcases le_or_gt p (1 - 0.02425) with hcentral | htail
  · have hq0 : 0 ≤ p - 1 / 2 := by linarith
    have hq1 : p - 1 / 2 ≤ 19031 / 40000 := by
      norm_num at hcentral
      linarith
    have hshare := Centre.abs_share_coarse_value_sub_le hq0 hq1
    rw [mul_sub, mul_one_div_cancel two_ne_zero] at hshare
    rw [quantile_of_central h0 hcentral]
    exact ⟨(Centre.value_mem hq0 hq1).1, hshare⟩
  · have hleft : 1 - p ≤ 0.0245 := by
      norm_num at htail ⊢
      linarith
    obtain ⟨hu, hexp⟩ := Tail.root_mem (y := 1 - p) (by linarith) hleft
    have hshare := Tail.abs_share_coarse_value_sub_le hu
    have hsame : 1 - 2 * (1 - p) = 2 * p - 1 := by ring
    rw [hexp, hsame] at hshare
    rw [quantile_of_tail htail h1]
    exact ⟨zero_le_one.trans (Tail.one_le_value hu), hshare⟩

/-! ## Below a half -/

theorem quantile_one_sub (p : ℝ) : quantile (1 - p) = -quantile p := by
  unfold quantile
  simp only [Exact.one_eq, sub_sub_cancel]
  rcases lt_or_ge p 0.02425 with hlow | hlow
  · rw [if_neg (by norm_num at hlow ⊢; linarith), if_neg (by norm_num at hlow ⊢; linarith),
      if_pos hlow, neg_div]
  rcases le_or_gt p (1 - 0.02425) with hhigh | hhigh
  · -- Both in the middle, which is odd about a half.
    rw [if_neg (by linarith), if_pos (by linarith), if_neg (by linarith), if_pos hhigh]
    have hodd : 1 - p - 0.5 = -(p - 0.5) := by
      norm_num
      ring
    rw [hodd, neg_mul_neg, mul_neg, neg_div]
  · rw [if_pos (by linarith), if_neg (by norm_num at hhigh ⊢; linarith), if_neg (by linarith),
      neg_div, neg_neg]

theorem cdf_neg (hx : 0 < x) : cdf (-x) = 1 - cdf x := by
  have habs : Scalar.abs (-x) = Scalar.abs x := abs_neg x
  unfold cdf
  dsimp only
  rw [Exact.zero_eq, if_pos (neg_lt_zero.mpr hx), if_neg hx.le.not_gt, habs, Exact.one_eq]
  norm_num
  ring

theorem share_coarse_zero : share coarse 0 = 1e-9 := by
  simp only [share, beyond, nearness, coarse, Coeffs.eval_cons, Coeffs.eval_nil]
  norm_num

/-- The distribution function takes the quantile back. -/
theorem abs_cdf_quantile_sub_le (h0 : 0 < p) (h1 : p < 1) : |cdf (quantile p) - p| ≤ 1.5e-7 := by
  rcases le_or_gt (1 / 2) p with hhalf | hhalf
  · obtain ⟨hq, hshare⟩ := quantile_mem hhalf h1
    rw [← cdf_eq hq] at hshare
    obtain ⟨hlow, hhigh⟩ := abs_le.mp hshare
    exact abs_le.mpr ⟨by linarith, by linarith⟩
  have hmirror : quantile p = -quantile (1 - p) := by rw [quantile_one_sub, neg_neg]
  obtain ⟨hq, hshare⟩ := quantile_mem (p := 1 - p) (by linarith) (by linarith)
  rw [← cdf_eq hq] at hshare
  rw [hmirror]
  rcases hq.eq_or_lt with hzero | hpos
  · -- At zero itself the coefficients leave a little over a half.
    have hstart := cdf_eq le_rfl
    rw [share_coarse_zero] at hstart
    rw [← hzero] at hshare ⊢
    obtain ⟨hlow, hhigh⟩ := abs_le.mp hshare
    rw [neg_zero]
    exact abs_le.mpr ⟨by linarith, by linarith⟩
  · obtain ⟨hlow, hhigh⟩ := abs_le.mp hshare
    rw [cdf_neg hpos]
    exact abs_le.mpr ⟨by linarith, by linarith⟩

end Fickle.Normal

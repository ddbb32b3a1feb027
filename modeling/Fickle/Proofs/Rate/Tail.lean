import Fickle.Proofs.Rate.Branch

/-! # The quantile in a tail

In exact arithmetic, as a function of the `u` for which `exp (- u ^ 2 / 2)` is left on one side. Put
into the approximation of the distribution function it gives back what is not left on either side.
-/

namespace Fickle.Normal.Tail

/-- The coefficients of the program in units of `1e-18`, and so is the divisor. -/
def num : Coeffs :=
  [-2938163982698783000, -4374664141464968000, 2549732539343734000, 2400758277161838000,
    322396458041136500, 7784894002430293]

def den : Coeffs :=
  [1000000000000000000, 3754408661907416000, 2445134137142996000, 322467129070039800,
    7784695709041462]

def branch : Branch where
  growth := Coeffs.scale 2 num
  slope := Coeffs.sub (Coeffs.mul (Coeffs.derivative num) den)
    (Coeffs.mul num (Coeffs.derivative den))
  bottom := den
  weight := [0, 1]
  drift := [0, 1]

noncomputable def value (u : ℝ) : ℝ := Coeffs.eval num u / Coeffs.eval den u

noncomputable def square (u : ℝ) : ℝ := value u * value u

theorem signs :
    Coeffs.isNonneg (Coeffs.sub branch.slope [1]) 100 272 600 = true ∧
      Coeffs.isNonneg (Coeffs.sub den [1]) 100 272 600 = true ∧
      Coeffs.isNonneg num 100 272 600 = true ∧
      Coeffs.isNonneg (Coeffs.sub (Coeffs.scale 113 den) (Coeffs.scale 20 num)) 100 272 600 =
        true := by
  decide +kernel

theorem eval_slope (u : ℝ) : Coeffs.eval branch.slope u =
    Coeffs.eval (Coeffs.derivative num) u * Coeffs.eval den u -
      Coeffs.eval num u * Coeffs.eval (Coeffs.derivative den) u := by
  simp only [branch, Coeffs.eval_sub, Coeffs.eval_mul]

section

variable {u : ℝ} (h0 : 272 / 100 ≤ u) (h1 : u ≤ 6)

include h0 h1

theorem slope_pos : 0 < Coeffs.eval branch.slope u :=
  Coeffs.eval_pos (by norm_num) signs.1 (by simpa using h0) (by norm_num; exact h1)

theorem den_pos : 0 < Coeffs.eval den u :=
  Coeffs.eval_pos (by norm_num) signs.2.1 (by simpa using h0) (by norm_num; exact h1)

theorem value_mem : 0 ≤ value u ∧ value u ≤ 5.65 := by
  have hpos := den_pos h0 h1
  have hnum := Coeffs.eval_nonneg (by norm_num) signs.2.2.1 (x := u) (by simpa using h0)
    (by norm_num; exact h1)
  have hle := Coeffs.eval_nonneg (by norm_num) signs.2.2.2 (x := u) (by simpa using h0)
    (by norm_num; exact h1)
  simp only [Coeffs.eval_sub, Coeffs.eval_scale] at hle
  push_cast at hle
  refine ⟨div_nonneg hnum hpos.le, ?_⟩
  unfold value
  rw [div_le_iff₀ hpos]
  linarith

theorem hasDerivAt_value : HasDerivAt value
    (Coeffs.eval branch.slope u / (Coeffs.eval den u * Coeffs.eval den u)) u := by
  have hvalue := (Coeffs.hasDerivAt_eval num u).div (Coeffs.hasDerivAt_eval den u)
    (den_pos h0 h1).ne'
  refine HasDerivAt.congr_deriv hvalue ?_
  rw [eval_slope, sq]

end

theorem hasDerivAt_half_square (u : ℝ) : HasDerivAt (fun u : ℝ => u * u / 2) u u := by
  have hsquare := ((hasDerivAt_id' u).mul (hasDerivAt_id' u)).div_const 2
  refine HasDerivAt.congr_deriv hsquare ?_
  ring

theorem fits : branch.Fits square (fun u => u * u / (2 : ℕ)) (272 / 100) 6 where
  slope_pos _ := slope_pos
  bottom_pos _ := den_pos
  weight_pos u h0 _ := by
    simp only [branch, Coeffs.eval_cons, Coeffs.eval_nil]
    push_cast
    linarith
  square u h0 h1 := by
    have hpos := den_pos h0 h1
    have hvalue := hasDerivAt_value h0 h1
    refine HasDerivAt.congr_deriv (hvalue.mul hvalue) ?_
    simp only [branch, value, Coeffs.eval_scale]
    push_cast
    field_simp
    ring
  drift u _ _ := by simpa [branch] using hasDerivAt_half_square u

/-! ## How close it comes -/

theorem flat_stretches : branch.isFlat 100 272 300 121 = true ∧
    branch.isFlat 100 300 400 13 = true ∧ branch.isFlat 100 400 600 6 = true := by
  decide +kernel

noncomputable def lag : ℝ → ℝ := branch.lag square fun u => u * u / (2 : ℕ)

variable {u : ℝ}

theorem abs_lag_sub_le (h0 : 272 / 100 ≤ u) (h1 : u ≤ 6) :
    |lag u - lag (272 / 100)| ≤ 6e-7 := by
  obtain ⟨hfirst, hsecond, hthird⟩ := flat_stretches
  -- Three stretches, one after another, each flatter than the one before.
  have hfirst {x : ℝ} (h0 : 272 / 100 ≤ x) (h1 : x ≤ 3) :
      |lag x - lag (272 / 100)| ≤ 121 / 10 ^ 8 * (x - 272 / 100) :=
    fits.abs_lag_sub_le (by norm_num) hfirst (by norm_num) (by norm_num) (by simpa using h0)
      (by norm_num; exact h1)
  have hsecond {x : ℝ} (h0 : 3 ≤ x) (h1 : x ≤ 4) : |lag x - lag 3| ≤ 13 / 10 ^ 8 * (x - 3) := by
    have hstep := fits.abs_lag_sub_le (by norm_num) hsecond (x := x)
    norm_num at hstep ⊢
    exact hstep h0 h1
  have hthird {x : ℝ} (h0 : 4 ≤ x) (h1 : x ≤ 6) : |lag x - lag 4| ≤ 6 / 10 ^ 8 * (x - 4) := by
    have hstep := fits.abs_lag_sub_le (by norm_num) hthird (x := x)
    norm_num at hstep ⊢
    exact hstep h0 h1
  -- What the stretches in front contribute is the lag where this one begins.
  rcases le_total u 3 with h3 | h3
  · linarith [hfirst h0 h3]
  have hturn := hfirst (x := 3) (by norm_num) le_rfl
  rcases le_total u 4 with h4 | h4
  · have hsum := abs_sub_le (lag u) (lag 3) (lag (272 / 100))
    linarith [hsecond h3 h4]
  · have hturn' := hsecond (x := 4) (by norm_num) le_rfl
    have hsum := abs_sub_le (lag u) (lag 4) (lag (272 / 100))
    have hsum' := abs_sub_le (lag 4) (lag 3) (lag (272 / 100))
    linarith [hthird h4 h1]

/-- The quotient of the exponentials of the two densities where the tail begins. -/
theorem exp_begin_mem :
    Real.exp (272 / 100 * (272 / 100) / 2 + -(square (272 / 100) / (root * root))) ∈
      Set.Icc 5.8697704 5.8697706 := by
  set x := 272 / 100 * (272 / 100) / 2 + -(square (272 / 100) / (root * root)) with hx
  -- The series is good for exponents up to one, so it gives the root, which is squared.
  have hmem : 0.884907765 ≤ x / 2 ∧ x / 2 ≤ 0.88490777 := by
    simp only [hx, square, value, num, den, root, Coeffs.eval_cons, Coeffs.eval_nil]
    norm_num
  have hlow := Real.sum_le_exp_of_nonneg (x := 0.884907765) (by norm_num) 16
  have hhigh := Real.exp_bound' (x := 0.88490777) (by norm_num) (by norm_num) (n := 16) (by norm_num)
  simp only [Finset.sum_range_succ, Finset.sum_range_zero, Nat.factorial] at hlow hhigh
  have hlow : 2.42276091 ≤ Real.exp (x / 2) := by
    refine le_trans ?_ (hlow.trans (Real.exp_le_exp.mpr hmem.1))
    norm_num
  have hhigh : Real.exp (x / 2) ≤ 2.42276094 := by
    refine le_trans ((Real.exp_le_exp.mpr hmem.2).trans hhigh) ?_
    norm_num
  have hdouble : Real.exp x = Real.exp (x / 2) * Real.exp (x / 2) := by
    rw [← Real.exp_add, add_halves]
  rw [hdouble]
  constructor
  · calc (5.8697704 : ℝ) ≤ 2.42276091 * 2.42276091 := by norm_num
      _ ≤ Real.exp (x / 2) * Real.exp (x / 2) := by gcongr
  · calc Real.exp (x / 2) * Real.exp (x / 2) ≤ 2.42276094 * 2.42276094 := by gcongr
      _ ≤ 5.8697706 := by norm_num

theorem lag_begin : |peak * Real.exp (lag (272 / 100)) / (root + root) - 1| ≤ 1.3e-7 := by
  obtain ⟨hlow, hhigh⟩ := exp_begin_mem
  rw [lag, fits.exp_lag le_rfl (by norm_num), Nat.cast_ofNat, mul_assoc _ (Real.exp _), ← Real.exp_add]
  generalize Real.exp (272 / 100 * (272 / 100) / 2 + -(square (272 / 100) / (root * root))) = y at *
  simp only [branch, num, den, Coeffs.derivative, Coeffs.add, Coeffs.eval_sub, Coeffs.eval_mul,
    Coeffs.eval_cons, Coeffs.eval_nil, peak, root]
  rw [abs_le]
  norm_num
  constructor
  · linarith
  · linarith

theorem abs_density_sub_le (h0 : 272 / 100 ≤ u) (h1 : u ≤ 6) {g : ℝ} (hg : |g - peak| ≤ 6e-9) :
    |g * Real.exp (-(value u / root * (value u / root))) / root *
        (Coeffs.eval branch.slope u / (Coeffs.eval den u * Coeffs.eval den u)) -
          2 * (u * Real.exp (-(u * u / 2)))| ≤
      7.4e-7 * (2 * (u * Real.exp (-(u * u / 2)))) := by
  -- The quotient of the two densities is the exponential of the lag.
  have hquotient := abs_mul_exp_sub_one_le hg lag_begin (by norm_num) (abs_lag_sub_le h0 h1)
    (by norm_num)
  have hweight : Coeffs.eval branch.weight u = u := by simp [branch]
  rw [lag, fits.exp_lag h0 h1, hweight, Nat.cast_ofNat] at hquotient
  have hroot := root_pos
  have hu : 0 < u := by linarith
  have hsame : g * Real.exp (-(value u / root * (value u / root))) / root *
        (Coeffs.eval branch.slope u / (Coeffs.eval den u * Coeffs.eval den u)) -
          2 * (u * Real.exp (-(u * u / 2))) =
      (g * (Coeffs.eval branch.slope u / (Coeffs.eval branch.bottom u * Coeffs.eval branch.bottom u) /
        u * Real.exp (u * u / 2) * Real.exp (-(square u / (root * root)))) / (root + root) - 1) *
          (2 * (u * Real.exp (-(u * u / 2)))) := by
    have hbottom : branch.bottom = den := rfl
    rw [div_mul_div_comm (value u), hbottom, Real.exp_neg (u * u / 2), ← square]
    have hexp := Real.exp_pos (u * u / 2)
    field_simp
    ring
  have hpos : 0 < 2 * (u * Real.exp (-(u * u / 2))) := by positivity
  rw [hsame, abs_mul, abs_of_pos hpos]
  gcongr
  norm_num at hquotient ⊢
  linarith

theorem exp_neg_begin_le : Real.exp (-(272 / 100 * (272 / 100) / 2)) ≤ 1 / 20 := by
  have hsum := Real.sum_le_exp_of_nonneg (x := 272 / 100 * (272 / 100) / 2) (by norm_num) 8
  simp only [Finset.sum_range_succ, Finset.sum_range_zero, Nat.factorial] at hsum
  norm_num at hsum
  rw [Real.exp_neg, inv_le_comm₀ (Real.exp_pos _) (by norm_num)]
  norm_num
  linarith

theorem abs_error_begin : |share close (value (272 / 100)) -
    (1 - 2 * Real.exp (-(272 / 100 * (272 / 100) / 2)))| ≤ 5e-9 := by
  obtain ⟨hlow, hhigh⟩ := exp_begin_mem
  have hle := exp_neg_begin_le
  set w := value (272 / 100) / root with hw
  set y := Real.exp (-(272 / 100 * (272 / 100) / 2)) with hy
  set e := Real.exp (272 / 100 * (272 / 100) / 2 + -(square (272 / 100) / (root * root)))
  set t := 1e-11 * Coeffs.eval (0 :: close) (nearness w) with ht
  -- Both shares leave out a multiple of `y`, and the two factors are nearly the same.
  have hexp : Real.exp (-(w * w)) = e * y := by
    rw [hy, ← Real.exp_add, hw, square, div_mul_div_comm]
    ring_nf
  have hvalue : 0.34072882 ≤ t ∧ t ≤ 0.34072883 := by
    simp only [ht, hw, nearness, curb, value, num, den, root, close, Coeffs.eval_cons,
      Coeffs.eval_nil]
    norm_num
  have hproduct : |2 - t * e| ≤ 1e-7 := by
    have hupper : t * e ≤ 0.34072883 * 5.8697706 := by
      gcongr
      exact hvalue.2
    have hlower : 0.34072882 * 5.8697704 ≤ t * e := by
      gcongr
      · linarith
      · exact hvalue.1
    rw [abs_le]
    norm_num at hupper hlower ⊢
    constructor
    · linarith
    · linarith
  have hsame : share close (value (272 / 100)) - (1 - 2 * y) = (2 - t * e) * y := by
    unfold share beyond
    rw [← hw, hexp, ht]
    ring
  have hpos : 0 < y := Real.exp_pos _
  rw [hsame, abs_mul, abs_of_pos hpos]
  calc |2 - t * e| * y ≤ 1e-7 * (1 / 20) := by gcongr
    _ = 5e-9 := by norm_num

theorem abs_share_value_sub_le (h0 : 272 / 100 ≤ u) (h1 : u ≤ 6) :
    |share close (value u) - (1 - 2 * Real.exp (-(u * u / 2)))| ≤ 8e-8 := by
  have hmem (x : ℝ) (hx : x ∈ Set.Icc (272 / 100) u) : 272 / 100 ≤ x ∧ x ≤ 6 :=
    ⟨hx.1, hx.2.trans h1⟩
  have hc (x : ℝ) : HasDerivAt (fun u : ℝ => 1 - 2 * Real.exp (-(u * u / 2)))
      (2 * (x * Real.exp (-(x * x / 2)))) x := by
    refine HasDerivAt.congr_deriv (((hasDerivAt_half_square x).fun_neg.exp.const_mul 2).const_sub 1) ?_
    ring
  -- The error where the tail begins, and what the densities add to it from there on.
  have herror := abs_error_le h0 (fun x hx => hasDerivAt_value (hmem x hx).1 (hmem x hx).2) hc
    (fun x hx => (value_mem (hmem x hx).1 (hmem x hx).2).1)
    (fun x hx => nearness_of_le (value_mem (hmem x hx).1 (hmem x hx).2).1
      (value_mem (hmem x hx).1 (hmem x hx).2).2)
    (fun x hx g hg => abs_density_sub_le (hmem x hx).1 (hmem x hx).2 hg)
  have hbegin := abs_error_begin
  have hle := exp_neg_begin_le
  have hpos := Real.exp_pos (-(u * u / 2))
  norm_num at herror hbegin hle ⊢
  linarith

/-! ## Far out -/

theorem value_ge (h : 6 ≤ u) : 5.49 ≤ value u := by
  have hu : 0 ≤ u - 6 := by linarith
  have hgap := Coeffs.eval_nonneg_of_coeffs (x := u - 6)
    (p := Coeffs.shift 6 (Coeffs.sub (Coeffs.scale 100 num) (Coeffs.scale 549 den))) (by decide) hu
  have hden := Coeffs.eval_nonneg_of_coeffs (x := u) (p := Coeffs.sub den [1]) (by decide)
    (by linarith)
  rw [Coeffs.eval_shift] at hgap
  simp only [Coeffs.eval_sub, Coeffs.eval_cons, Coeffs.eval_nil] at hden
  simp only [Coeffs.eval_sub, Coeffs.eval_scale] at hgap
  push_cast at hgap hden
  rw [sub_add_cancel] at hgap
  unfold value
  rw [le_div_iff₀ (by linarith)]
  linarith

theorem den_ge (h0 : 272 / 100 ≤ u) : 1e19 ≤ Coeffs.eval den u := by
  have hshift := Coeffs.eval_nonneg_of_coeffs (x := u - 2)
    (p := Coeffs.shift 2 (Coeffs.sub den [10 ^ 19])) (by decide) (by linarith)
  rw [Coeffs.eval_shift, Int.cast_ofNat, sub_add_cancel, Coeffs.eval_sub] at hshift
  simp only [Coeffs.eval_cons, Coeffs.eval_nil] at hshift
  norm_num at hshift ⊢
  exact hshift

theorem value_le (h0 : 272 / 100 ≤ u) (h1 : u ≤ 9) : value u ≤ 10 := by
  have hsign := Coeffs.eval_nonneg (p := Coeffs.sub (Coeffs.scale 10 den) num) (n := 100)
    (a := 272) (b := 900) (x := u) (by norm_num) (by decide +kernel) (by simpa using h0)
    (by norm_num; exact h1)
  have hden := den_ge h0
  rw [Coeffs.eval_sub, Coeffs.eval_scale] at hsign
  push_cast at hsign
  norm_num at hden
  unfold value
  rw [div_le_iff₀ (by linarith)]
  linarith

theorem one_le_value (h0 : 272 / 100 ≤ u) : 1 ≤ value u := by
  have hshift := Coeffs.eval_nonneg_of_coeffs (x := u - 2)
    (p := Coeffs.shift 2 (Coeffs.sub num den)) (by decide) (by linarith)
  rw [Coeffs.eval_shift, Int.cast_ofNat, sub_add_cancel, Coeffs.eval_sub] at hshift
  have hden := den_ge h0
  norm_num at hden
  unfold value
  rw [le_div_iff₀ (by linarith)]
  linarith

theorem share_far : 1 - 1e-7 ≤ share coarse 5.49 := by
  -- The bulk beyond is at most a constant times `exp (-15)`.
  have hexp : (3e6 : ℝ) ≤ Real.exp 15 := by
    calc (3e6 : ℝ) ≤ 2.7182 ^ 15 := by norm_num
      _ ≤ Real.exp 1 ^ 15 := by
        gcongr
        linarith [Real.exp_one_gt_d9]
      _ = Real.exp 15 := by rw [Real.exp_one_pow]; norm_num
  have hle : Real.exp (-(5.49 / root * (5.49 / root))) ≤ 1 / 3e6 := by
    rw [Real.exp_neg, inv_le_comm₀ (Real.exp_pos _) (by norm_num)]
    refine le_trans ?_ (hexp.trans (Real.exp_le_exp.mpr ?_))
    · norm_num
    · norm_num [root]
  have hvalue : Coeffs.eval (0 :: coarse) (nearness (5.49 / root)) ≤ 3e10 ∧
      0 ≤ Coeffs.eval (0 :: coarse) (nearness (5.49 / root)) := by
    simp only [nearness, curb, root, coarse, Coeffs.eval_cons, Coeffs.eval_nil]
    norm_num
  have hbeyond : beyond coarse (5.49 / root) ≤ 3e10 * (1 / 3e6) := by
    unfold beyond
    gcongr
    exact hvalue.1
  unfold share
  norm_num at hbeyond ⊢
  linarith

theorem abs_share_value_sub_le_of_far (h : 6 ≤ u) :
    |share coarse (value u) - (1 - 2 * Real.exp (-(u * u / 2)))| ≤ 1e-7 := by
  have hvalue := value_ge h
  -- Nearly everything lies inside, on both sides of the difference.
  have hmono := monotoneOn_share_coarse (a := 5.49) (b := value u) (by norm_num)
    (Set.mem_Ici.mpr (by linarith)) hvalue
  have hfar := share_far
  have hone := share_coarse_le_one (x := value u) (by linarith)
  have hexp : Real.exp (-(u * u / 2)) ≤ 5e-8 := by
    have hgrowth : (2e7 : ℝ) ≤ Real.exp (u * u / 2) := by
      calc (2e7 : ℝ) ≤ 2.7182 ^ 18 := by norm_num
        _ ≤ Real.exp 1 ^ 18 := by
          gcongr
          linarith [Real.exp_one_gt_d9]
        _ = Real.exp 18 := by rw [Real.exp_one_pow]; norm_num
        _ ≤ Real.exp (u * u / 2) := Real.exp_le_exp.mpr (by nlinarith)
    rw [Real.exp_neg, inv_le_comm₀ (Real.exp_pos _) (by norm_num)]
    norm_num at hgrowth ⊢
    exact hgrowth
  have hpos := Real.exp_pos (-(u * u / 2))
  rw [abs_le]
  norm_num at hfar hexp ⊢
  constructor
  · linarith
  · linarith

theorem abs_share_coarse_value_sub_le (h0 : 272 / 100 ≤ u) :
    |share coarse (value u) - (1 - 2 * Real.exp (-(u * u / 2)))| ≤ 2.9e-7 := by
  rcases le_total u 6 with h6 | h6
  · obtain ⟨hpos, hle⟩ := value_mem h0 h6
    exact (abs_share_coarse_sub_le hpos hle (abs_share_value_sub_le h0 h6)).trans (by norm_num)
  · exact (abs_share_value_sub_le_of_far h6).trans (by norm_num)

/-! ## Where it begins -/

theorem exp_begin_le : Real.exp (272 / 100 * (272 / 100) / 2) ≤ 1 / 0.0245 := by
  -- A quarter of the exponent is where the series is good.
  have hbound := Real.exp_bound' (x := 0.9248) (by norm_num) (by norm_num) (n := 8) (by norm_num)
  simp only [Finset.sum_range_succ, Finset.sum_range_zero, Nat.factorial] at hbound
  have hbound : Real.exp 0.9248 ≤ 2.5225 := by
    refine hbound.trans ?_
    norm_num
  calc Real.exp (272 / 100 * (272 / 100) / 2) = Real.exp 0.9248 ^ 4 := by
        rw [← Real.exp_nat_mul]
        norm_num
    _ ≤ 2.5225 ^ 4 := by gcongr
    _ ≤ 1 / 0.0245 := by norm_num

/-- The program goes over to the tail where little enough is left on a side. -/
theorem root_mem {y : ℝ} (h0 : 0 < y) (h1 : y ≤ 0.0245) :
    272 / 100 ≤ √(-2 * Real.log y) ∧
      Real.exp (-(√(-2 * Real.log y) * √(-2 * Real.log y) / 2)) = y := by
  have hlog : Real.log y ≤ -(272 / 100 * (272 / 100) / 2) := by
    rw [Real.log_le_iff_le_exp h0, Real.exp_neg, le_inv_comm₀ h0 (Real.exp_pos _)]
    refine exp_begin_le.trans ?_
    rw [one_div]
    gcongr
  have hsquare : 0 ≤ -2 * Real.log y := by linarith
  constructor
  · rw [Real.le_sqrt' (by norm_num)]
    linarith
  · rw [Real.mul_self_sqrt hsquare, neg_mul, neg_div, neg_neg, mul_div_cancel_left₀ _ two_ne_zero,
      Real.exp_log h0]

end Fickle.Normal.Tail

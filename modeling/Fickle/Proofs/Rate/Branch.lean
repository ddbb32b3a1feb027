import Fickle.Proofs.Rate.Normal

/-! # How a density wanders

Each branch of the quantile is a quotient of polynomials. Put in, it makes of the normal
distribution something that should have a plain density; how far the two densities come apart along
the branch is seen from the logarithm of their quotient, whose slope is a quotient of polynomials
again.
-/

namespace Fickle.Normal

/-- What there is to know of a branch: `z ^ 2` has the slope `growth * slope / bottom ^ 3`, and `z`
grows like `slope / bottom ^ 2`, which should be `weight * exp (- s)` with `drift` the slope of `s`. -/
structure Branch where
  growth : Coeffs
  slope : Coeffs
  bottom : Coeffs
  weight : Coeffs
  drift : Coeffs

namespace Branch

/-- The logarithm of the quotient of the densities, up to a constant. -/
noncomputable def lag (b : Branch) (square s : ℝ → ℝ) (x : ℝ) : ℝ :=
  Real.log (Coeffs.eval b.slope x) - Real.log (Coeffs.eval b.bottom x * Coeffs.eval b.bottom x)
    - Real.log (Coeffs.eval b.weight x) + s x - square x / (root * root)

def cube (b : Branch) : Coeffs := Coeffs.mul b.bottom (Coeffs.mul b.bottom b.bottom)

/-- What all terms of the slope of the lag are divided by. -/
def whole (b : Branch) : Coeffs :=
  Coeffs.scale (14142135623730951 * 14142135623730951)
    (Coeffs.mul (Coeffs.mul b.slope b.cube) b.weight)

def top (b : Branch) : Coeffs :=
  let square := Coeffs.mul b.bottom b.bottom
  let logs :=
    Coeffs.sub (Coeffs.mul (Coeffs.mul (Coeffs.derivative b.slope) b.cube) b.weight)
      (Coeffs.add
        (Coeffs.scale 2 (Coeffs.mul (Coeffs.derivative b.bottom)
          (Coeffs.mul (Coeffs.mul b.slope square) b.weight)))
        (Coeffs.mul (Coeffs.mul (Coeffs.derivative b.weight) b.slope) b.cube))
  Coeffs.sub
    (Coeffs.add (Coeffs.scale (14142135623730951 * 14142135623730951) logs)
      (Coeffs.mul b.drift b.whole))
    (Coeffs.scale (10 ^ 32)
      (Coeffs.mul b.growth (Coeffs.mul (Coeffs.mul b.slope b.slope) b.weight)))

/-- The lag is steeper than `rate` hundred-millionths nowhere from `a / n` to `c / n`. -/
def isFlat (b : Branch) (n : ℕ) (a c : ℤ) (rate : ℕ) : Bool :=
  let bound := Coeffs.scale rate b.whole
  let top := Coeffs.scale (10 ^ 8) b.top
  Coeffs.isNonneg (Coeffs.add bound top) n a c && Coeffs.isNonneg (Coeffs.sub bound top) n a c

/-- The polynomials belong to the functions, and have the signs that they should have, from `lo` to
`hi`. -/
structure Fits (b : Branch) (square s : ℝ → ℝ) (lo hi : ℝ) : Prop where
  slope_pos : ∀ x, lo ≤ x → x ≤ hi → 0 < Coeffs.eval b.slope x
  bottom_pos : ∀ x, lo ≤ x → x ≤ hi → 0 < Coeffs.eval b.bottom x
  weight_pos : ∀ x, lo ≤ x → x ≤ hi → 0 < Coeffs.eval b.weight x
  square : ∀ x, lo ≤ x → x ≤ hi → HasDerivAt square
    (Coeffs.eval b.growth x * Coeffs.eval b.slope x / Coeffs.eval b.bottom x ^ 3) x
  drift : ∀ x, lo ≤ x → x ≤ hi → HasDerivAt s (Coeffs.eval b.drift x) x

variable {b : Branch} {square s : ℝ → ℝ} {lo hi x y : ℝ}

theorem root_mul_root : root * root = 14142135623730951 * 14142135623730951 / 10 ^ 32 := by
  unfold root
  norm_num

theorem Fits.whole_pos (h : b.Fits square s lo hi) (hlo : lo ≤ x) (hhi : x ≤ hi) :
    0 < Coeffs.eval b.whole x := by
  have hslope := h.slope_pos x hlo hhi
  have hbottom := h.bottom_pos x hlo hhi
  have hweight := h.weight_pos x hlo hhi
  simp only [whole, cube, Coeffs.eval_scale, Coeffs.eval_mul]
  push_cast
  positivity

theorem Fits.hasDerivAt_lag (h : b.Fits square s lo hi) (hlo : lo ≤ x) (hhi : x ≤ hi) :
    HasDerivAt (b.lag square s) (Coeffs.eval b.top x / Coeffs.eval b.whole x) x := by
  have hslope := h.slope_pos x hlo hhi
  have hbottom := h.bottom_pos x hlo hhi
  have hweight := h.weight_pos x hlo hhi
  -- A term at a time, then all of them over the same divisor.
  have hlogs := (((Coeffs.hasDerivAt_eval b.slope x).log hslope.ne').sub
    (((Coeffs.hasDerivAt_eval b.bottom x).mul (Coeffs.hasDerivAt_eval b.bottom x)).log
      (mul_pos hbottom hbottom).ne')).sub
    ((Coeffs.hasDerivAt_eval b.weight x).log hweight.ne')
  have hlag := (hlogs.add (h.drift x hlo hhi)).sub ((h.square x hlo hhi).div_const (root * root))
  refine HasDerivAt.congr_deriv hlag ?_
  rw [root_mul_root]
  simp only [top, whole, cube, Coeffs.eval_scale, Coeffs.eval_mul, Coeffs.eval_add, Coeffs.eval_sub,
    Pi.mul_apply]
  push_cast
  field_simp
  ring

theorem Fits.exp_lag (h : b.Fits square s lo hi) (hlo : lo ≤ x) (hhi : x ≤ hi) :
    Real.exp (b.lag square s x) =
      Coeffs.eval b.slope x / (Coeffs.eval b.bottom x * Coeffs.eval b.bottom x) /
        Coeffs.eval b.weight x * Real.exp (s x) * Real.exp (-(square x / (root * root))) := by
  have hslope := h.slope_pos x hlo hhi
  have hbottom := h.bottom_pos x hlo hhi
  have hweight := h.weight_pos x hlo hhi
  unfold lag
  rw [sub_eq_add_neg, Real.exp_add, Real.exp_add, Real.exp_sub, Real.exp_sub, Real.exp_log hslope,
    Real.exp_log (mul_pos hbottom hbottom), Real.exp_log hweight]

theorem Fits.abs_slope_le (h : b.Fits square s lo hi) {n rate : ℕ} {a c : ℤ} (hn : 0 < n)
    (hflat : b.isFlat n a c rate = true) (hlo : lo ≤ x) (hhi : x ≤ hi) (ha : a / n ≤ x)
    (hc : x ≤ c / n) : |Coeffs.eval b.top x / Coeffs.eval b.whole x| ≤ rate / 10 ^ 8 := by
  have hwhole := h.whole_pos hlo hhi
  obtain ⟨hadd, hsub⟩ := Bool.and_eq_true_iff.mp hflat
  have hlower := Coeffs.eval_nonneg hn hadd ha hc
  have hupper := Coeffs.eval_nonneg hn hsub ha hc
  simp only [Coeffs.eval_add, Coeffs.eval_sub, Coeffs.eval_scale] at hlower hupper
  push_cast at hlower hupper
  have hscale : (0 : ℝ) < 10 ^ 8 := by norm_num
  rw [abs_div, abs_of_pos hwhole, div_le_div_iff₀ hwhole hscale, ← abs_of_pos hscale, ← abs_mul,
    abs_le]
  constructor
  · linarith
  · linarith

/-- On a flat stretch the lag hardly changes. -/
theorem Fits.abs_lag_sub_le (h : b.Fits square s lo hi) {n rate : ℕ} {a c : ℤ} (hn : 0 < n)
    (hflat : b.isFlat n a c rate = true) (hlo : lo ≤ a / n) (hhi : c / n ≤ hi) (ha : a / n ≤ x)
    (hc : x ≤ c / n) :
    |b.lag square s x - b.lag square s (a / n)| ≤ rate / 10 ^ 8 * (x - a / n) := by
  have hstep := (convex_Icc ((a : ℝ) / n) x).norm_image_sub_le_of_norm_hasDerivWithin_le
    (f := b.lag square s) (C := rate / 10 ^ 8)
    (fun y hy => (h.hasDerivAt_lag (hlo.trans hy.1) ((hy.2.trans hc).trans hhi)).hasDerivWithinAt)
    (fun y hy => h.abs_slope_le hn hflat (hlo.trans hy.1) ((hy.2.trans hc).trans hhi) hy.1
      (hy.2.trans hc)) (Set.left_mem_Icc.mpr ha) (Set.right_mem_Icc.mpr ha)
  rwa [Real.norm_eq_abs, Real.norm_eq_abs, abs_of_nonneg (sub_nonneg.mpr ha)] at hstep

end Branch

/-! ## What the lag does to the share -/

theorem abs_mul_sub_one_le (u v : ℝ) :
    |u * v - 1| ≤ |u - 1| + |v - 1| + |u - 1| * |v - 1| := by
  have hsplit : u * v - 1 = (u - 1) + (v - 1) + (u - 1) * (v - 1) := by ring
  rw [hsplit, ← abs_mul]
  exact abs_add_three _ _ _

theorem abs_exp_sub_one_le {x d : ℝ} (h : |x| ≤ d) (hd : d ≤ 1e-5) :
    |Real.exp x - 1| ≤ d + 1e-10 := by
  have hone : |x| ≤ 1 := by linarith
  have hexp := Real.abs_exp_sub_one_sub_id_le hone
  have hsquare : x ^ 2 ≤ 1e-10 := by
    have habs : |x| ≤ 1e-5 := h.trans hd
    calc x ^ 2 = |x| ^ 2 := (sq_abs x).symm
      _ ≤ 1e-5 ^ 2 := by gcongr
      _ = 1e-10 := by norm_num
  have hsum := abs_add_le (Real.exp x - 1 - x) x
  rw [sub_add_cancel] at hsum
  linarith

/-- The quotient of the densities is about one as long as the lag has not changed much. -/
theorem abs_mul_exp_sub_one_le {g start lag slack drift : ℝ} (hg : |g - peak| ≤ 6e-9)
    (hstart : |peak * Real.exp start / (root + root) - 1| ≤ slack) (hslack : slack ≤ 1e-6)
    (hlag : |lag - start| ≤ drift) (hdrift : drift ≤ 1e-5) :
    |g * Real.exp lag / (root + root) - 1| ≤ drift + slack + 6e-9 := by
  have hpeak : (1.12 : ℝ) ≤ peak := by
    unfold peak
    norm_num
  -- What is known of the start is split off, and what is left is near one for itself.
  have hsplit : g * Real.exp lag / (root + root) =
      peak * Real.exp start / (root + root) * (g / peak * Real.exp (lag - start)) := by
    rw [Real.exp_sub]
    have := Real.exp_pos start
    field_simp
  have hquotient : |g / peak - 1| ≤ 5.4e-9 := by
    have hpos : 0 < peak := by linarith
    rw [div_sub_one hpos.ne', abs_div, abs_of_pos hpos, div_le_iff₀ hpos]
    linarith
  have hexp := abs_exp_sub_one_le hlag hdrift
  have hinner := abs_mul_sub_one_le (g / peak) (Real.exp (lag - start))
  -- The products of two errors are negligible.
  have hcross : |g / peak - 1| * |Real.exp (lag - start) - 1| ≤ 5.4e-9 * 1.1e-5 := by
    gcongr
    linarith
  have houter := abs_mul_sub_one_le (peak * Real.exp start / (root + root))
    (g / peak * Real.exp (lag - start))
  have hcross' : |peak * Real.exp start / (root + root) - 1| *
      |g / peak * Real.exp (lag - start) - 1| ≤ 1e-6 * 1.1e-5 := by
    gcongr
    · linarith
    · norm_num at hcross
      linarith
  rw [hsplit]
  norm_num at hcross hcross'
  linarith

/-- Critical values are near enough, but for the last ones. -/
theorem nearness_of_le {z : ℝ} (h0 : 0 ≤ z) (h1 : z ≤ 5.65) : 430 / 1000 ≤ nearness (z / root) := by
  have hroot := root_pos
  have hw : 0 ≤ z / root := by positivity
  have hcurb : curb * (z / root) ≤ 1.31 := by
    rw [← mul_div_assoc, div_le_iff₀ hroot]
    norm_num [curb, root]
    linarith
  unfold nearness
  rw [le_inv_comm₀ (by norm_num) (one_add_pos hw)]
  norm_num at hcurb ⊢
  linarith

/-- What is close with the closer coefficients is close with those of the program. -/
theorem abs_share_coarse_sub_le {z c error : ℝ} (h0 : 0 ≤ z) (h1 : z ≤ 5.65)
    (h : |share close z - c| ≤ error) : |share coarse z - c| ≤ 1.6e-7 + error :=
  (abs_sub_le _ (share close z) _).trans
    (add_le_add (abs_share_sub_le h0 (nearness_of_le h0 h1)) h)

/-- Along a branch the error of the share changes by no more than a part of what the share itself
changes by. -/
theorem abs_error_le {z z' c c' : ℝ → ℝ} {x0 x1 part : ℝ} (hle : x0 ≤ x1)
    (hz : ∀ x ∈ Set.Icc x0 x1, HasDerivAt z (z' x) x) (hc : ∀ x, HasDerivAt c (c' x) x)
    (hpos : ∀ x ∈ Set.Icc x0 x1, 0 ≤ z x)
    (hnear : ∀ x ∈ Set.Icc x0 x1, 430 / 1000 ≤ nearness (z x / root))
    (hpart : ∀ x ∈ Set.Icc x0 x1, ∀ g, |g - peak| ≤ 6e-9 →
      |g * Real.exp (-(z x / root * (z x / root))) / root * z' x - c' x| ≤ part * c' x) :
    |share close (z x1) - c x1| ≤ |share close (z x0) - c x0| + part * (c x1 - c x0) := by
  -- The error has a slope everywhere, but which one depends on the `g` of the point.
  have hderiv (x : ℝ) (hx : x ∈ Set.Icc x0 x1) : ∃ slope, |slope| ≤ part * c' x ∧
      HasDerivAt (fun x => share close (z x) - c x) slope x := by
    obtain ⟨g, hg, hshare⟩ := exists_hasDerivAt_share (hpos x hx) (hnear x hx)
    exact ⟨_, hpart x hx g hg, (hshare.comp x (hz x hx)).sub (hc x)⟩
  choose! slope hslope hderiv using hderiv
  have hbound (x : ℝ) : HasDerivAt
      (fun x => |share close (z x0) - c x0| + part * (c x - c x0)) (part * c' x) x :=
    (((hc x).sub_const (c x0)).const_mul part).const_add _
  refine image_norm_le_of_norm_deriv_right_le_deriv_boundary
    (fun x hx => (hderiv x hx).continuousAt.continuousWithinAt)
    (fun x hx => (hderiv x (Set.Ico_subset_Icc_self hx)).hasDerivWithinAt) ?_ hbound
    (fun x hx => hslope x (Set.Ico_subset_Icc_self hx)) (Set.right_mem_Icc.mpr hle)
  rw [sub_self, mul_zero, add_zero, Real.norm_eq_abs]

end Fickle.Normal

import Fickle.Proofs.Coeffs
import Fickle.Proofs.Exact
import Fickle.Rate.Normal

/-! # The approximation of the normal distribution

In exact arithmetic. What the distribution function leaves on both sides of a distance is a
polynomial, in a variable that goes from one down to zero with the distance, times an exponential. A
polynomial of a higher degree takes its place that comes much closer, and the two differ by what is
documented.
-/

namespace Fickle.Normal

/-! ## What is left beyond a distance -/

/-- The root of two as it is written. -/
noncomputable def root : ℝ := 1.4142135623730951

noncomputable def curb : ℝ := 0.3275911

/-- The variable of the polynomials at a distance. -/
noncomputable def nearness (w : ℝ) : ℝ := (1 + curb * w)⁻¹

/-- What is left beyond a distance on both sides, in the units of the coefficients. -/
noncomputable def beyond (p : Coeffs) (w : ℝ) : ℝ :=
  Coeffs.eval (0 :: p) (nearness w) * Real.exp (-(w * w))

/-- How fast it falls with the distance, but for the exponential: `(0.3275911 * t) ^ 2` times the
slope of the polynomial, and `2 * (1 - t)` times its quotient by `t`, in units. -/
def fall (p : Coeffs) : Coeffs :=
  Coeffs.add (Coeffs.scale (3275911 * 3275911) (Coeffs.mul [0, 0, 1] (Coeffs.derivative (0 :: p))))
    (Coeffs.scale (2 * 10 ^ 14) (Coeffs.mul [1, -1] p))

theorem curb_pos : 0 < curb := by
  unfold curb
  norm_num

theorem root_pos : 0 < root := by
  unfold root
  norm_num

variable {w x : ℝ} {p : Coeffs}

theorem one_add_pos (hw : 0 ≤ w) : 0 < 1 + curb * w := by
  have := curb_pos
  positivity

theorem nearness_mem (hw : 0 ≤ w) : 0 < nearness w ∧ nearness w ≤ 1 := by
  have hcurb := curb_pos
  refine ⟨inv_pos.mpr (one_add_pos hw), inv_le_one_of_one_le₀ ?_⟩
  have : 0 ≤ curb * w := by positivity
  linarith

theorem hasDerivAt_nearness (hw : 0 ≤ w) :
    HasDerivAt nearness (-(curb * nearness w ^ 2)) w := by
  have hlinear := ((hasDerivAt_id' w).const_mul curb).const_add 1
  have hinv := hlinear.fun_inv (one_add_pos hw).ne'
  refine HasDerivAt.congr_deriv hinv ?_
  unfold nearness
  rw [mul_one, neg_div, div_eq_mul_inv, inv_pow]

theorem hasDerivAt_beyond (p : Coeffs) (hw : 0 ≤ w) :
    HasDerivAt (beyond p)
      (-(Coeffs.eval (fall p) (nearness w) * Real.exp (-(w * w)) / 32759110000000)) w := by
  have hcurb : curb = 3275911 / 10000000 := by
    unfold curb
    norm_num
  have hpoly := (Coeffs.hasDerivAt_eval (0 :: p) (nearness w)).comp w (hasDerivAt_nearness hw)
  have hsquare := ((hasDerivAt_id' w).mul (hasDerivAt_id' w)).fun_neg.exp
  -- The distance itself is no polynomial in the variable, but its product with the variable is.
  have hcut : nearness w * w = (1 - nearness w) / curb := by
    have hne := (one_add_pos hw).ne'
    have hne' := curb_pos.ne'
    unfold nearness
    field_simp
    ring
  have hslope := hpoly.mul hsquare
  refine HasDerivAt.congr_deriv hslope ?_
  have hvalue : Coeffs.eval (0 :: p) (nearness w) * w =
      (1 - nearness w) / curb * Coeffs.eval p (nearness w) := by
    rw [← hcut, Coeffs.eval_cons]
    push_cast
    ring
  simp only [fall, Coeffs.eval_add, Coeffs.eval_scale, Coeffs.eval_mul, Coeffs.eval_cons,
    Coeffs.eval_nil, Function.comp_apply] at hvalue ⊢
  rw [hcurb] at hvalue ⊢
  push_cast at hvalue ⊢
  linear_combination (-2 * Real.exp (-(w * w))) * hvalue

theorem antitoneOn_beyond (h : Coeffs.isNonneg (fall p) 1 0 1 = true) :
    AntitoneOn (beyond p) (Set.Ici 0) := by
  have hderiv (w : ℝ) (hw : 0 ≤ w) := hasDerivAt_beyond p hw
  refine antitoneOn_of_hasDerivWithinAt_nonpos (convex_Ici 0)
    (fun w hw => (hderiv w hw).continuousAt.continuousWithinAt)
    (fun w hw => (hderiv w (interior_subset hw)).hasDerivWithinAt) fun w hw => ?_
  obtain ⟨hpos, hle⟩ := nearness_mem (interior_subset hw : w ∈ Set.Ici 0)
  have hfall := Coeffs.eval_nonneg one_pos h (x := nearness w) (by simpa using hpos.le)
    (by simpa using hle)
  have hexp := Real.exp_pos (-(w * w))
  rw [neg_nonpos]
  positivity

/-! ## The distribution function -/

/-- The coefficients of the program, in units of `1e-11`. -/
def coarse : Coeffs := [25482959200, -28449673600, 142141374100, -145315202700, 106140542900]

/-- The share within a distance of `x` on both sides. -/
noncomputable def share (p : Coeffs) (x : ℝ) : ℝ := 1 - 1e-11 * beyond p (x / root)

theorem cdf_eq (hx : 0 ≤ x) : 2 * cdf x - 1 = share coarse x := by
  have hroot : root = 1.4142135623730951 := rfl
  have hcurb : curb = 0.3275911 := rfl
  unfold cdf
  dsimp only
  rw [Exact.zero_eq, if_neg (not_lt.mpr hx), Exact.one_eq, ← hroot, ← hcurb]
  have habs : Scalar.abs x = x := abs_of_nonneg hx
  have hexp (y : ℝ) : Scalar.exp y = Real.exp y := rfl
  rw [habs, hexp, neg_mul]
  simp only [polynomial, List.foldl_cons, List.foldl_nil, share, beyond, coarse, Coeffs.eval_cons,
    Coeffs.eval_nil, one_div]
  rw [← nearness]
  push_cast
  ring

theorem monotoneOn_share (h : Coeffs.isNonneg (fall p) 1 0 1 = true) :
    MonotoneOn (share p) (Set.Ici 0) := by
  intro x hx y hy hxy
  have hroot := root_pos
  have hx : 0 ≤ x / root := div_nonneg hx hroot.le
  have hle : x / root ≤ y / root := by gcongr
  have hfall := antitoneOn_beyond h hx (hx.trans hle) hle
  unfold share
  linarith

theorem monotoneOn_share_coarse : MonotoneOn (share coarse) (Set.Ici 0) :=
  monotoneOn_share (by decide +kernel)

theorem coarse_mem (hw : 0 ≤ w) : 0 ≤ 1e-11 * Coeffs.eval (0 :: coarse) (nearness w) ∧
    1e-11 * Coeffs.eval (0 :: coarse) (nearness w) ≤ 1 := by
  obtain ⟨hpos, hle⟩ := nearness_mem hw
  have hsigns : Coeffs.isNonneg (0 :: coarse) 1 0 1 = true ∧
      Coeffs.isNonneg (Coeffs.sub [10 ^ 11] (0 :: coarse)) 1 0 1 = true := by
    decide +kernel
  have hlow := Coeffs.eval_nonneg one_pos hsigns.1 (x := nearness w) (by simpa using hpos.le)
    (by simpa using hle)
  have hhigh := Coeffs.eval_nonneg one_pos hsigns.2 (x := nearness w) (by simpa using hpos.le)
    (by simpa using hle)
  rw [Coeffs.eval_sub, Coeffs.eval_cons (10 ^ 11), Coeffs.eval_nil] at hhigh
  generalize Coeffs.eval (0 :: coarse) (nearness w) = y at *
  push_cast at hhigh
  refine ⟨by positivity, ?_⟩
  norm_num
  linarith

theorem share_coarse_le_one (hx : 0 ≤ x) : share coarse x ≤ 1 := by
  have hvalue := (coarse_mem (div_nonneg hx root_pos.le)).1
  have hexp := Real.exp_pos (-(x / root * (x / root)))
  have hshare := mul_nonneg hvalue hexp.le
  unfold share beyond
  linarith

theorem share_coarse_nonneg (hx : 0 ≤ x) : 0 ≤ share coarse x := by
  have hmono := monotoneOn_share_coarse (a := 0) (b := x) Set.self_mem_Ici hx hx
  refine le_trans ?_ hmono
  simp only [share, beyond, nearness, coarse, Coeffs.eval_cons, Coeffs.eval_nil]
  norm_num

theorem fall_coarse_signs : Coeffs.isNonneg (fall coarse) 1 0 1 = true ∧
    Coeffs.isNonneg (Coeffs.sub [9 * 10 ^ 24] (fall coarse)) 1 0 1 = true := by
  decide +kernel

theorem abs_share_sub_share_le {y : ℝ} (hx : 0 ≤ x) (hy : 0 ≤ y) :
    |share coarse y - share coarse x| ≤ 2 * |y - x| := by
  have hderiv (x : ℝ) (hx : 0 ≤ x) := (((hasDerivAt_beyond coarse
    (div_nonneg hx root_pos.le)).comp x ((hasDerivAt_id' x).div_const root)).const_mul 1e-11).const_sub 1
  refine (convex_Ici (0 : ℝ)).norm_image_sub_le_of_norm_hasDerivWithin_le
    (fun x hx => (hderiv x hx).hasDerivWithinAt) (fun x hx => ?_) hx hy
  -- The slope is the fall of the polynomial times an exponential that is at most one.
  obtain ⟨hpos, hle⟩ := nearness_mem (div_nonneg hx root_pos.le)
  have hlow := Coeffs.eval_nonneg one_pos fall_coarse_signs.1 (x := nearness (x / root))
    (by simpa using hpos.le) (by simpa using hle)
  have hhigh := Coeffs.eval_nonneg one_pos fall_coarse_signs.2 (x := nearness (x / root))
    (by simpa using hpos.le) (by simpa using hle)
  rw [Coeffs.eval_sub] at hhigh
  have hexp := Real.exp_pos (-(x / root * (x / root)))
  have hexp' : Real.exp (-(x / root * (x / root))) ≤ 1 :=
    Real.exp_le_one_iff.mpr (neg_nonpos.mpr (mul_self_nonneg _))
  have hproduct : Coeffs.eval (fall coarse) (nearness (x / root)) *
      Real.exp (-(x / root * (x / root))) ≤ 9 * 10 ^ 24 * 1 := by
    gcongr
    simp only [Coeffs.eval_cons, Coeffs.eval_nil] at hhigh
    push_cast at hhigh
    linarith
  have hslope : 0 ≤ Coeffs.eval (fall coarse) (nearness (x / root)) *
      Real.exp (-(x / root * (x / root))) := by positivity
  generalize Coeffs.eval (fall coarse) (nearness (x / root)) *
    Real.exp (-(x / root * (x / root))) = slope at *
  rw [Real.norm_eq_abs, abs_le]
  unfold root
  norm_num
  constructor
  · linarith
  · linarith

/-! ## Closer coefficients -/

/-- Coefficients with which the slope is that of the normal distribution up to `1e-8`. -/
def close : Coeffs :=
  [18511749688, 18132403191, 19141917878, 12079656393, 12693025792, 26024447090, -34618011285,
    50825453558, -27943570120, 5152927813]

/-- A lower bound of the exponential. -/
def expSum (x : ℚ) : ℚ := ∑ i ∈ Finset.range 16, x ^ i / i.factorial

/-- The distance at which the variable is `n / 1000`. -/
def distance (n : ℕ) : ℚ := (1000 - n) * 10000000 / (3275911 * n)

/-- On the way from `lo / 1000` to `hi / 1000` the polynomials differ by no more than `16000` times
what the exponential takes off at least. -/
def isClose (lo hi : ℕ) : Bool :=
  let bound : ℤ := ⌊16000 * expSum (distance hi * distance hi)⌋
  let gap := Coeffs.sub close coarse
  decide (hi ≤ 1000) && Coeffs.isNonneg (bound :: gap) 1000 lo hi &&
    Coeffs.isNonneg (Coeffs.sub [bound] (0 :: gap)) 1000 lo hi

/-- Each of the places is close to the one before it. -/
def areClose : ℕ → List ℕ → Bool
  | _, [] => true
  | hi, lo :: places => isClose lo hi && areClose lo places

theorem areClose_places : areClose 1000
    [959, 896, 855, 792, 776, 719, 701, 692, 684, 647, 622, 611, 604, 599, 595, 592, 589, 586, 582,
      578, 573, 566, 555, 535, 484, 430] = true := by
  decide +kernel

theorem expSum_le_exp {x : ℚ} (hx : 0 ≤ x) : (expSum x : ℝ) ≤ Real.exp x := by
  unfold expSum
  push_cast
  exact Real.sum_le_exp_of_nonneg (by exact_mod_cast hx) 16

theorem distance_mem {n : ℕ} (hn : n ≤ 1000) (hw : 0 ≤ w) (h : nearness w ≤ n / 1000) :
    0 ≤ (distance n : ℝ) ∧ distance n ≤ w := by
  have hcurb : curb = 3275911 / 10000000 := by
    unfold curb
    norm_num
  have hle : (n : ℝ) ≤ 1000 := by exact_mod_cast hn
  have hpos : (0 : ℝ) < n := by
    have := (nearness_mem hw).1
    linarith
  unfold nearness at h
  rw [inv_le_comm₀ (one_add_pos hw) (by positivity), inv_div, div_le_iff₀ hpos, hcurb] at h
  unfold distance
  push_cast
  constructor
  · exact div_nonneg (mul_nonneg (by linarith) (by norm_num)) (by positivity)
  · rw [div_le_iff₀ (by positivity)]
    linarith

/-- The polynomials differ by no more than is allowed, on the stretch of one check. -/
theorem abs_beyond_sub_le {lo hi : ℕ} (h : isClose lo hi = true) (hw : 0 ≤ w)
    (hlo : lo / 1000 ≤ nearness w) (hhi : nearness w ≤ hi / 1000) :
    |beyond close w - beyond coarse w| ≤ 16000 := by
  unfold isClose at h
  simp only [Bool.and_eq_true, decide_eq_true_eq] at h
  obtain ⟨⟨hle, habove⟩, hbelow⟩ := h
  set bound : ℤ := ⌊16000 * expSum (distance hi * distance hi)⌋
  obtain ⟨hd, hdw⟩ := distance_mem hle hw hhi
  have ha : ((lo : ℤ) : ℝ) / (1000 : ℕ) ≤ nearness w := by simpa using hlo
  have hb : nearness w ≤ ((hi : ℤ) : ℝ) / (1000 : ℕ) := by simpa using hhi
  have hupper := Coeffs.eval_nonneg (by norm_num) habove ha hb
  have hlower := Coeffs.eval_nonneg (by norm_num) hbelow ha hb
  simp only [Coeffs.eval_cons, Coeffs.eval_sub, Coeffs.eval_nil] at hupper hlower
  -- The bound falls short of what the exponential takes off.
  have hbound : (bound : ℝ) ≤ 16000 * Real.exp (w * w) := by
    have hfloor : (bound : ℝ) ≤ 16000 * expSum (distance hi * distance hi) := by
      exact_mod_cast Int.floor_le (16000 * expSum (distance hi * distance hi))
    have hsum := expSum_le_exp (mul_self_nonneg (distance hi))
    have hexp : Real.exp ((distance hi * distance hi : ℚ) : ℝ) ≤ Real.exp (w * w) := by
      push_cast
      gcongr
    linarith
  have hgap : beyond close w - beyond coarse w =
      nearness w * (Coeffs.eval close (nearness w) - Coeffs.eval coarse (nearness w)) *
        Real.exp (-(w * w)) := by
    unfold beyond
    simp only [Coeffs.eval_cons]
    ring
  rw [hgap, abs_mul, Real.abs_exp, Real.exp_neg, ← div_eq_mul_inv, div_le_iff₀ (Real.exp_pos _)]
  refine le_trans (abs_le.mpr ⟨?_, ?_⟩) hbound
  · linarith
  · push_cast at hlower
    linarith

theorem abs_beyond_sub_le_of_areClose {hi l : ℕ} {places : List ℕ} (h : areClose hi places = true)
    (hw : 0 ≤ w) (hhi : nearness w ≤ hi / 1000) (hl : l ∈ places) (hle : l / 1000 ≤ nearness w) :
    |beyond close w - beyond coarse w| ≤ 16000 := by
  -- Over the places, as the check goes through them: the variable lies between two in a row.
  induction places generalizing hi with
  | nil => cases hl
  | cons place places ih =>
    obtain ⟨hfirst, hrest⟩ := Bool.and_eq_true_iff.mp h
    rcases le_total ((place : ℝ) / 1000) (nearness w) with hplace | hplace
    · exact abs_beyond_sub_le hfirst hw hplace hhi
    · rcases List.mem_cons.mp hl with rfl | hl
      · exact abs_beyond_sub_le hfirst hw hle hhi
      · exact ih hrest hplace hl

theorem abs_share_sub_le (hx : 0 ≤ x) (hnear : 430 / 1000 ≤ nearness (x / root)) :
    |share coarse x - share close x| ≤ 1.6e-7 := by
  have hw : 0 ≤ x / root := div_nonneg hx root_pos.le
  have hgap := abs_beyond_sub_le_of_areClose areClose_places hw
    (by simpa using (nearness_mem hw).2) (l := 430) (by decide) (by exact_mod_cast hnear)
  have hshare : share coarse x - share close x =
      1e-11 * (beyond close (x / root) - beyond coarse (x / root)) := by
    unfold share
    ring
  rw [hshare, abs_mul, abs_of_nonneg (by norm_num)]
  linarith

/-! ## The slope with the closer coefficients -/

/-- Twice the inverse of the root of pi, to sixteen places. -/
noncomputable def peak : ℝ := 1.1283791670955126

/-- The slope of the closer polynomial is flat, in units of `1e-16` over what it is divided by. -/
def isPlain (lo hi : ℤ) : Bool :=
  Coeffs.isNonneg (Coeffs.sub (fall close) [11283791610955126 * (3275911 * 100)]) 100 lo hi &&
    Coeffs.isNonneg (Coeffs.sub [11283791730955126 * (3275911 * 100)] (fall close)) 100 lo hi

theorem isPlain_stretches :
    isPlain 43 55 = true ∧ isPlain 55 70 = true ∧ isPlain 70 85 = true ∧ isPlain 85 100 = true := by
  decide +kernel

theorem abs_sub_peak_le_of_isPlain {lo hi : ℕ} (h : isPlain lo hi = true)
    (hlo : lo / 100 ≤ nearness w) (hhi : nearness w ≤ hi / 100) :
    |Coeffs.eval (fall close) (nearness w) / (3275911 * 10 ^ 18) - peak| ≤ 6e-9 := by
  obtain ⟨habove, hbelow⟩ := Bool.and_eq_true_iff.mp h
  have ha : ((lo : ℤ) : ℝ) / (100 : ℕ) ≤ nearness w := by simpa using hlo
  have hb : nearness w ≤ ((hi : ℤ) : ℝ) / (100 : ℕ) := by simpa using hhi
  have hlower := Coeffs.eval_nonneg (by norm_num) habove ha hb
  have hupper := Coeffs.eval_nonneg (by norm_num) hbelow ha hb
  simp only [Coeffs.eval_sub, Coeffs.eval_cons, Coeffs.eval_nil, mul_zero, add_zero] at hlower hupper
  push_cast at hlower hupper
  unfold peak
  rw [abs_le, le_sub_iff_add_le, sub_le_iff_le_add, le_div_iff₀ (by norm_num),
    div_le_iff₀ (by norm_num)]
  constructor
  · norm_num at hlower ⊢
    linarith
  · norm_num at hupper ⊢
    linarith

theorem abs_sub_peak_le (hw : 0 ≤ w) (hnear : 430 / 1000 ≤ nearness w) :
    |Coeffs.eval (fall close) (nearness w) / (3275911 * 10 ^ 18) - peak| ≤ 6e-9 := by
  obtain ⟨h43, h55, h70, h85⟩ := isPlain_stretches
  have hone := (nearness_mem hw).2
  rcases le_total (nearness w) (55 / 100) with h | h
  · exact abs_sub_peak_le_of_isPlain h43 (by norm_num; linarith) (by simpa using h)
  rcases le_total (nearness w) (70 / 100) with h' | h'
  · exact abs_sub_peak_le_of_isPlain h55 (by simpa using h) (by simpa using h')
  rcases le_total (nearness w) (85 / 100) with h'' | h''
  · exact abs_sub_peak_le_of_isPlain h70 (by simpa using h') (by simpa using h'')
  · exact abs_sub_peak_le_of_isPlain h85 (by simpa using h'') (by norm_num; linarith)

theorem exists_hasDerivAt_share (hx : 0 ≤ x) (hnear : 430 / 1000 ≤ nearness (x / root)) :
    ∃ g, |g - peak| ≤ 6e-9 ∧
      HasDerivAt (share close) (g * Real.exp (-(x / root * (x / root))) / root) x := by
  have hw : 0 ≤ x / root := div_nonneg hx root_pos.le
  refine ⟨_, abs_sub_peak_le hw hnear, ?_⟩
  have hscaled := (hasDerivAt_beyond close hw).comp x ((hasDerivAt_id' x).div_const root)
  refine HasDerivAt.congr_deriv ((hscaled.const_mul 1e-11).const_sub 1) ?_
  have hroot := root_pos.ne'
  field_simp
  norm_num
  ring

end Fickle.Normal

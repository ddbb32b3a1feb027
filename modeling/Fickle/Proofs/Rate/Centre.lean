import Fickle.Proofs.Rate.Branch

/-! # The quantile near the centre

In exact arithmetic, as a function of the distance from one half. Put into the approximation of the
distribution function it gives back twice that distance, up to about the error that is documented of
the distribution function.
-/

namespace Fickle.Normal.Centre

/-- The coefficients of the program in units of `1e-15`, and so is the divisor. -/
def num : Coeffs :=
  [2506628277459239, -30664798066147160, 138357751867269000, -275928510446968700,
    220946098424520500, -39696830286653760]

def den : Coeffs :=
  [1000000000000000, -13280681552885720, 66801311887719720, -155698979859886600,
    161585836858040900, -54476098798224060]

def branch : Branch where
  growth := num
  slope :=
    Coeffs.add (Coeffs.mul num den)
      (Coeffs.mul [0, 2]
        (Coeffs.sub (Coeffs.mul (Coeffs.derivative num) den)
          (Coeffs.mul num (Coeffs.derivative den))))
  bottom := den
  weight := [1]
  drift := []

/-- The critical value for a probability of `q` on either side. -/
noncomputable def value (q : ℝ) : ℝ := q * Coeffs.eval num (q * q) / Coeffs.eval den (q * q)

/-- Its square, as a function of the square of `q`. -/
noncomputable def square (r : ℝ) : ℝ :=
  r * (Coeffs.eval num r * Coeffs.eval num r) / (Coeffs.eval den r * Coeffs.eval den r)

theorem signs :
    Coeffs.isNonneg (Coeffs.sub branch.slope [1]) 1600000000 0 362178961 = true ∧
      Coeffs.isNonneg (Coeffs.sub den [25 * 10 ^ 11]) 1600000000 0 362178961 = true ∧
      Coeffs.isNonneg (Coeffs.sub num [10 ^ 13]) 1600000000 0 362178961 = true ∧
      Coeffs.isNonneg (Coeffs.sub (Coeffs.scale 21 den) (Coeffs.scale 5 num)) 1600000000 0
        362178961 = true := by
  decide +kernel

theorem eval_slope (r : ℝ) : Coeffs.eval branch.slope r =
    Coeffs.eval num r * Coeffs.eval den r +
      2 * r * (Coeffs.eval (Coeffs.derivative num) r * Coeffs.eval den r -
        Coeffs.eval num r * Coeffs.eval (Coeffs.derivative den) r) := by
  simp only [branch, Coeffs.eval_add, Coeffs.eval_sub, Coeffs.eval_mul, Coeffs.eval_cons,
    Coeffs.eval_nil]
  push_cast
  ring

section

variable {r : ℝ} (h0 : 0 ≤ r) (h1 : r ≤ 362178961 / 1600000000)

include h0 h1

theorem slope_pos : 0 < Coeffs.eval branch.slope r :=
  Coeffs.eval_pos (by norm_num) signs.1 (by simpa using h0) (by simpa using h1)

theorem den_ge : 2.5e12 ≤ Coeffs.eval den r := by
  have hsign := Coeffs.eval_nonneg (by norm_num) signs.2.1 (x := r) (by simpa using h0)
    (by simpa using h1)
  norm_num at hsign ⊢
  exact hsign

theorem den_pos : 0 < Coeffs.eval den r :=
  lt_of_lt_of_le (by norm_num) (den_ge h0 h1)

theorem num_ge : 1e13 ≤ Coeffs.eval num r := by
  have hsign := Coeffs.eval_nonneg (by norm_num) signs.2.2.1 (x := r) (by simpa using h0)
    (by simpa using h1)
  norm_num at hsign ⊢
  exact hsign

theorem num_le : 5 * Coeffs.eval num r ≤ 21 * Coeffs.eval den r := by
  have hsign := Coeffs.eval_nonneg (by norm_num) signs.2.2.2 (x := r) (by simpa using h0)
    (by simpa using h1)
  simpa using hsign

end

theorem fits : branch.Fits square (fun _ => 0) 0 (362178961 / 1600000000) where
  slope_pos _ := slope_pos
  bottom_pos _ := den_pos
  weight_pos _ _ _ := by simp [branch]
  -- The quotient rule, brought to the form that `slope` was made for.
  square r h0 h1 := by
    have hpos := den_pos h0 h1
    have hnum := Coeffs.hasDerivAt_eval num r
    have hden := Coeffs.hasDerivAt_eval den r
    have hsquare := ((hasDerivAt_id' r).mul (hnum.mul hnum)).div (hden.mul hden)
      (mul_pos hpos hpos).ne'
    refine HasDerivAt.congr_deriv hsquare ?_
    rw [eval_slope]
    simp only [branch, Pi.mul_apply]
    field_simp
    ring
  drift r _ _ := by simpa [branch] using hasDerivAt_const r (0 : ℝ)

/-! ## How close it comes -/

variable {q : ℝ}

theorem mul_self_le (h0 : 0 ≤ q) (h1 : q ≤ 19031 / 40000) : q * q ≤ 362178961 / 1600000000 := by
  nlinarith

theorem hasDerivAt_eval_mul_self (p : Coeffs) (q : ℝ) :
    HasDerivAt (fun y => Coeffs.eval p (y * y))
      (Coeffs.eval (Coeffs.derivative p) (q * q) * (1 * q + q * 1)) q :=
  HasDerivAt.comp (h := fun y : ℝ => y * y) q (Coeffs.hasDerivAt_eval p (q * q))
    ((hasDerivAt_id' q).mul (hasDerivAt_id' q))

theorem hasDerivAt_value (h0 : 0 ≤ q) (h1 : q ≤ 19031 / 40000) :
    HasDerivAt value
      (Coeffs.eval branch.slope (q * q) / (Coeffs.eval den (q * q) * Coeffs.eval den (q * q))) q := by
  have hpos := den_pos (mul_self_nonneg q) (mul_self_le h0 h1)
  have hvalue := ((hasDerivAt_id' q).mul (hasDerivAt_eval_mul_self num q)).div
    (hasDerivAt_eval_mul_self den q) hpos.ne'
  refine HasDerivAt.congr_deriv hvalue ?_
  rw [eval_slope]
  simp only [Pi.mul_apply]
  field_simp
  ring

theorem value_mem (h0 : 0 ≤ q) (h1 : q ≤ 19031 / 40000) : 0 ≤ value q ∧ value q ≤ 2 := by
  have hr := mul_self_le h0 h1
  have hpos := den_pos (mul_self_nonneg q) hr
  have hnum := num_ge (mul_self_nonneg q) hr
  have hle := num_le (mul_self_nonneg q) hr
  have hnum0 : 0 ≤ Coeffs.eval num (q * q) := le_trans (by norm_num) hnum
  unfold value
  refine ⟨by positivity, ?_⟩
  rw [div_le_iff₀ hpos]
  have hproduct : q * Coeffs.eval num (q * q) ≤ 19031 / 40000 * Coeffs.eval num (q * q) := by
    gcongr
  linarith

theorem square_mul_self (q : ℝ) : square (q * q) = value q * value q := by
  unfold square value
  rw [div_mul_div_comm]
  ring

/-- The ends of stretches on which the lag is flat, and how steep it may be there. -/
def stretches : List (ℕ × ℕ) :=
  [(2400, 140), (7200, 63), (11200, 73), (13600, 96), (15200, 150), (16800, 260), (17800, 510),
    (18400, 1120), (18720, 1900), (18920, 5200), (19030, 64000), (19031, 64000)]

/-- The stretches are flat, and along them the error stays below `bound`, from the given drift of
the lag and the given error on. -/
def isTame (bound : ℚ) : ℚ → ℚ → ℕ → List (ℕ × ℕ) → Bool
  | _, _, _, [] => true
  | drift, error, q, (q', rate) :: stretches =>
    let drift := drift + rate / 10 ^ 8 * ((q' * q' - q * q) / 1600000000)
    let error := error + (drift + 1.2e-9 + 6e-9) * (2 * (q' / 40000) - 2 * (q / 40000))
    branch.isFlat 1600000000 (q * q) (q' * q') rate
      && decide (q ≤ q' ∧ q' ≤ 19031 ∧ drift ≤ 1e-5 ∧ error ≤ bound)
      && isTame bound drift error q' stretches

theorem isTame_stretches : isTame 1.3e-7 0 1e-10 0 stretches = true := by
  decide +kernel

theorem lag_zero : |peak * Real.exp (branch.lag square (fun _ => 0) 0) / (root + root) - 1| ≤ 1.2e-9 := by
  rw [fits.exp_lag le_rfl (by norm_num)]
  simp only [branch, square, num, den, peak, root, Coeffs.eval_add, Coeffs.eval_sub, Coeffs.eval_mul,
    Coeffs.eval_cons, Coeffs.eval_nil]
  norm_num

/-- As long as the lag has not changed much, the value grows as it should. -/
theorem abs_density_sub_le {drift : ℝ} (h0 : 0 ≤ q) (h1 : q ≤ 19031 / 40000)
    (hlag : |branch.lag square (fun _ => 0) (q * q) - branch.lag square (fun _ => 0) 0| ≤ drift)
    (hdrift : drift ≤ 1e-5) {g : ℝ} (hg : |g - peak| ≤ 6e-9) :
    |g * Real.exp (-(value q / root * (value q / root))) / root *
        (Coeffs.eval branch.slope (q * q) / (Coeffs.eval den (q * q) * Coeffs.eval den (q * q))) - 2| ≤
      (drift + 1.2e-9 + 6e-9) * 2 := by
  -- The quotient of the two densities is the exponential of the lag.
  have hquotient := abs_mul_exp_sub_one_le hg lag_zero (by norm_num) hlag hdrift
  have hr := mul_self_le h0 h1
  have hweight : Coeffs.eval branch.weight (q * q) = 1 := by simp [branch]
  rw [fits.exp_lag (mul_self_nonneg q) hr, hweight, Real.exp_zero, square_mul_self] at hquotient
  have hroot := root_pos
  have hsame : g * Real.exp (-(value q / root * (value q / root))) / root *
        (Coeffs.eval branch.slope (q * q) / (Coeffs.eval den (q * q) * Coeffs.eval den (q * q))) - 2 =
      (g * (Coeffs.eval branch.slope (q * q) /
        (Coeffs.eval branch.bottom (q * q) * Coeffs.eval branch.bottom (q * q)) / 1 * 1 *
          Real.exp (-(value q * value q / (root * root)))) / (root + root) - 1) * 2 := by
    rw [div_mul_div_comm (value q)]
    have hbottom : branch.bottom = den := rfl
    rw [hbottom]
    field_simp
    ring
  rw [hsame, abs_mul, abs_two]
  gcongr

section

variable {p p' rate : ℕ} (hp' : p' ≤ 19031)
  (hflat : branch.isFlat 1600000000 (p * p) (p' * p') rate = true) (h0 : p / 40000 ≤ q)
  (h1 : q ≤ p' / 40000)

include hp' hflat h0 h1

theorem abs_lag_sub_le : |branch.lag square (fun _ => 0) (q * q) -
    branch.lag square (fun _ => 0) (p * p / 1600000000)| ≤
      rate / 10 ^ 8 * ((p' * p' - p * p) / 1600000000) := by
  have hlast : (p' : ℝ) ≤ 19031 := by exact_mod_cast hp'
  have hsquare (x : ℝ) : x * x / 1600000000 = x / 40000 * (x / 40000) := by ring
  have hfirst : (0 : ℝ) ≤ p / 40000 := by positivity
  -- The stretch ends at squares, since the lag is a function of the square of `q`.
  have hlower : (p : ℝ) * p / 1600000000 ≤ q * q :=
    (hsquare p).trans_le (mul_self_le_mul_self hfirst h0)
  have hupper : q * q ≤ (p' : ℝ) * p' / 1600000000 :=
    (mul_self_le_mul_self (hfirst.trans h0) h1).trans_eq (hsquare p').symm
  have hend : (p' : ℝ) * p' ≤ 19031 * 19031 := mul_self_le_mul_self (Nat.cast_nonneg p') hlast
  have hlag := fits.abs_lag_sub_le (x := q * q) (by norm_num) hflat (by push_cast; positivity)
    (by push_cast; linarith) (by push_cast; exact hlower) (by push_cast; exact hupper)
  push_cast at hlag
  refine hlag.trans ?_
  gcongr
  linarith

/-- One stretch: the error grows by no more than the drift of the lag allows. -/
theorem abs_error_sub_le {drift : ℝ} (hdrift : drift ≤ 1e-5)
    (hlag : |branch.lag square (fun _ => 0) (p * p / 1600000000) -
      branch.lag square (fun _ => 0) 0| + rate / 10 ^ 8 * ((p' * p' - p * p) / 1600000000) ≤ drift) :
    |share close (value q) - 2 * q| ≤ |share close (value (p / 40000)) - 2 * (p / 40000)| +
      (drift + 1.2e-9 + 6e-9) * (2 * q - 2 * (p / 40000)) := by
  have hlast : (p' : ℝ) ≤ 19031 := by exact_mod_cast hp'
  -- The whole stretch lies in the branch.
  have hmem (x : ℝ) (hx : x ∈ Set.Icc ((p : ℝ) / 40000) q) : 0 ≤ x ∧ x ≤ 19031 / 40000 :=
    ⟨le_trans (by positivity) hx.1, by linarith [hx.2]⟩
  have hdouble (x : ℝ) : HasDerivAt (fun q : ℝ => 2 * q) 2 x := by
    simpa using (hasDerivAt_id' x).const_mul 2
  refine abs_error_le h0 (fun x hx => hasDerivAt_value (hmem x hx).1 (hmem x hx).2) hdouble
    (fun x hx => (value_mem (hmem x hx).1 (hmem x hx).2).1)
    (fun x hx => ?_) (fun x hx g hg => ?_)
  · have hvalue := value_mem (hmem x hx).1 (hmem x hx).2
    exact nearness_of_le hvalue.1 (hvalue.2.trans (by norm_num))
  · refine abs_density_sub_le (hmem x hx).1 (hmem x hx).2 ?_ hdrift hg
    have hstep := abs_lag_sub_le hp' hflat hx.1 (hx.2.trans h1)
    have hsum := abs_sub_le (branch.lag square (fun _ => 0) (x * x))
      (branch.lag square (fun _ => 0) (p * p / 1600000000)) (branch.lag square (fun _ => 0) 0)
    linarith

end

theorem abs_error_le_of_isTame {bound drift error : ℚ} {p l : ℕ} {cells : List (ℕ × ℕ)}
    (h : isTame bound drift error p cells = true)
    (hlag : |branch.lag square (fun _ => 0) (p * p / 1600000000) -
      branch.lag square (fun _ => 0) 0| ≤ drift)
    (herror : |share close (value (p / 40000)) - 2 * (p / 40000)| ≤ error)
    (hl : l ∈ cells.map Prod.fst) (h0 : p / 40000 ≤ q) (h1 : q ≤ l / 40000) :
    |share close (value q) - 2 * q| ≤ bound := by
  -- Over the stretches. What goes along is the lag and the error where a stretch begins.
  induction cells generalizing drift error p with
  | nil => cases hl
  | cons cell cells ih =>
    obtain ⟨p', rate⟩ := cell
    simp only [isTame, Bool.and_eq_true, decide_eq_true_eq] at h
    obtain ⟨⟨hflat, hpp', hp', hdrift, hbound⟩, hrest⟩ := h
    have hle : (p : ℝ) / 40000 ≤ p' / 40000 := by gcongr
    have hdrift := Rat.cast_le (K := ℝ).mpr hdrift
    have hbound := Rat.cast_le (K := ℝ).mpr hbound
    push_cast at hdrift hbound
    have hstep {q : ℝ} (h0 : p / 40000 ≤ q) (h1 : q ≤ p' / 40000) :=
      abs_error_sub_le hp' hflat h0 h1 hdrift (by linarith)
    have hturn := abs_lag_sub_le hp' hflat hle le_rfl
    rw [div_mul_div_comm, show (40000 * 40000 : ℝ) = 1600000000 by norm_num] at hturn
    rcases le_or_gt q (p' / 40000) with hq | hq
    · -- Inside this stretch the error is at most what it is at the end.
      have hsteep := (abs_nonneg _).trans hturn
      have hgrowth : ((drift : ℝ) + rate / 10 ^ 8 * ((p' * p' - p * p) / 1600000000) + 1.2e-9 + 6e-9) *
          (2 * q - 2 * (p / 40000)) ≤ (drift + rate / 10 ^ 8 * ((p' * p' - p * p) / 1600000000) +
            1.2e-9 + 6e-9) * (2 * (p' / 40000) - 2 * (p / 40000)) := by
        have hdrift0 := (abs_nonneg _).trans hlag
        gcongr
      linarith [hstep h0 hq]
    · -- Past this stretch, with the lag and the error at its end.
      refine ih hrest ?_ ?_ ?_ hq.le
      · have hsum := abs_sub_le (branch.lag square (fun _ => 0) (p' * p' / 1600000000))
          (branch.lag square (fun _ => 0) (p * p / 1600000000)) (branch.lag square (fun _ => 0) 0)
        push_cast
        linarith
      · have hturn := hstep hle le_rfl
        push_cast
        linarith
      · rcases List.mem_cons.mp hl with rfl | hl
        · exact absurd h1 (not_le.mpr hq)
        · exact hl

theorem abs_share_value_sub_le (h0 : 0 ≤ q) (h1 : q ≤ 19031 / 40000) :
    |share close (value q) - 2 * q| ≤ 1.3e-7 := by
  have hstart : |share close (value 0) - 2 * 0| ≤ 1e-10 := by
    simp only [value, share, beyond, nearness, close, Coeffs.eval_cons, Coeffs.eval_nil]
    norm_num
  have htame := abs_error_le_of_isTame (p := 0) (l := 19031) isTame_stretches (q := q)
    (by simp) (by norm_num at hstart ⊢; exact hstart) (by simp [stretches]) (by simpa using h0)
    (by norm_num; exact h1)
  norm_num at htame ⊢
  exact htame

/-- The distribution function of the program takes the value back to its probability. -/
theorem abs_share_coarse_value_sub_le (h0 : 0 ≤ q) (h1 : q ≤ 19031 / 40000) :
    |share coarse (value q) - 2 * q| ≤ 2.9e-7 := by
  obtain ⟨hpos, hle⟩ := value_mem h0 h1
  exact (abs_share_coarse_sub_le hpos (hle.trans (by norm_num))
    (abs_share_value_sub_le h0 h1)).trans (by norm_num)

end Fickle.Normal.Centre

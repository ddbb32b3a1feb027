import Fickle.Proofs.Binary64.Near
import Fickle.Proofs.Rate.Centre
import Fickle.Proofs.Rate.Tail
import Fickle.Rate.Assertion

/-! # The normal distribution on doubles

The exponential and the logarithm come from the platform. Where these are accurate, rounding adds next
to nothing to what the approximations are off by.
-/

namespace Fickle

open Binary64

/-! ## The functions of the platform -/

/-- The exponential and the logarithm, which the normal distribution takes from the platform. -/
structure Exponentials where
  exp : Binary64 → Binary64
  log : Binary64 → Binary64

namespace Exponentials

def platform : Exponentials := ⟨Scalar.exp, Scalar.log⟩

/-- Doubles with these functions in the place of the platform's. -/
abbrev scalar (t : Exponentials) : Scalar Binary64 :=
  { (inferInstance : Scalar Binary64) with
    exp := t.exp
    log := t.log }

/-- What any platform keeps to by far: both are right to twelve places, the exponential where it
is one at most, the logarithm up to one half. -/
structure Accurate (t : Exponentials) : Prop where
  exp : ∀ x a, Denotes x.unpacked a → a ≤ 0 → Near (t.exp x) (Real.exp a) 1e-12
  log : ∀ x a, Denotes x.unpacked a → 0 < a → a ≤ 1 / 2 → Near (t.log x) (Real.log a) 1e-12

/-- The report where the platform has these functions. -/
def judge (t : Exponentials) (trials : List Trial) (expected confidence : Binary64) :
    Report Binary64 :=
  @Report.judge Binary64 t.scalar trials expected confidence

/-- What runs is the report with the functions of the platform itself. -/
theorem judge_platform (trials : List Trial) (expected confidence : Binary64) :
    platform.judge trials expected confidence = Report.judge trials expected confidence := rfl

end Exponentials

namespace Normal

open Exponentials

variable {t : Exponentials} {x : Binary64} {a : ℚ}

/-! ## Polynomials -/

def areNear : List Binary64 → List ℚ → Bool
  | [], [] => true
  | c :: cs, k :: ks => isNear c k && areNear cs ks
  | [], _ :: _ | _ :: _, [] => false

/-- Polynomials with these further coefficients are at most `m` in size and off by at most `d`, if
the argument is at most `size` in size and off by at most `error`. The last two are what holds of the
value so far. -/
def isSteady (size error m d : ℚ) : ℚ → ℚ → List ℚ → Bool
  | m', d', [] => decide (m' ≤ m ∧ d' ≤ d)
  | m', d', k :: ks =>
    let product := (m' + d') * (size + error) + 1
    let carried := (m' + d') * error + (size + error) * d' + product * 1e-15
    let sum := m' * size + carried + (|k| + |k| * 1e-15) + 1
    decide (product ≤ 1e60 ∧ sum ≤ 1e60) &&
      isSteady size error m d (m' * size + |k|) (carried + |k| * 1e-15 + sum * 1e-15) ks

theorem near_foldl {size error m d m' d' : ℚ} {cs : List Binary64} {ks : List ℚ}
    {acc : Binary64} {value : ℝ} (hcs : areNear cs ks = true)
    (h : isSteady size error m d m' d' ks = true) (hx : Near x r error) (hr : |r| ≤ size)
    (hacc : Near acc value d') (hvalue : |value| ≤ m') :
    Near (cs.foldl (fun acc c => acc * x + c) acc) (ks.foldl (fun acc (k : ℚ) => acc * r + k) value) d ∧
      |ks.foldl (fun acc (k : ℚ) => acc * r + k) value| ≤ m := by
  induction ks generalizing cs acc value m' d' with
  | nil =>
    cases cs with
    | nil =>
      obtain ⟨hm, hd⟩ := of_decide_eq_true h
      exact ⟨hacc.mono (by exact_mod_cast hd), hvalue.trans (by exact_mod_cast hm)⟩
    | cons c cs => cases hcs
  | cons k ks ih =>
    cases cs with
    | nil => cases hcs
    | cons c cs =>
      obtain ⟨hc, hcs⟩ := Bool.and_eq_true_iff.mp hcs
      have hc := near_of_isNear hc
      simp only [isSteady, Bool.and_eq_true, decide_eq_true_eq] at h
      obtain ⟨⟨hproduct, hsum⟩, hrest⟩ := h
      -- What is carried over from the product, of which the check has a bound.
      generalize hcarried : (m' + d') * error + (size + error) * d' +
        ((m' + d') * (size + error) + 1) * 1e-15 = carried at hrest hsum
      have hcarried := congrArg (fun q : ℚ => (q : ℝ)) hcarried
      have hproduct := (Rat.cast_le (K := ℝ)).mpr hproduct
      have hsum := (Rat.cast_le (K := ℝ)).mpr hsum
      push_cast at hcarried hproduct hsum
      have hd := hacc.nonneg
      have herror := hx.nonneg
      have hm := (abs_nonneg _).trans hvalue
      have hsize := (abs_nonneg _).trans hr
      have hscaled : |value * r| ≤ m' * size := by
        rw [abs_mul]
        gcongr
      have hmul := hacc.mul hx (add_le_add_left hvalue _) (add_le_add_left hr _)
        (le_add_of_nonneg_right zero_le_one) (le_add_of_nonneg_left (by positivity)) hproduct
      rw [hcarried] at hmul
      have hcarried0 := hmul.nonneg
      -- One step of the fold, as the check counts it.
      have hstep : Near (acc * x + c) (value * r + k)
          ((carried + |k| * 1e-15 +
            (m' * size + carried + (|k| + |k| * 1e-15) + 1) * 1e-15 : ℚ) : ℝ) := by
        push_cast
        refine hmul.add hc (by linarith) ?_ hsum
        have hnonneg : 0 ≤ (m' : ℝ) * size + carried + (|(k : ℝ)| + |(k : ℝ)| * 1e-15) := by
          positivity
        linarith
      have hnext : |value * r + k| ≤ ((m' * size + |k| : ℚ) : ℝ) := by
        push_cast
        exact (abs_add_le _ _).trans (add_le_add_left hscaled _)
      have hfinal := ih hcs hrest hstep hnext
      exact hfinal

/-- The double that a polynomial gives is near the number that it gives. -/
theorem near_polynomial (first : Binary64) (rest : List Binary64) (k : ℚ) (ks : List ℚ)
    (size error m d : ℚ) (hcs : areNear (first :: rest) (k :: ks) = true)
    (h : isSteady size error m d |k| (|k| * 1e-15) ks = true) {r : ℝ} (hx : Near x r error)
    (hr : |r| ≤ size) :
    Near (polynomial first rest x) (polynomial (k : ℝ) (ks.map fun k : ℚ => (k : ℝ)) r) d ∧
      |polynomial (k : ℝ) (ks.map fun k : ℚ => (k : ℝ)) r| ≤ m := by
  obtain ⟨hfirst, hcs⟩ := Bool.and_eq_true_iff.mp hcs
  have hfirst := near_of_isNear hfirst
  unfold polynomial
  rw [List.foldl_map]
  refine near_foldl hcs h hx hr ?_ (by rw [Rat.cast_abs])
  push_cast
  exact hfirst

/-! ## The distribution function -/

/-- The distance of which the exponential is taken. -/
def scaled (x : Binary64) : Binary64 := Scalar.abs x / 1.4142135623730951

def nearby (z : Binary64) : Binary64 := 1.0 / (1.0 + 0.3275911 * z)

def coarseAt (z : Binary64) : Binary64 :=
  polynomial 1.061405429 [-1.453152027, 1.421413741, -0.284496736, 0.254829592] (nearby z)

theorem cdf_doubles (t : Exponentials) (x : Binary64) : @cdf Binary64 t.scalar x =
    0.5 * (1.0 + (if x < 0.0 then -1.0 else 1.0) *
      (1.0 - coarseAt (scaled x) * nearby (scaled x) * t.exp (-scaled x * scaled x))) := rfl

theorem near_root : Near 1.4142135623730951 root 1e-13 := by
  have hnear := near_of_isNear (c := 1.4142135623730951) (k := 1.4142135623730951)
    (by decide +kernel)
  push_cast at hnear
  exact hnear.mono (by norm_num)

theorem near_curb : Near 0.3275911 curb 1e-13 := by
  have hnear := near_of_isNear (c := 0.3275911) (k := 0.3275911) (by decide +kernel)
  push_cast at hnear
  exact hnear.mono (by norm_num)

theorem near_scaled (hx : Denotes x.unpacked a) (h0 : 0 ≤ a) (h1 : (a : ℝ) ≤ 1e25) :
    Near (scaled x) (a / root) ((a / root + 1) * 1e-13) := by
  have hroot := root_pos
  have hx := hx.abs
  rw [abs_of_nonneg h0] at hx
  have h0 : (0 : ℝ) ≤ a := by exact_mod_cast h0
  have hw : 0 ≤ (a : ℝ) / root := by positivity
  have hw' : (a : ℝ) / root ≤ 1e25 := by
    rw [div_le_iff₀ hroot]
    unfold root
    linarith
  have hdiv := hx.near.div near_root (k := a / root) (l := 1.4) (m := 2 * (a / root + 1))
    (by norm_num) (by norm_num [root]) (by rw [abs_of_nonneg hw])
    (by
      norm_num
      linarith) (by linarith) (by
        norm_num at hw' ⊢
        linarith)
  refine hdiv.mono ?_
  norm_num
  linarith

/-- Far out the exponential hides what the square is off by. -/
theorem abs_exp_sub_exp_le {b s : ℝ} (hs : 0 ≤ s) (hb : |b + s| ≤ (s + 1) * 1e-12) :
    |Real.exp b - Real.exp (-s)| ≤ 3e-12 := by
  have hexp (x : ℝ) (hx : 0 ≤ x) : Real.exp (-x) ≤ 1 / (x + 1) := by
    rw [Real.exp_neg, ← one_div]
    gcongr
    exact Real.add_one_le_exp x
  rcases le_or_gt ((s + 1) * 1e-12) 1 with hsmall | hlarge
  · -- As long as the square is off by less than one, the exponential is off by that share of
    -- itself.
    have hsplit : Real.exp b - Real.exp (-s) = Real.exp (-s) * (Real.exp (b + s) - 1) := by
      rw [mul_sub, mul_one, ← Real.exp_add]
      ring_nf
    have hgrowth := Real.abs_exp_sub_one_le (hb.trans hsmall)
    rw [hsplit, abs_mul, Real.abs_exp]
    calc Real.exp (-s) * |Real.exp (b + s) - 1| ≤ 1 / (s + 1) * (2 * ((s + 1) * 1e-12)) := by
          gcongr
          · exact hexp s hs
          · linarith
      _ = 2e-12 := by
          field_simp
          norm_num
      _ ≤ 3e-12 := by norm_num
  · -- Beyond that both are next to nothing.
    have hsum := (abs_le.mp hb).2
    have hb' : 0 ≤ -b := by
      norm_num at hsum
      linarith
    have hfirst := hexp (-b) hb'
    have hsecond := hexp s hs
    have hpos := Real.exp_pos b
    have hpos' := Real.exp_pos (-s)
    have hle : 1 / (-b + 1) ≤ 3e-12 := by
      rw [div_le_iff₀ (by linarith)]
      norm_num at hsum hlarge ⊢
      linarith
    have hle' : 1 / (s + 1) ≤ 3e-12 := by
      rw [div_le_iff₀ (by linarith)]
      norm_num at hlarge ⊢
      linarith
    rw [neg_neg] at hfirst
    rw [abs_le]
    constructor
    · linarith
    · linarith

section

variable {z : Binary64} {w : ℝ} (hz : Near z w ((w + 1) * 1e-13)) (h0 : 0 ≤ w) (h1 : w ≤ 1e25)

include hz h0 h1

theorem near_nearby : Near (nearby z) (nearness w) 2e-12 := by
  have hcurb : curb = 0.3275911 := rfl
  have hcw : 0 ≤ curb * w := mul_nonneg curb_pos.le h0
  have hcw' : curb * w ≤ w := mul_le_of_le_one_left h0 (by norm_num [hcurb])
  norm_num at h1
  -- Through product, sum and quotient, each with its own error.
  have hmul := near_curb.mul hz (a := 1) (b := 2 * (w + 1)) (m := 2 * (w + 1))
    (by norm_num [hcurb]) (by
      rw [abs_of_nonneg h0]
      norm_num
      linarith) (by linarith) (by linarith) (by
        norm_num
        linarith)
  have hadd := near_one.add (hmul.mono (e := (w + 1) * 4e-13) (by
      norm_num
      linarith)) (m := 3 * (w + 1)) (by
    rw [abs_of_nonneg hcw]
    norm_num
    linarith) (by linarith) (by
      norm_num
      linarith)
  have hdiv := near_one.div (hadd.mono (e := (w + 1) * 5e-13) (by
      norm_num
      linarith)) (k := 1) (l := 0.3 * (w + 1)) (m := 2) (by positivity)
    (by
      norm_num [hcurb]
      linarith) (by
        rw [one_div, ← nearness, abs_of_pos (nearness_mem h0).1]
        exact (nearness_mem h0).2) (by
          rw [zero_add, one_mul, mul_comm (w + 1), mul_div_mul_right _ _ (by positivity)]
          norm_num) (by norm_num) (by norm_num)
  rw [zero_add, one_mul, mul_comm (w + 1), mul_div_mul_right _ _ (by positivity), one_div] at hdiv
  exact hdiv.mono (by norm_num)

theorem near_tail : Near (coarseAt z * nearby z)
    (1e-11 * Coeffs.eval (0 :: coarse) (nearness w)) 1e-10 := by
  have hnear := near_nearby hz h0 h1
  obtain ⟨hpos, hle⟩ := nearness_mem h0
  obtain ⟨hpoly, hsize⟩ := near_polynomial 1.061405429
    [-1.453152027, 1.421413741, -0.284496736, 0.254829592] 1.061405429
    [-1.453152027, 1.421413741, -0.284496736, 0.254829592] 1 2e-12 5 4e-11 (by decide +kernel)
    (by decide +kernel) (r := nearness w) (by push_cast; exact hnear) (by
      rw [abs_of_pos hpos]
      push_cast
      exact hle)
  push_cast at hpoly hsize
  have hmul := hpoly.mul hnear (a := 6) (b := 2) (m := 12) (by linarith) (by
    rw [abs_of_pos hpos]
    linarith) (by norm_num) (by norm_num) (by norm_num)
  have hvalue : polynomial (1.061405429 : ℝ) (List.map (fun k : ℚ => (k : ℝ))
      [-1.453152027, 1.421413741, -0.284496736, 0.254829592]) (nearness w) * nearness w =
        1e-11 * Coeffs.eval (0 :: coarse) (nearness w) := by
    simp only [polynomial, List.map_cons, List.map_nil, List.foldl_cons, List.foldl_nil, coarse,
      Coeffs.eval_cons, Coeffs.eval_nil]
    push_cast
    ring
  rw [← hvalue]
  exact hmul.mono (by norm_num)

theorem near_exp (ht : t.Accurate) : Near (t.exp (-z * z)) (Real.exp (-(w * w))) 4e-12 := by
  norm_num at h1
  have hmul := hz.neg.mul hz (a := 2 * (w + 1)) (b := 2 * (w + 1)) (m := 4 * (w + 1) ^ 2)
    (by
      rw [abs_neg, abs_of_nonneg h0]
      norm_num
      linarith) (by
      rw [abs_of_nonneg h0]
      norm_num
      linarith) (by linarith) (by nlinarith) (by
        norm_num
        nlinarith)
  -- A negative square does not round to anything above zero.
  obtain ⟨ζ, hζ, -⟩ := id hz
  obtain ⟨b, hb, hle⟩ := hmul
  have hneg : b ≤ 0 := by
    refine (((hζ.negate.mul hζ).faithful hb) 0 representable_zero).2 ?_
    rw [neg_mul]
    exact neg_nonpos.mpr (mul_self_nonneg ζ)
  refine ((ht.exp _ b hb hneg).trans (abs_exp_sub_exp_le (mul_self_nonneg w) ?_)).mono (by norm_num)
  rw [neg_mul, sub_neg_eq_add] at hle
  refine hle.trans ?_
  norm_num
  nlinarith [sq_nonneg (w - 1)]

end

theorem near_share (ht : t.Accurate) (hx : Denotes x.unpacked a) (h0 : 0 ≤ a)
    (h1 : (a : ℝ) ≤ 1e25) : Near (2.0 * @cdf Binary64 t.scalar x - 1.0) (share coarse a) 1e-9 := by
  have hroot := root_pos
  have ha : (0 : ℝ) ≤ a := by exact_mod_cast h0
  have hw : 0 ≤ (a : ℝ) / root := by positivity
  have hw' : (a : ℝ) / root ≤ 1e25 := by
    rw [div_le_iff₀ hroot]
    unfold root
    linarith
  have hz := near_scaled hx h0 h1
  have htail := near_tail hz hw hw'
  have hexp := near_exp hz hw hw' ht
  -- On this side of zero the sign is one, and only that of a sum is left.
  have hsign : ¬ x < 0.0 := by
    rw [hx.lt_iff denotes_zero]
    exact not_lt.mpr h0
  rw [cdf_doubles, if_neg hsign]
  set v := 1e-11 * Coeffs.eval (0 :: coarse) (nearness (a / root))
  set e := Real.exp (-(a / root * (a / root)))
  obtain ⟨hv, hv'⟩ := coarse_mem hw
  have he : 0 ≤ e := Real.exp_nonneg _
  have he' : e ≤ 1 := Real.exp_le_one_iff.mpr (neg_nonpos.mpr (mul_self_nonneg _))
  have hve : 0 ≤ v * e := mul_nonneg hv he
  have hve' : v * e ≤ 1 := mul_le_one₀ hv' he he'
  have hproduct := htail.mul hexp (a := 2) (b := 2) (m := 4) (by rw [abs_of_nonneg hv]; linarith)
    (by rw [abs_of_nonneg he]; linarith) (by norm_num) (by norm_num) (by norm_num)
  have hshare := near_one.sub (hproduct.mono (e := 3e-10) (by norm_num)) (m := 4)
    (by rw [abs_one, abs_of_nonneg hve]; linarith) (by norm_num) (by norm_num)
  have hshare0 : 0 ≤ 1 - v * e := by linarith
  have hsigned := near_one.mul (hshare.mono (e := 4e-10) (by norm_num)) (a := 1) (b := 2) (m := 2)
    (by norm_num) (by rw [abs_of_nonneg hshare0]; linarith) (by norm_num) (by norm_num)
    (by norm_num)
  have hsum := near_one.add (hsigned.mono (e := 5e-10) (by norm_num)) (m := 4)
    (by rw [abs_one, one_mul, abs_of_nonneg hshare0]; linarith) (by norm_num) (by norm_num)
  have hhalf := near_half.mul (hsum.mono (e := 6e-10) (by norm_num)) (a := 1 / 2) (b := 3)
    (m := 2) (by norm_num) (by rw [one_mul, abs_of_nonneg (by linarith)]; linarith) (by norm_num)
    (by norm_num) (by norm_num)
  have htwice := near_two.mul (hhalf.mono (e := 4e-10) (by norm_num)) (a := 2) (b := 2) (m := 4)
    (by norm_num) (by rw [one_mul, abs_of_nonneg (by linarith)]; linarith) (by norm_num)
    (by norm_num) (by norm_num)
  have hcentred := (htwice.mono (e := 9e-10) (by norm_num)).sub near_one (m := 4)
    (by rw [one_mul, abs_of_nonneg (by linarith), abs_one]; linarith) (by norm_num) (by norm_num)
  have hvalue : 2 * (1 / 2 * (1 + 1 * (1 - v * e))) - 1 = share coarse a := by
    unfold share beyond
    ring
  rw [← hvalue]
  exact hcentred.mono (by norm_num)

/-! ## The quantile near the centre -/

def centreNum (q : Binary64) : Binary64 :=
  polynomial (-3.969683028665376e1) [2.209460984245205e2, -2.759285104469687e2,
    1.383577518672690e2, -3.066479806614716e1, 2.506628277459239e0] (q * q)

def centreDen (q : Binary64) : Binary64 :=
  polynomial (-5.447609879822406e1) [1.615858368580409e2, -1.556989798598866e2,
    6.680131188771972e1, -1.328068155288572e1, 1.0] (q * q)

theorem quantile_centre (t : Exponentials) {p : Binary64} (h0 : ¬ p < 0.02425)
    (h1 : p ≤ 1.0 - 0.02425) : @quantile Binary64 t.scalar p =
      centreNum (p - 0.5) * (p - 0.5) / centreDen (p - 0.5) := by
  unfold quantile
  dsimp only
  rw [if_neg h0, if_pos h1]
  rfl

section

variable {q : Binary64} {r : ℝ} (hq : Near q r 2e-15) (h0 : 0 ≤ r) (h1 : r ≤ 19031 / 40000)

include hq h0 h1

theorem near_square : Near (q * q) (r * r) 6e-15 ∧ |r * r| ≤ 0.2264 := by
  have hmul := hq.mul hq (a := 1) (b := 1) (m := 1) (by rw [abs_of_nonneg h0]; linarith)
    (by rw [abs_of_nonneg h0]; linarith) (by norm_num) le_rfl (by norm_num)
  refine ⟨hmul.mono (by norm_num), ?_⟩
  rw [abs_of_nonneg (mul_self_nonneg r)]
  norm_num
  nlinarith

theorem near_centreNum : Near (centreNum q) (1e-15 * Coeffs.eval Centre.num (r * r)) 3e-12 ∧
    |1e-15 * Coeffs.eval Centre.num (r * r)| ≤ 25 := by
  obtain ⟨hsquare, hsize⟩ := near_square hq h0 h1
  have hpoly := near_polynomial (-3.969683028665376e1) [2.209460984245205e2,
    -2.759285104469687e2, 1.383577518672690e2, -3.066479806614716e1, 2.506628277459239e0]
    (-3.969683028665376e1) [2.209460984245205e2, -2.759285104469687e2, 1.383577518672690e2,
    -3.066479806614716e1, 2.506628277459239e0] 0.2264 6e-15 25 3e-12 (by decide +kernel)
    (by decide +kernel) (by push_cast; exact hsquare) (by push_cast; exact hsize)
  have hvalue : 1e-15 * Coeffs.eval Centre.num (r * r) =
      polynomial ((-3.969683028665376e1 : ℚ) : ℝ) (List.map (fun k : ℚ => (k : ℝ))
        [2.209460984245205e2, -2.759285104469687e2, 1.383577518672690e2, -3.066479806614716e1,
          2.506628277459239e0]) (r * r) := by
    simp only [polynomial, List.map_cons, List.map_nil, List.foldl_cons, List.foldl_nil, Centre.num,
      Coeffs.eval_cons, Coeffs.eval_nil]
    push_cast
    ring
  rw [hvalue]
  push_cast at hpoly ⊢
  exact hpoly

theorem near_centreDen : Near (centreDen q) (1e-15 * Coeffs.eval Centre.den (r * r)) 2e-12 := by
  obtain ⟨hsquare, hsize⟩ := near_square hq h0 h1
  have hpoly := (near_polynomial (-5.447609879822406e1) [1.615858368580409e2,
    -1.556989798598866e2, 6.680131188771972e1, -1.328068155288572e1, 1.0]
    (-5.447609879822406e1) [1.615858368580409e2, -1.556989798598866e2, 6.680131188771972e1,
    -1.328068155288572e1, 1] 0.2264 6e-15 25 2e-12 (by decide +kernel)
    (by decide +kernel) (by push_cast; exact hsquare) (by push_cast; exact hsize)).1
  have hvalue : 1e-15 * Coeffs.eval Centre.den (r * r) =
      polynomial ((-5.447609879822406e1 : ℚ) : ℝ) (List.map (fun k : ℚ => (k : ℝ))
        [1.615858368580409e2, -1.556989798598866e2, 6.680131188771972e1, -1.328068155288572e1, 1])
          (r * r) := by
    simp only [polynomial, List.map_cons, List.map_nil, List.foldl_cons, List.foldl_nil, Centre.den,
      Coeffs.eval_cons, Coeffs.eval_nil]
    push_cast
    ring
  rw [hvalue]
  push_cast at hpoly ⊢
  exact hpoly

theorem near_centreProduct :
    Near (centreNum q * q) (1e-15 * Coeffs.eval Centre.num (r * r) * r) 1.6e-12 := by
  obtain ⟨hnum, hsize⟩ := near_centreNum hq h0 h1
  have hproduct := hnum.mul hq (a := 26) (b := 0.476) (m := 26) (by linarith)
    (by
      rw [abs_of_nonneg h0]
      norm_num
      linarith) (by norm_num) (by norm_num) (by norm_num)
  exact hproduct.mono (by norm_num)

theorem near_centre : Near (centreNum q * q / centreDen q) (Centre.value r) 3e-9 := by
  have hge := Centre.den_ge (mul_self_nonneg r) (Centre.mul_self_le h0 h1)
  have hvalue : 1e-15 * Coeffs.eval Centre.num (r * r) * r / (1e-15 * Coeffs.eval Centre.den (r * r)) =
      Centre.value r := by
    unfold Centre.value
    rw [mul_assoc, mul_div_mul_left _ _ (by norm_num), mul_comm (Coeffs.eval Centre.num (r * r))]
  have hquotient := (near_centreProduct hq h0 h1).div (near_centreDen hq h0 h1) (k := 2)
    (l := 0.0024) (m := 3) (by norm_num) (by
      norm_num at hge ⊢
      linarith) (by
        rw [hvalue, abs_of_nonneg (Centre.value_mem h0 h1).1]
        exact (Centre.value_mem h0 h1).2) (by norm_num) (by norm_num) (by norm_num)
  exact hvalue ▸ hquotient.mono (by norm_num)

/-- The sign is that of the exact quotient, since nothing comes near to zero but `q`. -/
theorem nonneg_centre (hq0 : (0.0 : Binary64) ≤ q) :
    (0.0 : Binary64) ≤ centreNum q * q / centreDen q := by
  have hr := Centre.mul_self_le h0 h1
  have hnum0 := Centre.num_ge (mul_self_nonneg r) hr
  have hden0 := Centre.den_ge (mul_self_nonneg r) hr
  norm_num at hnum0 hden0
  obtain ⟨a, ha, hea⟩ := (near_centreNum hq h0 h1).1
  obtain ⟨b, hb, heb⟩ := near_centreDen hq h0 h1
  obtain ⟨c, hc, -⟩ := near_centreProduct hq h0 h1
  have ha0 : (0 : ℝ) < a := by
    have hlow := (abs_le.mp hea).1
    norm_num at hlow
    linarith
  have hb0 : (0 : ℝ) < b := by
    have hlow := (abs_le.mp heb).1
    norm_num at hlow
    linarith
  have hc0 := nonneg_mul_of_pos ha (by exact_mod_cast ha0) hq0
  rw [denotes_zero.le_iff hc] at hc0
  have hb0 : 0 < b := by exact_mod_cast hb0
  exact (hc.div hb hb0.ne').nonneg (div_nonneg hc0 hb0.le)

end

/-! ## The quantile in a tail -/

def farNum (u : Binary64) : Binary64 :=
  polynomial (-7.784894002430293e-3) [-3.223964580411365e-1, -2.400758277161838e0,
    -2.549732539343734e0, 4.374664141464968e0, 2.938163982698783e0] u

def farDen (u : Binary64) : Binary64 :=
  polynomial 7.784695709041462e-3 [3.224671290700398e-1, 2.445134137142996e0,
    3.754408661907416e0, 1.0] u

theorem quantile_far (t : Exponentials) {p : Binary64} (h0 : ¬ p < 0.02425)
    (h1 : ¬ p ≤ 1.0 - 0.02425) : @quantile Binary64 t.scalar p =
      -farNum (Scalar.sqrt (-2.0 * t.log (1.0 - p))) /
        farDen (Scalar.sqrt (-2.0 * t.log (1.0 - p))) := by
  unfold quantile
  dsimp only
  rw [if_neg h0, if_neg h1]
  rfl

section

variable {u : Binary64} {r : ℝ} (hu : Near u r 3e-12) (h0 : 272 / 100 ≤ r) (h1 : r ≤ 9)

include hu h0 h1

theorem near_farNum : Near (farNum u) (-(1e-18 * Coeffs.eval Tail.num r)) 1e-8 := by
  have hpoly := (near_polynomial (-7.784894002430293e-3) [-3.223964580411365e-1,
    -2.400758277161838e0, -2.549732539343734e0, 4.374664141464968e0, 2.938163982698783e0]
    (-7.784894002430293e-3) [-3.223964580411365e-1, -2.400758277161838e0, -2.549732539343734e0,
    4.374664141464968e0, 2.938163982698783e0] 9 3e-12 10000 1e-8 (by decide +kernel)
    (by decide +kernel) (by push_cast; exact hu) (by
      rw [abs_of_nonneg (by linarith)]
      push_cast
      exact h1)).1
  have hvalue : -(1e-18 * Coeffs.eval Tail.num r) =
      polynomial ((-7.784894002430293e-3 : ℚ) : ℝ) (List.map (fun k : ℚ => (k : ℝ))
        [-3.223964580411365e-1, -2.400758277161838e0, -2.549732539343734e0, 4.374664141464968e0,
          2.938163982698783e0]) r := by
    simp only [polynomial, List.map_cons, List.map_nil, List.foldl_cons, List.foldl_nil, Tail.num,
      Coeffs.eval_cons, Coeffs.eval_nil]
    push_cast
    ring
  rw [hvalue]
  push_cast at hpoly ⊢
  exact hpoly

theorem near_farDen : Near (farDen u) (1e-18 * Coeffs.eval Tail.den r) 5e-10 := by
  have hpoly := (near_polynomial 7.784695709041462e-3 [3.224671290700398e-1,
    2.445134137142996e0, 3.754408661907416e0, 1.0] 7.784695709041462e-3 [3.224671290700398e-1,
    2.445134137142996e0, 3.754408661907416e0, 1] 9 3e-12 10000 5e-10 (by decide +kernel)
    (by decide +kernel) (by push_cast; exact hu) (by
      rw [abs_of_nonneg (by linarith)]
      push_cast
      exact h1)).1
  have hvalue : 1e-18 * Coeffs.eval Tail.den r =
      polynomial ((7.784695709041462e-3 : ℚ) : ℝ) (List.map (fun k : ℚ => (k : ℝ))
        [3.224671290700398e-1, 2.445134137142996e0, 3.754408661907416e0, 1]) r := by
    simp only [polynomial, List.map_cons, List.map_nil, List.foldl_cons, List.foldl_nil, Tail.den,
      Coeffs.eval_cons, Coeffs.eval_nil]
    push_cast
    ring
  rw [hvalue]
  push_cast at hpoly ⊢
  exact hpoly

theorem near_far : Near (-farNum u / farDen u) (Tail.value r) 3e-9 := by
  have hnum := (near_farNum hu h0 h1).neg
  rw [neg_neg] at hnum
  have hden := near_farDen hu h0 h1
  have hge := Tail.den_ge h0
  have hvalue : 1e-18 * Coeffs.eval Tail.num r / (1e-18 * Coeffs.eval Tail.den r) =
      Tail.value r := by
    unfold Tail.value
    rw [mul_div_mul_left _ _ (by norm_num)]
  have hquotient := hnum.div hden (k := 10) (l := 9) (m := 11) (by norm_num) (by
      norm_num at hge ⊢
      linarith) (by
        rw [hvalue, abs_of_nonneg (zero_le_one.trans (Tail.one_le_value h0))]
        exact Tail.value_le h0 h1) (by norm_num) (by norm_num) (by norm_num)
  rw [← hvalue]
  exact hquotient.mono (by norm_num)

end

/-! ## The quantile -/

/-- Little is lost where a double is taken in the place of a critical value. -/
theorem exists_share {z : Binary64} {v c : ℝ} (hz : Near z v 3e-9) (hz0 : (0.0 : Binary64) ≤ z)
    (h0 : 0 ≤ v) (h1 : v ≤ 10) (hv : |share coarse v - c| ≤ 2.9e-7) :
    ∃ b, Denotes z.unpacked b ∧ 0 ≤ b ∧ b ≤ 11 ∧ |share coarse b - c| ≤ 2.96e-7 := by
  obtain ⟨b, hb, herror⟩ := hz
  have hb0 : 0 ≤ b := (denotes_zero.le_iff hb).mp hz0
  have hstep := abs_share_sub_share_le h0 (Rat.cast_nonneg.mpr hb0)
  have hsum := abs_sub_le (share coarse b) (share coarse v) c
  have hupper := (abs_le.mp herror).2
  refine ⟨b, hb, hb0, ?_, ?_⟩
  · have hcast : (b : ℝ) ≤ 11 := by
      norm_num at hupper
      linarith
    exact_mod_cast hcast
  · norm_num at herror hv ⊢
    linarith

/-- What a double close to one leaves of it is neither tiny nor much. -/
theorem log_one_sub_mem {p : Binary64} (hp : Denotes p.unpacked a) (h0 : 9755 / 10000 ≤ a)
    (h1 : a < 1) : -37 ≤ Real.log (1 - a) ∧ Real.log (1 - a) ≤ -0.9 := by
  obtain ⟨m, hnonneg, -, hm⟩ := exists_one_sub (hp.representable p.fits_unpacked.isCanonical)
    (by linarith) h1.le
  have hpos : 0 < 1 - a := by linarith
  constructor
  · -- The double next below one is `2 ^ (-53)` away from it.
    have hunit : (2 : ℝ) ^ (-53 : Int) ≤ 1 - a := by
      have hone : 1 ≤ m := by
        by_contra hm0
        obtain rfl : m = 0 := by omega
        rw [hm] at hpos
        norm_num at hpos
      have hcast := congrArg (fun q : ℚ => (q : ℝ)) hm
      push_cast at hcast
      rw [hcast]
      exact le_mul_of_one_le_left (by positivity) (by exact_mod_cast hone)
    have hlog := Real.log_le_log (by positivity) hunit
    rw [Real.log_zpow] at hlog
    have htwo := Real.log_two_lt_d9
    push_cast at hlog
    linarith
  · have hlog := Real.log_le_sub_one_of_pos (x := 1 - (a : ℝ)) (by exact_mod_cast hpos)
    have ha := (Rat.cast_le (K := ℝ)).mpr h0
    push_cast at ha
    norm_num
    linarith

/-- The double of the root of the logarithm near the number. -/
theorem near_rootLog (ht : t.Accurate) {p : Binary64} (hp : Denotes p.unpacked a)
    (h0 : 9755 / 10000 ≤ a) (h1 : a < 1) :
    Near (Scalar.sqrt (-2.0 * t.log (1.0 - p))) √(-2 * Real.log (1 - a)) 3e-12 ∧
      √(-2 * Real.log (1 - a)) ≤ 9 := by
  obtain ⟨hleast, hmost⟩ := log_one_sub_mem hp h0 h1
  have hlog := ht.log _ _ (denotes_one_sub hp (by linarith) h1.le) (by linarith) (by linarith)
  push_cast at hlog
  have hscaled := near_two.neg.mul hlog (a := 2) (b := 40) (m := 80) (by norm_num)
    (by rw [abs_of_nonpos (by linarith)]; norm_num; linarith) (by norm_num) (by norm_num) (by norm_num)
  have hroot9 : √(-2 * Real.log (1 - a)) ≤ 9 := by
    rw [Real.sqrt_le_left (by norm_num)]
    linarith
  have hroot := (hscaled.mono (e := 2.1e-12) (by norm_num)).sqrt (by linarith) (by norm_num)
  refine ⟨hroot.mono ?_, hroot9⟩
  generalize √(-2 * Real.log (1 - a)) = u at hroot9
  norm_num
  linarith

theorem exists_quantile_centre (t : Exponentials) {p : Binary64} (hp : Denotes p.unpacked a)
    (h0 : 1 / 2 ≤ a) (h1 : (a : ℝ) - 1 / 2 ≤ 19031 / 40000) (hlow : ¬ p < 0.02425)
    (hcentre : p ≤ 1.0 - 0.02425) : ∃ b, Denotes (@quantile Binary64 t.scalar p).unpacked b ∧
      0 ≤ b ∧ b ≤ 11 ∧ |share coarse b - (2 * a - 1)| ≤ 2.96e-7 := by
  have hr0 : (0 : ℝ) ≤ a - 1 / 2 := by
    have hcast := (Rat.cast_le (K := ℝ)).mpr h0
    push_cast at hcast
    linarith
  have hq := hp.near.sub near_half (m := 2)
    (by
      rw [abs_of_nonneg (by linarith)]
      norm_num
      linarith) (by norm_num) (by norm_num)
  have hq := hq.mono (e := 2e-15) (by norm_num)
  have hq0 := (hp.sub denotes_half).nonneg (by linarith)
  obtain ⟨hv0, hv1⟩ := Centre.value_mem hr0 h1
  have hshare := Centre.abs_share_coarse_value_sub_le hr0 h1
  rw [mul_sub, mul_one_div_cancel two_ne_zero] at hshare
  rw [quantile_centre t hlow hcentre]
  exact exists_share (near_centre hq hr0 h1) (nonneg_centre hq hr0 h1 hq0) hv0 (by linarith) hshare

theorem exists_quantile_tail (ht : t.Accurate) {p : Binary64} (hp : Denotes p.unpacked a)
    (h0 : (0.97550 : ℝ) ≤ a) (h1 : a < 1) (hlow : ¬ p < 0.02425) (htail : ¬ p ≤ 1.0 - 0.02425) :
    ∃ b, Denotes (@quantile Binary64 t.scalar p).unpacked b ∧
      0 ≤ b ∧ b ≤ 11 ∧ |share coarse b - (2 * a - 1)| ≤ 2.96e-7 := by
  have ha1 : (a : ℝ) < 1 := by exact_mod_cast h1
  have hleft : 9755 / 10000 ≤ a := by
    rw [← Rat.cast_le (K := ℝ)]
    norm_num at h0 ⊢
    exact h0
  obtain ⟨hroot, hroot9⟩ := near_rootLog ht hp hleft h1
  obtain ⟨hu, hexp⟩ := Tail.root_mem (y := 1 - a) (by linarith) (by
    norm_num at h0 ⊢
    linarith)
  have hshare := Tail.abs_share_coarse_value_sub_le hu
  have hsame : (1 : ℝ) - 2 * (1 - a) = 2 * a - 1 := by ring
  rw [hexp, hsame] at hshare
  have hvalue := near_far hroot hu hroot9
  have hone := Tail.one_le_value hu
  rw [quantile_far t hlow htail]
  exact exists_share hvalue (hvalue.zero_le (le_trans (by norm_num) hone)) (by linarith)
    (Tail.value_le hu hroot9) hshare

theorem exists_quantile (ht : t.Accurate) {p : Binary64} (hp : Denotes p.unpacked a)
    (h0 : 1 / 2 ≤ a) (h1 : a < 1) : ∃ b, Denotes (@quantile Binary64 t.scalar p).unpacked b ∧
      0 ≤ b ∧ b ≤ 11 ∧ |share coarse b - (2 * a - 1)| ≤ 2.96e-7 := by
  obtain ⟨b, hb, hbound⟩ := near_of_isNear (c := 1.0 - 0.02425) (k := 0.97575) (by decide +kernel)
  obtain ⟨hlow, hhigh⟩ := abs_le.mp hbound
  norm_num at hlow hhigh
  have hlow' : ¬ p < 0.02425 := by
    obtain ⟨c, hc, hbound⟩ := near_of_isNear (c := 0.02425) (k := 0.02425) (by decide +kernel)
    have hsmall := (abs_le.mp hbound).2
    have ha0 := (Rat.cast_le (K := ℝ)).mpr h0
    rw [hp.lt_iff hc, not_lt, ← Rat.cast_le (K := ℝ)]
    push_cast at ha0
    norm_num at hsmall
    linarith
  -- The doubles part at the double of the bound, so either formula is used a little too far.
  by_cases hcentre : p ≤ 1.0 - 0.02425
  · have hle := (Rat.cast_le (K := ℝ)).mpr ((hp.le_iff hb).mp hcentre)
    exact exists_quantile_centre t hp h0 (by linarith) hlow' hcentre
  · have hlt := (Rat.cast_lt (K := ℝ)).mpr (not_le.mp (mt (hp.le_iff hb).mpr hcentre))
    exact exists_quantile_tail ht hp (by norm_num; linarith) h1 hlow' hcentre

end Normal

end Fickle

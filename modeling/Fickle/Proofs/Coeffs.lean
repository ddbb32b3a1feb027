import Mathlib
import Fickle.Power

/-! # Polynomials by their coefficients

A polynomial is the list of its coefficients, which are whole, the constant one first. Whether it is
negative somewhere on an interval is found out by computing: mapped onto the positive numbers, the
interval leaves a polynomial with no negative coefficient.
-/

namespace Fickle

/-- The coefficients of a polynomial, the constant one first. -/
abbrev Coeffs := List ℤ

namespace Coeffs

/-- The value of the polynomial at `x`. -/
noncomputable def eval : Coeffs → ℝ → ℝ
  | [], _ => 0
  | c :: p, x => c + x * eval p x

def add : Coeffs → Coeffs → Coeffs
  | [], q => q
  | p, [] => p
  | a :: p, b :: q => (a + b) :: add p q

def scale (c : ℤ) (p : Coeffs) : Coeffs := p.map (c * ·)

def sub (p q : Coeffs) : Coeffs := add p (scale (-1) q)

def mul : Coeffs → Coeffs → Coeffs
  | [], _ => []
  | a :: p, q => add (scale a q) (0 :: mul p q)

def derivative : Coeffs → Coeffs
  | [] => []
  | _ :: p => add p (0 :: derivative p)

/-- The polynomial with `x + a` in the place of `x`. -/
def shift (a : ℤ) : Coeffs → Coeffs
  | [] => []
  | c :: p =>
    let q := shift a p
    add (c :: q) (scale a q)

/-- The polynomial with `w * x` in the place of `x`, times `k`. -/
def stretch (w k : ℤ) : Coeffs → Coeffs
  | [] => []
  | c :: p => k * c :: stretch w (k * w) p

/-- The polynomial with `x / n` in the place of `x`, times a power of `n`. -/
def refine (n : ℕ) : Coeffs → Coeffs
  | [] => []
  | c :: p => c * (n ^ p.length : ℕ) :: refine n p

variable {p q : Coeffs} {x y : ℝ}

/-! ## Values -/

@[simp]
theorem eval_nil (x : ℝ) : eval [] x = 0 := rfl

@[simp]
theorem eval_cons (c : ℤ) (p : Coeffs) (x : ℝ) : eval (c :: p) x = c + x * eval p x := rfl

@[simp]
theorem eval_add (p q : Coeffs) (x : ℝ) : eval (add p q) x = eval p x + eval q x := by
  induction p generalizing q with
  | nil => simp [add]
  | cons a p ih =>
    cases q with
    | nil => simp [add]
    | cons b q =>
      simp only [add, eval_cons, ih]
      push_cast
      ring

@[simp]
theorem eval_scale (c : ℤ) (p : Coeffs) (x : ℝ) : eval (scale c p) x = c * eval p x := by
  induction p with
  | nil => simp [scale]
  | cons a p ih =>
    show ((c * a : ℤ) : ℝ) + x * eval (scale c p) x = _
    rw [ih, eval_cons]
    push_cast
    ring

@[simp]
theorem eval_sub (p q : Coeffs) (x : ℝ) : eval (sub p q) x = eval p x - eval q x := by
  rw [sub, eval_add, eval_scale]
  push_cast
  ring

@[simp]
theorem eval_mul (p q : Coeffs) (x : ℝ) : eval (mul p q) x = eval p x * eval q x := by
  induction p with
  | nil => simp [mul]
  | cons a p ih =>
    simp only [mul, eval_add, eval_scale, eval_cons, ih]
    push_cast
    ring

theorem eval_shift (a : ℤ) (p : Coeffs) (x : ℝ) : eval (shift a p) x = eval p (x + a) := by
  induction p with
  | nil => rfl
  | cons c p ih =>
    simp only [shift, eval_add, eval_cons, eval_scale, ih]
    ring

theorem eval_stretch (w k : ℤ) (p : Coeffs) (x : ℝ) :
    eval (stretch w k p) x = k * eval p (w * x) := by
  induction p generalizing k with
  | nil => simp [stretch]
  | cons c p ih =>
    simp only [stretch, eval_cons, ih]
    push_cast
    ring

theorem pow_mul_eval (n : ℕ) (p : Coeffs) (x : ℝ) :
    (n : ℝ) ^ p.length * eval p x = n * eval (refine n p) (n * x) := by
  induction p with
  | nil => simp [refine]
  | cons c p ih =>
    rw [refine, eval_cons, eval_cons, List.length_cons, pow_succ', mul_assoc (n : ℝ), mul_add,
      mul_left_comm _ x, ih]
    push_cast
    ring

theorem eval_append (p : Coeffs) (c : ℤ) (x : ℝ) :
    eval (p ++ [c]) x = eval p x + x ^ p.length * c := by
  induction p with
  | nil => simp
  | cons a p ih =>
    rw [List.cons_append, eval_cons, ih, eval_cons, List.length_cons]
    ring

/-- Turned around, a polynomial takes inverse numbers. -/
theorem pow_mul_eval_reverse (h : y * x = 1) (p : Coeffs) :
    y ^ p.length * eval p x = y * eval p.reverse y := by
  induction p with
  | nil => simp
  | cons c p ih =>
    have hrest : y ^ (p.length + 1) * (x * eval p x) = y ^ p.length * eval p x :=
      calc y ^ (p.length + 1) * (x * eval p x) = y * x * (y ^ p.length * eval p x) := by ring
        _ = y ^ p.length * eval p x := by rw [h, one_mul]
    rw [eval_cons, List.length_cons, mul_add, hrest, ih, List.reverse_cons, eval_append,
      List.length_reverse]
    ring

theorem hasDerivAt_eval (p : Coeffs) (x : ℝ) :
    HasDerivAt (eval p) (eval (derivative p) x) x := by
  induction p with
  | nil => exact hasDerivAt_const x 0
  | cons c p ih =>
    have hproduct := ((hasDerivAt_id' x).mul ih).const_add (c : ℝ)
    have hslope : 1 * eval p x + x * eval (derivative p) x = eval (derivative (c :: p)) x := by
      simp [derivative]
    exact hslope ▸ hproduct

/-! ## Signs -/

theorem eval_nonneg_of_coeffs (h : ∀ c ∈ p, 0 ≤ c) (hx : 0 ≤ x) : 0 ≤ eval p x := by
  induction p with
  | nil => exact le_rfl
  | cons c p ih =>
    obtain ⟨hc, hp⟩ := List.forall_mem_cons.mp h
    have hc : (0 : ℝ) ≤ c := by exact_mod_cast hc
    have hrest := ih hp
    rw [eval_cons]
    positivity

/-- The polynomial is not negative on the way from zero to one. -/
def isNonnegOnUnit (p : Coeffs) : Bool :=
  decide (0 ≤ p.headD 0) && (shift 1 p.reverse).all (0 ≤ ·)

/-- The polynomial is not negative on the way from `a / n` to `b / n`. -/
def isNonneg (p : Coeffs) (n : ℕ) (a b : ℤ) : Bool :=
  isNonnegOnUnit (stretch (b - a) 1 (shift a (refine n p)))

theorem eval_nonneg_on_unit (h : isNonnegOnUnit p = true) (h0 : 0 ≤ x) (h1 : x ≤ 1) :
    0 ≤ eval p x := by
  obtain ⟨hhead, hcoeffs⟩ := Bool.and_eq_true_iff.mp h
  rcases h0.eq_or_lt with rfl | hpos
  · have hhead : (0 : ℝ) ≤ (p.headD 0 : ℤ) := by exact_mod_cast of_decide_eq_true hhead
    cases p with
    | nil => exact le_rfl
    | cons c p => simpa using hhead
  · have hinv : x⁻¹ * x = 1 := inv_mul_cancel₀ hpos.ne'
    have hbeyond : 0 ≤ eval p.reverse x⁻¹ := by
      have hshift := eval_shift 1 p.reverse (x⁻¹ - 1)
      rw [Int.cast_one, sub_add_cancel] at hshift
      rw [← hshift]
      refine eval_nonneg_of_coeffs (fun c hc => ?_) ?_
      · exact of_decide_eq_true (List.all_eq_true.mp hcoeffs c hc)
      · exact sub_nonneg.mpr ((one_le_inv₀ hpos).mpr h1)
    have hpow : 0 ≤ x⁻¹ ^ p.length * eval p x := by
      rw [pow_mul_eval_reverse hinv]
      positivity
    exact nonneg_of_mul_nonneg_right hpow (by positivity)

theorem eval_nonneg {n : ℕ} {a b : ℤ} (hn : 0 < n) (h : isNonneg p n a b = true)
    (ha : a / n ≤ x) (hb : x ≤ b / n) : 0 ≤ eval p x := by
  have hpos : (0 : ℝ) < n := Nat.cast_pos.mpr hn
  rw [div_le_iff₀ hpos, mul_comm] at ha
  rw [le_div_iff₀ hpos, mul_comm] at hb
  -- The place of `x` on the way from `a` to `b`.
  obtain ⟨s, hs0, hs1, hs⟩ : ∃ s : ℝ, 0 ≤ s ∧ s ≤ 1 ∧ (b - a : ℤ) * s + a = n * x := by
    rcases (ha.trans hb).eq_or_lt with heq | hlt
    · exact ⟨0, le_rfl, zero_le_one, by rw [mul_zero, zero_add]; exact le_antisymm ha (heq ▸ hb)⟩
    · have hwidth : (0 : ℝ) < b - a := sub_pos.mpr hlt
      refine ⟨(n * x - a) / (b - a), div_nonneg (by linarith) hwidth.le, ?_, ?_⟩
      · rw [div_le_one hwidth]
        linarith
      · push_cast
        rw [mul_div_cancel₀ _ hwidth.ne', sub_add_cancel]
  have hunit := eval_nonneg_on_unit h hs0 hs1
  rw [eval_stretch, eval_shift, hs, Int.cast_one, one_mul] at hunit
  have hpow : 0 ≤ (n : ℝ) ^ p.length * eval p x := by
    rw [pow_mul_eval]
    positivity
  exact nonneg_of_mul_nonneg_right hpow (by positivity)

theorem eval_pos {n : ℕ} {a b : ℤ} (hn : 0 < n) (h : isNonneg (sub p [1]) n a b = true)
    (ha : a / n ≤ x) (hb : x ≤ b / n) : 0 < eval p x := by
  have hsub := eval_nonneg hn h ha hb
  simp only [eval_sub, eval_cons, eval_nil, mul_zero, add_zero, Int.cast_one] at hsub
  linarith

end Coeffs

end Fickle

import Mathlib.Tactic.Positivity
import Fickle.Proofs.Binary64.Root
import Fickle.Proofs.Binary64.Truncation

/-! # Doubles near real numbers

What a formula gives on doubles comes close to what it gives on real numbers. Errors are carried from
operation to operation, and what is lost in each of them is small beside the largest number that it
can meet with.
-/

open Float.Model Float.Model.UnpackedFloat

namespace Fickle.Binary64

/-- The double stands for a fraction that is no further than `d` from a number. -/
def Near (x : Binary64) (r d : ℝ) : Prop := ∃ a : ℚ, Denotes x.unpacked a ∧ |(a : ℝ) - r| ≤ d

variable {x y : Binary64} {r s d e m : ℝ} {q : ℚ}

theorem Denotes.near (h : Denotes x.unpacked q) : Near x q 0 :=
  ⟨q, h, by rw [sub_self, abs_zero]⟩

theorem near_one : Near 1.0 1 0 := by
  have hone := denotes_one.near
  rwa [Rat.cast_one] at hone

theorem near_half : Near 0.5 (1 / 2) 0 := by
  have hhalf := denotes_half.near
  push_cast at hhalf
  exact hhalf

theorem near_two : Near 2.0 2 0 := by
  have htwo := denotes_two.near
  rwa [Rat.cast_ofNat] at htwo

theorem Near.nonneg (h : Near x r d) : 0 ≤ d := by
  obtain ⟨a, -, ha⟩ := h
  exact (abs_nonneg _).trans ha

theorem Near.zero_le (h : Near x r d) (hle : d ≤ r) : (0.0 : Binary64) ≤ x := by
  obtain ⟨a, hx, ha⟩ := h
  have hlow : (0 : ℝ) ≤ a := by linarith [(abs_le.mp ha).1]
  rw [denotes_zero.le_iff hx]
  exact_mod_cast hlow

theorem Near.mono (h : Near x r d) (hle : d ≤ e) : Near x r e := by
  obtain ⟨a, hx, ha⟩ := h
  exact ⟨a, hx, ha.trans hle⟩

theorem Near.trans (h : Near x r d) (hle : |r - s| ≤ e) : Near x s (d + e) := by
  obtain ⟨a, hx, ha⟩ := h
  exact ⟨a, hx, (abs_sub_le _ _ _).trans (add_le_add ha hle)⟩

/-- What is rounded is off by little beside any bound of it that is one at least. -/
theorem Rounds.near (h : Rounds x q) (hq : |(q : ℝ)| ≤ m) (h1 : 1 ≤ m) (hm : m ≤ 1e60) :
    Near x q (m * 1e-15) := by
  have hsize : |q| ≤ 2 ^ ((200 : Nat) : Int) := by
    have hle := hq.trans hm
    have hpow : (1e60 : ℝ) ≤ ((2 ^ 200 : ℚ) : ℝ) := by norm_num
    rw [zpow_natCast]
    exact_mod_cast hle.trans hpow
  have hlimit : (2 : ℚ) ^ ((200 : Nat) : Int) < beyond := by
    unfold beyond
    rw [zpow_natCast, ← pow_add]
    exact pow_lt_pow_right₀ one_lt_two (by decide)
  obtain ⟨a, hfaithful, hx, -⟩ := h.denotes (representable_two_zpow (by decide)) hlimit hsize
  refine ⟨a, hx, ?_⟩
  have herror : |a - q| ≤ |q| / 2 ^ 52 + 2 ^ (-1074 : Int) := by
    rcases le_total 0 q with hpos | hneg
    · rw [abs_of_nonneg hpos]
      exact hfaithful.error_le hpos
    · have hneg := hfaithful.neg.error_le (neg_nonneg.mpr hneg)
      rwa [neg_sub_neg, abs_sub_comm, ← abs_of_nonpos (by assumption)] at hneg
  have hunit : (2 : ℚ) ^ (-1074 : Int) ≤ 2 ^ (-60 : Int) :=
    zpow_le_zpow_right₀ one_le_two (by decide)
  have herror := (Rat.cast_le (K := ℝ)).mpr (herror.trans (add_le_add_right hunit _))
  push_cast at herror
  norm_num at herror ⊢
  linarith

theorem abs_le_of_abs_sub_le {a : ℝ} (h : |a - r| ≤ d) : |a| ≤ |r| + d := by
  have hsum := abs_add_le (a - r) r
  rw [sub_add_cancel] at hsum
  linarith

theorem Near.add (hx : Near x r d) (hy : Near y s e) (hm : |r| + d + (|s| + e) ≤ m) (h1 : 1 ≤ m)
    (hmax : m ≤ 1e60) : Near (x + y) (r + s) (d + e + m * 1e-15) := by
  obtain ⟨a, hx, ha⟩ := hx
  obtain ⟨b, hy, hb⟩ := hy
  have hsize : |((a + b : ℚ) : ℝ)| ≤ m := by
    rw [Rat.cast_add]
    exact (abs_add_le _ _).trans (le_trans (add_le_add (abs_le_of_abs_sub_le ha)
      (abs_le_of_abs_sub_le hb)) hm)
  have hsum : |((a + b : ℚ) : ℝ) - (r + s)| ≤ d + e := by
    rw [Rat.cast_add, add_sub_add_comm]
    exact (abs_add_le _ _).trans (add_le_add ha hb)
  exact (((hx.add hy).near hsize h1 hmax).trans hsum).mono (add_comm _ _).le

theorem Near.neg (hx : Near x r d) : Near (-x) (-r) d := by
  obtain ⟨a, hx, ha⟩ := hx
  refine ⟨-a, hx.negate, ?_⟩
  rwa [Rat.cast_neg, neg_sub_neg, abs_sub_comm]

theorem Near.sub (hx : Near x r d) (hy : Near y s e) (hm : |r| + d + (|s| + e) ≤ m) (h1 : 1 ≤ m)
    (hmax : m ≤ 1e60) : Near (x - y) (r - s) (d + e + m * 1e-15) := by
  rw [Binary64.sub_eq_add_neg, sub_eq_add_neg]
  exact hx.add hy.neg (by rwa [abs_neg]) h1 hmax

theorem Near.mul {a b : ℝ} (hx : Near x r d) (hy : Near y s e) (ha : |r| + d ≤ a)
    (hb : |s| + e ≤ b) (hm : a * b ≤ m) (h1 : 1 ≤ m) (hmax : m ≤ 1e60) :
    Near (x * y) (r * s) (a * e + b * d + m * 1e-15) := by
  have he := hy.nonneg
  obtain ⟨u, hx, hu⟩ := hx
  obtain ⟨v, hy, hv⟩ := hy
  have hu' := (abs_le_of_abs_sub_le hu).trans ha
  have ha0 := (abs_nonneg _).trans hu'
  have hs : |s| ≤ b := by linarith
  have hb0 := (abs_nonneg s).trans hs
  have hsize : |((u * v : ℚ) : ℝ)| ≤ m := by
    rw [Rat.cast_mul, abs_mul]
    exact (mul_le_mul hu' ((abs_le_of_abs_sub_le hv).trans hb) (abs_nonneg _) ha0).trans hm
  have hproduct : |((u * v : ℚ) : ℝ) - r * s| ≤ a * e + b * d := by
    have hsplit : ((u * v : ℚ) : ℝ) - r * s = u * (v - s) + s * (u - r) := by
      push_cast
      ring
    rw [hsplit]
    refine (abs_add_le _ _).trans ?_
    rw [abs_mul, abs_mul]
    gcongr
  exact (((hx.mul hy).near hsize h1 hmax).trans hproduct).mono (add_comm _ _).le

/-- The divisor keeps away from zero by `l`, and the quotient is at most `k`. -/
theorem Near.div {k l : ℝ} (hx : Near x r d) (hy : Near y s e) (hl : 0 < l) (hs : l + e ≤ s)
    (hk : |r / s| ≤ k) (hm : k + (d + k * e) / l ≤ m) (h1 : 1 ≤ m) (hmax : m ≤ 1e60) :
    Near (x / y) (r / s) ((d + k * e) / l + m * 1e-15) := by
  have he := hy.nonneg
  obtain ⟨a, hx, ha⟩ := hx
  obtain ⟨b, hy, hb⟩ := hy
  have hb' : l ≤ b := by linarith [(abs_le.mp hb).1]
  have hpos : (0 : ℝ) < b := hl.trans_le hb'
  have hquotient : |((a / b : ℚ) : ℝ) - r / s| ≤ (d + k * e) / l := by
    have hs : s ≠ 0 := by linarith
    have hsplit : ((a / b : ℚ) : ℝ) - r / s = ((a - r) - r / s * (b - s)) / b := by
      push_cast
      field_simp
      ring
    rw [hsplit, abs_div, abs_of_pos hpos]
    have hnum : |a - r - r / s * (b - s)| ≤ d + k * e := by
      refine (abs_sub _ _).trans ?_
      rw [abs_mul]
      gcongr
      exact (abs_nonneg _).trans hk
    have hnum0 := (abs_nonneg _).trans hnum
    gcongr
  have hne : b ≠ 0 := by
    rintro rfl
    simp at hpos
  have hsize := (abs_le_of_abs_sub_le hquotient).trans ((add_le_add_left hk _).trans hm)
  exact (((hx.div hy hne).near hsize h1 hmax).trans hquotient).mono (add_comm _ _).le

theorem Near.sqrt (hx : Near x r d) (h1 : 1 ≤ r) (hd : d < 1) :
    Near (Scalar.sqrt x) √r (d + (√r + d) * 1e-15) := by
  have hd0 := hx.nonneg
  obtain ⟨a, hx, ha⟩ := hx
  have hpos : (0 : ℝ) < a := by linarith [(abs_le.mp ha).1]
  obtain ⟨b, hb, herror⟩ := hx.sqrt (by exact_mod_cast hpos)
  have hroot : |√a - √r| ≤ d := by
    have hone : 1 ≤ √r := Real.one_le_sqrt.mpr h1
    have hnonneg := Real.sqrt_nonneg (a : ℝ)
    have hsplit : (√a - √r) * (√a + √r) = a - r := by
      rw [sub_mul, mul_add, mul_add, Real.mul_self_sqrt hpos.le, Real.mul_self_sqrt (by linarith)]
      ring
    have habs : |√a - √r| * (√a + √r) ≤ d := by
      rw [← abs_of_nonneg (by linarith : 0 ≤ √a + √r), ← abs_mul, hsplit]
      exact ha
    exact le_trans (le_mul_of_one_le_right (abs_nonneg _) (by linarith)) habs
  refine ⟨b, hb, (abs_sub_le _ _ _).trans ((add_le_add herror hroot).trans ?_)⟩
  have hnonneg := Real.sqrt_nonneg r
  have hsize := abs_le_of_abs_sub_le hroot
  rw [abs_of_nonneg (Real.sqrt_nonneg _), abs_of_nonneg (Real.sqrt_nonneg _)] at hsize
  norm_num
  linarith

/-! ## From one half to one -/

section

variable {a : ℚ}

/-- From one half on doubles have a unit in common. -/
theorem exists_one_sub (h : Representable a) (h0 : 1 / 2 ≤ a) (h1 : a ≤ 1) :
    ∃ m : Int, 0 ≤ m ∧ m ≤ 2 ^ 53 ∧ 1 - a = m * 2 ^ (-53 : Int) := by
  have hunits : ∃ m : Int, 1 - a = m * 2 ^ (-53 : Int) := by
    obtain ⟨n, e, hn, -, ha⟩ := h
    rcases lt_or_ge e (-53) with he | he
    · have hhalf : a = 1 / 2 := by
        refine le_antisymm ?_ h0
        rw [ha]
        exact (le_of_exponent_lt hn he).trans (by norm_num)
      exact ⟨2 ^ 52, by rw [hhalf]; norm_num⟩
    · obtain ⟨k, hk⟩ := Int.le.dest he
      refine ⟨2 ^ 53 - n * 2 ^ k, ?_⟩
      rw [ha, ← hk, zpow_add₀ two_ne_zero, zpow_natCast]
      push_cast
      rw [sub_mul]
      norm_num
      ring
  obtain ⟨m, hm⟩ := hunits
  refine ⟨m, ?_, ?_, hm⟩
  · have hlow : (0 : ℚ) ≤ m := by
      norm_num at hm
      linarith
    exact_mod_cast hlow
  · have hhigh : (m : ℚ) ≤ 2 ^ 53 := by
      norm_num at hm ⊢
      linarith
    exact_mod_cast hhigh

theorem denotes_one_sub {p : Binary64} (hp : Denotes p.unpacked a) (h0 : 1 / 2 ≤ a) (h1 : a ≤ 1) :
    Denotes (1.0 - p).unpacked (1 - a) := by
  obtain ⟨m, hlow, hhigh, hm⟩ :=
    exists_one_sub (hp.representable p.fits_unpacked.isCanonical) h0 h1
  refine (denotes_one.sub hp).denotes_self ?_ (lt_beyond ?_)
  · rw [hm]
    exact representable_intCast_mul (by omega) (by decide)
  · rw [abs_of_nonneg (by linarith)]
    norm_num
    linarith

end

/-! ## Constants -/

/-- The double is the fraction as it is written. -/
def isNear (c : Binary64) (k : ℚ) : Bool :=
  Scalar.isFinite c && decide (|c.fraction - k| ≤ |k| * 1e-15)

theorem near_of_isNear {c : Binary64} {k : ℚ} (h : isNear c k = true) :
    Near c k (|(k : ℝ)| * 1e-15) := by
  obtain ⟨hfinite, hle⟩ := Bool.and_eq_true_iff.mp h
  refine ⟨_, denotes_fraction hfinite, ?_⟩
  have hcast := (Rat.cast_le (K := ℝ)).mpr (of_decide_eq_true hle)
  push_cast at hcast
  exact hcast

/-! ## Numbers that are cut -/

/-- A number cut to forty-two binary places. -/
noncomputable def cut (r : ℝ) : Binary64 :=
  Scalar.ofInt ⌊r * ((2 ^ 42 : ℕ) : ℝ)⌋ / Scalar.ofInt ((2 ^ 42 : ℕ) : ℤ)

theorem denotes_cut {r : ℝ} (h : |r| ≤ 1000) :
    Denotes (cut r).unpacked (⌊r * ((2 ^ 42 : ℕ) : ℝ)⌋ / ((2 ^ 42 : ℕ) : ℤ)) := by
  have hlow := Int.floor_le (r * ((2 ^ 42 : ℕ) : ℝ))
  have hhigh := Int.lt_floor_add_one (r * ((2 ^ 42 : ℕ) : ℝ))
  obtain ⟨hr0, hr1⟩ := abs_le.mp h
  unfold cut
  generalize ⌊r * ((2 ^ 42 : ℕ) : ℝ)⌋ = k at *
  have hk : k.natAbs ≤ 2 ^ 53 := by
    have hk0 : (-2 ^ 53 : ℝ) ≤ k := by
      push_cast at hlow hhigh
      linarith
    have hk1 : (k : ℝ) ≤ 2 ^ 53 := by
      push_cast at hlow hhigh
      linarith
    have hk0' : -2 ^ 53 ≤ k := by exact_mod_cast hk0
    have hk1' : k ≤ 2 ^ 53 := by exact_mod_cast hk1
    omega
  have hsize : |(k : ℚ)| ≤ 2 ^ 53 := by
    rw [← Int.cast_abs, Int.abs_eq_natAbs, Int.cast_natCast]
    exact_mod_cast hk
  have hnum : Denotes (Scalar.ofInt k : Binary64).unpacked k :=
    (rounds_ofInt k).denotes_self (representable_intCast hk) (lt_beyond (hsize.trans (by norm_num)))
  have hden : Denotes (Scalar.ofInt ((2 ^ 42 : ℕ) : ℤ) : Binary64).unpacked ((2 ^ 42 : ℕ) : ℤ) :=
    (rounds_ofInt _).denotes_self (representable_intCast (by decide)) (lt_beyond (by norm_num))
  -- Whole numbers of that size and their quotients by powers of two are doubles.
  exact (hnum.div hden (by norm_num)).denotes_self
    (by
      have hplaces := representable_intCast_mul hk (e := -42) (by decide)
      rwa [zpow_neg, ← div_eq_mul_inv] at hplaces)
    (lt_beyond (by
      rw [abs_div, div_le_iff₀ (by norm_num)]
      exact hsize.trans (by norm_num)))

theorem near_cut {r : ℝ} (h : |r| ≤ 1000) : Near (cut r) r 1e-12 := by
  have hlow := Int.floor_le (r * ((2 ^ 42 : ℕ) : ℝ))
  have hhigh := Int.lt_floor_add_one (r * ((2 ^ 42 : ℕ) : ℝ))
  have hcut := denotes_cut h
  generalize ⌊r * ((2 ^ 42 : ℕ) : ℝ)⌋ = k at *
  refine ⟨_, hcut, ?_⟩
  push_cast at hlow hhigh ⊢
  rw [abs_le]
  constructor
  · norm_num at hhigh ⊢
    linarith
  · norm_num at hlow ⊢
    linarith

theorem spans_cut {r : ℝ} {m : ℕ} (h0 : 0 ≤ r) (hr : r ≤ m) (hm : m ≤ 1000) :
    Spans 0 m (cut r) := by
  have hm' : (m : ℝ) ≤ 1000 := by exact_mod_cast hm
  have hcut := denotes_cut (abs_le.mpr ⟨by linarith, hr.trans hm'⟩)
  have hlow : 0 ≤ ⌊r * ((2 ^ 42 : ℕ) : ℝ)⌋ := Int.floor_nonneg.mpr (by positivity)
  have hhigh : (⌊r * ((2 ^ 42 : ℕ) : ℝ)⌋ : ℝ) ≤ m * ((2 ^ 42 : ℕ) : ℝ) :=
    (Int.floor_le _).trans (mul_le_mul_of_nonneg_right hr (by positivity))
  generalize ⌊r * ((2 ^ 42 : ℕ) : ℝ)⌋ = k at *
  have hhigh' : (k : ℚ) ≤ m * ((2 ^ 42 : ℕ) : ℤ) := by exact_mod_cast hhigh
  refine ⟨_, hcut, div_nonneg (by exact_mod_cast hlow) (by positivity), ?_⟩
  rwa [div_le_iff₀ (by norm_num)]

end Fickle.Binary64

import Fickle.Proofs.Profile.Deviation
import Fickle.Sampling

/-! # The laws of drift

In exact arithmetic a drift leads away from zero, stops at a share of the size, and never shrinks as
a variable ages and is used. All that matters of the functions of the platform is where they start
and which way they go.
-/

namespace Fickle

namespace Exact

/-- What drift takes from the platform, and what a division by zero gives there. -/
structure Platform where
  log1p : ℝ → ℝ
  halfPow : ℝ → ℝ
  byZero : ℝ → ℝ

namespace Platform

/-- The real numbers with these functions. -/
noncomputable abbrev scalar (e : Platform) : Scalar ℝ :=
  { (inferInstance : Scalar ℝ) with
    div := fun x y => if y = 0 then e.byZero x else x / y
    log1p := e.log1p
    halfPow := e.halfPow }

/-- The logarithm grows from zero, and the powers of one half fall from one. -/
structure Lawful (e : Platform) : Prop where
  log1p_zero : e.log1p 0 = 0
  log1p_mono : ∀ x y, 0 ≤ x → x ≤ y → e.log1p x ≤ e.log1p y
  halfPow_zero : e.halfPow 0 = 1
  halfPow_antitone : ∀ x y, 0 ≤ x → x ≤ y → e.halfPow y ≤ e.halfPow x

noncomputable def load (e : Platform) (m : DriftModel ℝ) (s : DriftSample ℝ) : ℝ :=
  @DriftModel.load ℝ e.scalar m s

/-- What a read adds to the nominal value. -/
noncomputable def offset (e : Platform) (m : DriftModel ℝ) (strength : ℝ) (s : DriftSample ℝ) : ℝ :=
  @DriftModel.offset ℝ e.scalar m strength s

noncomputable def strength (e : Platform) (p : Profile ℝ) (level : ChaosLevel) : ℝ :=
  @driftStrength ℝ e.scalar p level

variable (e : Platform)

theorem inSeconds_eq (d : Duration) :
    @Duration.inSeconds ℝ e.scalar d = d.nanos / 10 ^ 9 := by
  have hgiga : (1e9 : ℝ) = 10 ^ 9 := by norm_num
  have hnanos : (d.nanos : ℝ) = 10 ^ 9 * d.secs + d.subsec := by
    exact_mod_cast (Nat.div_add_mod d.nanos (10 ^ 9)).symm
  show (d.secs : ℝ) + (if (1e9 : ℝ) = 0 then _ else (d.subsec : ℝ) / 1e9) = _
  rw [hgiga, if_neg (by norm_num), hnanos]
  field_simp

/-- The quotient of real numbers is zero if the divisor is, just as the count of units. -/
theorem ratio_eq (value unit : Duration) :
    @DriftModel.ratio ℝ e.scalar value unit = value.nanos / unit.nanos := by
  unfold DriftModel.ratio
  split
  · rename_i hzero
    rw [eq_of_beq hzero, Nat.cast_zero, div_zero]
    exact zero_eq
  · rename_i hlength
    have hunit : (unit.nanos : ℝ) ≠ 0 := by
      exact_mod_cast fun hzero => hlength (beq_iff_eq.mpr hzero)
    show (if @Duration.inSeconds ℝ e.scalar unit = 0 then _ else
      @Duration.inSeconds ℝ e.scalar value / @Duration.inSeconds ℝ e.scalar unit) = _
    rw [inSeconds_eq, inSeconds_eq, if_neg (div_ne_zero hunit (by norm_num))]
    field_simp

theorem load_eq (m : DriftModel ℝ) (s : DriftSample ℝ) :
    e.load m s = m.ageWeight * e.log1p (s.age.nanos / m.ageUnit.nanos) +
      m.accessWeight * e.log1p s.accesses.toNat +
      m.recencyWeight * (1 - e.halfPow (s.idle.nanos / m.recencyHalfLife.nanos)) := by
  rw [← ratio_eq e, ← ratio_eq e, ← one_eq]
  rfl

theorem offset_eq (m : DriftModel ℝ) (strength : ℝ) (s : DriftSample ℝ) :
    e.offset m strength s = (if s.nominal < 0 then -1 else 1) *
      min (max strength 0 * e.load m s) m.maxFraction * max |s.nominal| 1 := by
  have hminus : (-1.0 : ℝ) = -1 := by norm_num
  rw [← smaller_eq, ← larger_eq, ← larger_eq, ← hminus, ← one_eq, ← zero_eq]
  rfl

theorem intensity_scalar (level : ChaosLevel) :
    @ChaosLevel.intensity ℝ e.scalar level = level.intensity :=
  if_neg (by norm_num)

theorem strength_eq (p : Profile ℝ) (level : ChaosLevel) :
    e.strength p level = p.driftRate * 2 * (1 - p.effective .timeDrift level .calm) := by
  rw [← two_eq, ← one_eq]
  unfold Profile.effective
  rw [← e.intensity_scalar]
  rfl

end Platform

end Exact

/-! ## Drift models -/

/-- Weights and a largest drift that are not negative. -/
structure DriftModel.Weighted (m : DriftModel ℝ) : Prop where
  age : 0 ≤ m.ageWeight
  access : 0 ≤ m.accessWeight
  recency : 0 ≤ m.recencyWeight
  most : 0 ≤ m.maxFraction

theorem DriftModel.weighted_standard : (standard : DriftModel ℝ).Weighted := by
  constructor <;> norm_num [standard]

theorem DriftModel.weighted_volatile : (volatile : DriftModel ℝ).Weighted := by
  constructor <;> norm_num [volatile]

/-- The value is the same, and it is no younger, no less used and idle for no less. -/
structure DriftSample.Ages (s s' : DriftSample ℝ) : Prop where
  nominal : s.nominal = s'.nominal
  age : s.age ≤ s'.age
  accesses : s.accesses ≤ s'.accesses
  idle : s.idle ≤ s'.idle

theorem DriftSample.Ages.refl (s : DriftSample ℝ) : s.Ages s :=
  ⟨rfl, Nat.le_refl _, UInt64.le_refl _, Nat.le_refl _⟩

namespace Exact.Platform

variable {e : Platform} {m : DriftModel ℝ}

theorem lawful_standard (byZero : ℝ → ℝ) : Lawful ⟨Scalar.log1p, Scalar.halfPow, byZero⟩ where
  log1p_zero := by
    show Real.log (1 + 0) = 0
    rw [add_zero, Real.log_one]
  log1p_mono x y hx hle := Real.log_le_log (by linarith) (by linarith)
  halfPow_zero := Real.rpow_zero _
  halfPow_antitone x y _ hle :=
    Real.rpow_le_rpow_of_exponent_ge (by norm_num) (by norm_num) hle

/-! ## Load -/

theorem units_le_units {value value' : Duration} (h : value ≤ value') (unit : Duration) :
    (value.nanos / unit.nanos : ℝ) ≤ value'.nanos / unit.nanos :=
  div_le_div_of_nonneg_right (Nat.cast_le.mpr h) (Nat.cast_nonneg _)

theorem units_nonneg (value unit : Duration) : (0 : ℝ) ≤ value.nanos / unit.nanos :=
  div_nonneg (Nat.cast_nonneg _) (Nat.cast_nonneg _)

theorem load_mono (he : e.Lawful) (hm : m.Weighted) {s s' : DriftSample ℝ} (h : s.Ages s') :
    e.load m s ≤ e.load m s' := by
  have hage := he.log1p_mono _ _ (units_nonneg s.age m.ageUnit) (units_le_units h.age m.ageUnit)
  have haccesses := he.log1p_mono _ _ (Nat.cast_nonneg s.accesses.toNat)
    (Nat.cast_le.mpr (UInt64.le_iff_toNat_le.mp h.accesses))
  have hidle := he.halfPow_antitone _ _ (units_nonneg s.idle m.recencyHalfLife)
    (units_le_units h.idle m.recencyHalfLife)
  rw [load_eq, load_eq]
  exact add_le_add (add_le_add (mul_le_mul_of_nonneg_left hage hm.age)
    (mul_le_mul_of_nonneg_left haccesses hm.access))
    (mul_le_mul_of_nonneg_left (sub_le_sub_left hidle 1) hm.recency)

/-- A sample just declared. -/
def fresh (nominal : ℝ) : DriftSample ℝ := ⟨nominal, Duration.zero, 0, Duration.zero⟩

theorem fresh_ages (s : DriftSample ℝ) : (fresh s.nominal).Ages s where
  nominal := rfl
  age := Nat.zero_le _
  accesses := UInt64.zero_le
  idle := Nat.zero_le _

theorem load_fresh (he : e.Lawful) (m : DriftModel ℝ) (nominal : ℝ) :
    e.load m (fresh nominal) = 0 := by
  have hzero (unit : Duration) : ((Duration.zero.nanos : ℝ) / unit.nanos) = 0 := by
    rw [show Duration.zero.nanos = 0 from rfl, Nat.cast_zero, zero_div]
  have haccesses : (((0 : UInt64).toNat : ℕ) : ℝ) = 0 := Nat.cast_zero
  rw [load_eq]
  unfold fresh
  rw [hzero, hzero, haccesses, he.log1p_zero, he.halfPow_zero]
  ring

theorem load_nonneg (he : e.Lawful) (hm : m.Weighted) (s : DriftSample ℝ) : 0 ≤ e.load m s :=
  load_fresh he m s.nominal ▸ load_mono he hm (fresh_ages s)

/-! ## Offset -/

/-- The drift as a share of the size. -/
noncomputable def share (e : Platform) (m : DriftModel ℝ) (strength : ℝ) (s : DriftSample ℝ) : ℝ :=
  min (max strength 0 * e.load m s) m.maxFraction

theorem share_nonneg (he : e.Lawful) (hm : m.Weighted) (strength : ℝ) (s : DriftSample ℝ) :
    0 ≤ e.share m strength s :=
  le_min (mul_nonneg (le_max_right _ _) (load_nonneg he hm s)) hm.most

theorem share_mono (he : e.Lawful) (hm : m.Weighted) {strength strength' : ℝ}
    (hstrength : strength ≤ strength') {s s' : DriftSample ℝ} (h : s.Ages s') :
    e.share m strength s ≤ e.share m strength' s' :=
  min_le_min_right _ (mul_le_mul (max_le_max_right 0 hstrength) (load_mono he hm h)
    (load_nonneg he hm s) (le_max_right _ _))

theorem size_nonneg (x : ℝ) : 0 ≤ max |x| 1 := zero_le_one.trans (le_max_right _ _)

theorem abs_offset (he : e.Lawful) (hm : m.Weighted) (strength : ℝ) (s : DriftSample ℝ) :
    |e.offset m strength s| = e.share m strength s * max |s.nominal| 1 := by
  have hdirection : |(if s.nominal < 0 then -1 else 1 : ℝ)| = 1 := by split <;> simp
  rw [offset_eq, abs_mul, abs_mul, hdirection, one_mul, abs_of_nonneg (size_nonneg _)]
  exact congrArg (· * _) (abs_of_nonneg (share_nonneg he hm strength s))

/-! ## Strength -/

theorem driftRate_nonneg {p : Profile ℝ} (h : p.flaw? = none) : 0 ≤ p.driftRate := by
  have hwithin := (Profile.rates_and_bases h).1 ("drift_rate", p.driftRate)
    (by simp [Profile.rates])
  exact zero_eq ▸ (within_iff.mp hwithin).1

theorem strength_mem {p : Profile ℝ} (h : p.flaw? = none) (level : ChaosLevel) :
    0 ≤ e.strength p level ∧ e.strength p level ≤ 2 * p.driftRate := by
  have hrate := driftRate_nonneg h
  obtain ⟨hlow, hhigh⟩ := p.effective_mem .timeDrift level .calm
  rw [strength_eq]
  constructor <;> nlinarith

theorem strength_mono {p : Profile ℝ} (h : p.flaw? = none) {level level' : ChaosLevel}
    (hle : level.val ≤ level'.val) : e.strength p level ≤ e.strength p level' := by
  have hrate := driftRate_nonneg h
  have hfall := Profile.effective_le_effective h hle (UInt32.le_refl Instability.calm.level)
    .timeDrift
  rw [strength_eq, strength_eq]
  exact mul_le_mul_of_nonneg_left (sub_le_sub_left hfall 1) (by linarith)

/-! ## The laws -/

/-- What a drift keeps to. -/
structure Laws (e : Platform) (m : DriftModel ℝ) (p : Profile ℝ) : Prop where
  awayFromZero : ∀ strength s, (0 ≤ s.nominal → 0 ≤ e.offset m strength s) ∧
    (s.nominal < 0 → e.offset m strength s ≤ 0)
  capped : ∀ strength s, |e.offset m strength s| ≤ m.maxFraction * max |s.nominal| 1
  atFirst : ∀ strength nominal, e.offset m strength (fresh nominal) = 0
  grows : ∀ strength strength' s s', strength ≤ strength' → DriftSample.Ages s s' →
    |e.offset m strength s| ≤ |e.offset m strength' s'|
  strength : ∀ level, 0 ≤ e.strength p level ∧ e.strength p level ≤ 2 * p.driftRate
  growsWithChaos : ∀ level level' s, ChaosLevel.val level ≤ level'.val →
    e.strength p level ≤ e.strength p level' ∧
      |e.offset m (e.strength p level) s| ≤ |e.offset m (e.strength p level') s|
  /-- What a division by zero would give is never asked. -/
  noDivisionByZero : ∀ byZero, { e with byZero }.offset m = e.offset m ∧
    { e with byZero }.strength p = e.strength p

/-- A drift leads away from zero and stops at its largest share of the size. It starts at nothing
and never shrinks with age, use, idle time, strength or chaos. A unit of no length is never divided
by. -/
theorem drift_keeps_to_its_laws (he : e.Lawful) (hm : m.Weighted) {p : Profile ℝ}
    (hp : p.flaw? = none) : e.Laws m p := by
  -- Two of the laws are cases of this one.
  have hgrows (strength strength' : ℝ) (s s' : DriftSample ℝ) (hstrength : strength ≤ strength')
      (h : s.Ages s') : |e.offset m strength s| ≤ |e.offset m strength' s'| := by
    rw [abs_offset he hm, abs_offset he hm, h.nominal]
    exact mul_le_mul_of_nonneg_right (share_mono he hm hstrength h) (size_nonneg _)
  refine ⟨fun strength s => ⟨fun hnominal => ?_, fun hnominal => ?_⟩, fun strength s => ?_,
    fun strength nominal => ?_, hgrows, strength_mem hp, fun level level' s hle =>
      ⟨strength_mono hp hle, hgrows _ _ s s (strength_mono hp hle) (.refl s)⟩,
    fun byZero => ⟨funext₂ fun strength s => ?_, funext fun level => ?_⟩⟩
  · rw [offset_eq, if_neg (not_lt.mpr hnominal), one_mul]
    exact mul_nonneg (share_nonneg he hm strength s) (size_nonneg _)
  · rw [offset_eq, if_pos hnominal, neg_one_mul]
    exact mul_nonpos_of_nonpos_of_nonneg (neg_nonpos.mpr (share_nonneg he hm strength s))
      (size_nonneg _)
  · rw [abs_offset he hm]
    exact mul_le_mul_of_nonneg_right (min_le_right _ _) (size_nonneg _)
  · rw [offset_eq, load_fresh he, mul_zero, min_eq_left hm.most]
    ring
  · rw [offset_eq, offset_eq, load_eq, load_eq]
  · rw [strength_eq, strength_eq]

/-- The logarithm and the powers of one half, where a division by zero gives what was divided, under
both built-in models and the chaotic personality. -/
theorem drift_keeps_to_its_laws_builtin :
    let e : Platform := ⟨Scalar.log1p, Scalar.halfPow, fun x => x⟩
    let p : Profile ℝ := Personality.chaotic.profile
    e.Lawful ∧ p.flaw? = none ∧
      (DriftModel.standard : DriftModel ℝ).Weighted ∧ e.Laws .standard p ∧
      (DriftModel.volatile : DriftModel ℝ).Weighted ∧ e.Laws .volatile p := by
  intro e p
  have he : e.Lawful := lawful_standard _
  have hp : p.flaw? = none := Personality.chaotic.flaw?_profile
  exact ⟨he, hp, DriftModel.weighted_standard,
    drift_keeps_to_its_laws he DriftModel.weighted_standard hp, DriftModel.weighted_volatile,
    drift_keeps_to_its_laws he DriftModel.weighted_volatile hp⟩

end Exact.Platform

end Fickle

import Fickle.Proofs.Exact
import Fickle.Proofs.Profile
import Fickle.Profile.Personality

/-! # Effective probabilities in exact arithmetic

Chaos moves a base probability towards the chaotic extreme, and never to zero. Instability takes
the same amount off for each point.
-/

namespace Fickle.Profile

variable {p : Profile ℝ}

/-- What chaos makes of a base probability, before instability. -/
noncomputable def moved (p : Profile ℝ) (c : Construct) (level : ChaosLevel) : ℝ :=
  p.table c - (p.table c - Table.extreme c) * p.chaosAmplifier * level.intensity

/-- What instability takes off. -/
noncomputable def shift (p : Profile ℝ) (i : Instability) : ℝ :=
  p.volatility * i.level.toNat / 20

theorem effective_eq (p : Profile ℝ) (c : Construct) (level : ChaosLevel) (i : Instability) :
    p.effective c level i = max 0 (min 1 (p.moved c level - p.shift i)) := by
  have hstep : (instabilityStep : ℝ) = 1 / 20 := by norm_num [instabilityStep]
  have hshift : p.shift i = p.volatility * Scalar.ofNat i.level.toNat * instabilityStep := by
    rw [hstep, shift, mul_one_div]
    rfl
  rw [effective, Exact.clamp_eq, hshift, moved]

theorem effective_mem (p : Profile ℝ) (c : Construct) (level : ChaosLevel) (i : Instability) :
    p.effective c level i ∈ Set.Icc 0 1 := by
  rw [effective_eq]
  exact ⟨le_max_left _ _, max_le zero_le_one (min_le_left _ _)⟩

theorem volatility_mem (h : p.flaw? = none) : 0 ≤ p.volatility ∧ p.volatility ≤ 1 := by
  have hwithin := (rates_and_bases h).1 ("volatility", p.volatility) (by simp [rates])
  have hrange := Exact.within_iff.mp hwithin
  norm_num at hrange
  exact hrange

theorem chaosAmplifier_mem (h : p.flaw? = none) : 0 ≤ p.chaosAmplifier ∧ p.chaosAmplifier ≤ 1 := by
  have hwithin := (rates_and_bases h).1 ("chaos_amplifier", p.chaosAmplifier) (by simp [rates])
  have hrange := Exact.within_iff.mp hwithin
  norm_num at hrange
  exact hrange

theorem table_mem (h : p.flaw? = none) (c : Construct) :
    Table.extreme c ≤ p.table c ∧ p.table c ≤ Table.reliable c :=
  Exact.within_iff.mp ((rates_and_bases h).2 c)

theorem moved_mem (h : p.flaw? = none) (c : Construct) (level : ChaosLevel) :
    Table.extreme c ≤ p.moved c level ∧ p.moved c level ≤ p.table c := by
  obtain ⟨hamplifier, hamplifier'⟩ := chaosAmplifier_mem h
  obtain ⟨hintensity, hintensity'⟩ := Exact.intensity_mem level
  have hgap : 0 ≤ p.table c - Table.extreme c := sub_nonneg.mpr (table_mem h c).1
  have hshare := mul_nonneg hamplifier hintensity
  have hshare' : p.chaosAmplifier * level.intensity ≤ 1 :=
    mul_le_one₀ hamplifier' hintensity hintensity'
  have hmove : p.table c - p.moved c level =
      (p.table c - Table.extreme c) * (p.chaosAmplifier * level.intensity) := by
    unfold moved
    ring
  have hnonneg := mul_nonneg hgap hshare
  have hle := mul_le_of_le_one_right hgap hshare'
  constructor <;> linarith

theorem moved_pos_and_lt_one (h : p.flaw? = none) (c : Construct) (level : ChaosLevel) :
    0 < p.moved c level ∧ p.moved c level < 1 := by
  obtain ⟨hextreme, -, hreliable⟩ := Exact.extreme_mem c
  obtain ⟨hlow, hhigh⟩ := moved_mem h c level
  exact ⟨hextreme.trans_le hlow, hhigh.trans_lt ((table_mem h c).2.trans_lt hreliable)⟩

theorem shift_le_shift {i j : Instability} (h : p.flaw? = none) (hle : i.level ≤ j.level) :
    p.shift i ≤ p.shift j := by
  have hlevel : (i.level.toNat : ℝ) ≤ j.level.toNat := by
    exact_mod_cast UInt32.le_iff_toNat_le.mp hle
  have hproduct := mul_le_mul_of_nonneg_left hlevel (volatility_mem h).1
  unfold shift
  linarith

theorem effective_antitone {i j : Instability} (h : p.flaw? = none) (hle : i.level ≤ j.level)
    (c : Construct) (level : ChaosLevel) : p.effective c level j ≤ p.effective c level i := by
  rw [effective_eq, effective_eq]
  exact max_le_max le_rfl (min_le_min le_rfl (sub_le_sub_left (shift_le_shift h hle) _))

theorem effective_of_level_eq_zero {i : Instability} (h : p.flaw? = none) (hlevel : i.level = 0)
    (c : Construct) (level : ChaosLevel) : p.effective c level i = p.moved c level := by
  obtain ⟨hpos, hlt⟩ := moved_pos_and_lt_one h c level
  have hshift : p.shift i = 0 := by simp [shift, hlevel]
  rw [effective_eq, hshift, sub_zero, min_eq_right hlt.le, max_eq_right hpos.le]

/-- The first point of instability already costs something. -/
theorem effective_lt_of_level_pos {i : Instability} (h : p.flaw? = none) (hv : 0 < p.volatility)
    (hlevel : i.level ≠ 0) (c : Construct) (level : ChaosLevel) :
    p.effective c level i < p.moved c level := by
  obtain ⟨hpos, hlt⟩ := moved_pos_and_lt_one h c level
  have hpoints : (0 : ℝ) < i.level.toNat := by
    exact_mod_cast Nat.pos_of_ne_zero fun hzero => hlevel (UInt32.toNat_inj.mp hzero)
  have hshift : 0 < p.shift i := by
    unfold shift
    positivity
  rw [effective_eq]
  exact max_lt hpos ((min_le_right _ _).trans_lt (by linarith))

end Fickle.Profile

/-! ## The built-in profiles -/

namespace Fickle

theorem Personality.flaw?_profile (p : Personality) : (p.profile : Profile ℝ).flaw? = none := by
  refine Profile.flaw?_eq_none_iff.mpr ⟨?_, ?_, ?_, ?_, ?_, ?_⟩
  · cases p <;> decide +kernel
  · cases p <;> norm_num [Profile.rates, Exact.within_iff, profile]
  · cases p <;> decide +kernel
  · cases p <;> norm_num [Profile.widths, Exact.isWidth_iff, profile]
  · apply not_lt_of_ge
    apply le_trans _ Exact.five_le_maxVariance
    cases p <;> norm_num [profile]
  · intro c
    unfold Profile.baseInRange
    rw [Exact.within_iff]
    cases p <;> cases c <;> norm_num [profile, Table.extreme, Table.reliable, Table.cautious,
      Table.playful, Table.chaotic, Construct.target, Construct.behaviour, Behaviour.target,
      ChaosTarget.probability]

end Fickle

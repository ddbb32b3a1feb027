import Fickle.Proofs.Profile.Effective

/-! # Chaos leads away from reliable behaviour

In exact arithmetic an effective probability starts at the base probability, which is at most the
reliable baseline, and it only falls as chaos and instability rise. Chaos alone stops at the
chaotic extreme.
-/

namespace Fickle

namespace Exact

theorem intensity_mono {l l' : ChaosLevel} (h : l.val ≤ l'.val) :
    (l.intensity : ℝ) ≤ l'.intensity := by
  have hval := UInt8.le_iff_toNat_le.mp h
  have hsteps : ((l.val.toNat - 1 : ℕ) : ℝ) ≤ ((l'.val.toNat - 1 : ℕ) : ℝ) := by
    exact_mod_cast (by omega)
  rw [intensity_eq, intensity_eq]
  linarith

theorem intensity_least : (ChaosLevel.least.intensity : ℝ) = 0 := by
  rw [intensity_eq]
  simp [ChaosLevel.least]

theorem intensity_greatest : (ChaosLevel.greatest.intensity : ℝ) = 1 := by
  have hsteps : ChaosLevel.greatest.val.toNat - 1 = 9 := rfl
  rw [intensity_eq, hsteps]
  norm_num

end Exact

namespace Profile

variable {p : Profile ℝ}

/-! ## Chaos -/

theorem moved_antitone (h : p.flaw? = none) {l l' : ChaosLevel} (hle : l.val ≤ l'.val)
    (c : Construct) : p.moved c l' ≤ p.moved c l := by
  have hgap : 0 ≤ p.table c - Table.extreme c := sub_nonneg.mpr (table_mem h c).1
  have hreach := mul_nonneg hgap (chaosAmplifier_mem h).1
  exact sub_le_sub_left (mul_le_mul_of_nonneg_left (Exact.intensity_mono hle) hreach) _

theorem moved_least (p : Profile ℝ) (c : Construct) : p.moved c .least = p.table c := by
  rw [moved, Exact.intensity_least, mul_zero, sub_zero]

theorem moved_greatest (hamplifier : p.chaosAmplifier = 1) (c : Construct) :
    p.moved c .greatest = Table.extreme c := by
  rw [moved, hamplifier, Exact.intensity_greatest]
  ring

/-! ## Chaos and instability -/

theorem effective_mono_moved {l l' : ChaosLevel} {c : Construct} (i : Instability)
    (hmoved : p.moved c l' ≤ p.moved c l) : p.effective c l' i ≤ p.effective c l i := by
  rw [effective_eq, effective_eq]
  exact max_le_max le_rfl (min_le_min le_rfl (sub_le_sub_right hmoved _))

theorem effective_le_effective (h : p.flaw? = none) {l l' : ChaosLevel} {i i' : Instability}
    (hlevel : l.val ≤ l'.val) (hinstability : i.level ≤ i'.level) (c : Construct) :
    p.effective c l' i' ≤ p.effective c l i :=
  calc p.effective c l' i'
    _ ≤ p.effective c l' i := effective_antitone h hinstability c l'
    _ ≤ p.effective c l i := effective_mono_moved i (moved_antitone h hlevel c)

theorem effective_le_table (h : p.flaw? = none) (c : Construct) (l : ChaosLevel)
    (i : Instability) : p.effective c l i ≤ p.table c :=
  calc p.effective c l i
    _ ≤ p.effective c l .calm := effective_antitone h (UInt32.le_iff_toNat_le.mpr (Nat.zero_le _)) c l
    _ = p.moved c l := effective_of_level_eq_zero h rfl c l
    _ ≤ p.table c := (moved_mem h c l).2

/-- Of two chaos levels and two instabilities, the higher ones give a probability that is no higher
and no closer to the reliable baseline. Calm leaves the base probability; as long as nothing has
gone wrong chaos does not pass its extreme, and a full amplifier reaches it. -/
theorem chaos_leads_away (h : p.flaw? = none) (c : Construct) :
    (∀ l l' i i', ChaosLevel.val l ≤ l'.val → Instability.level i ≤ i'.level →
      0 ≤ p.effective c l' i' ∧ p.effective c l' i' ≤ p.effective c l i ∧
        p.effective c l i ≤ p.table c ∧ p.table c ≤ Table.reliable c ∧
        |p.effective c l i - Table.reliable c| ≤ |p.effective c l' i' - Table.reliable c|) ∧
    ∀ i, Instability.level i = 0 →
      p.effective c .least i = p.table c ∧
        (∀ l, Table.extreme c ≤ p.effective c l i) ∧
        (p.chaosAmplifier = 1 → p.effective c .greatest i = Table.extreme c) := by
  refine ⟨fun l l' i i' hlevel hinstability => ?_, fun i hcalm => ⟨?_, fun l => ?_, fun hfull => ?_⟩⟩
  · have hfall := effective_le_effective h hlevel hinstability c
    have hbase := effective_le_table h c l i
    have hbaseline := (table_mem h c).2
    refine ⟨(effective_mem p c l' i').1, hfall, hbase, hbaseline, ?_⟩
    -- The baseline lies above, so that a step down is a step away from it.
    rw [abs_of_nonpos (by linarith), abs_of_nonpos (by linarith)]
    linarith
  · rw [effective_of_level_eq_zero h hcalm, moved_least]
  · rw [effective_of_level_eq_zero h hcalm]
    exact (moved_mem h c l).1
  · rw [effective_of_level_eq_zero h hcalm, moved_greatest hfull]

/-- The chaotic personality has a full amplifier: at full chaos `maybe` is a coin flip. -/
theorem chaos_leads_away_chaotic :
    (Personality.chaotic.profile : Profile ℝ).flaw? = none ∧
    (Personality.chaotic.profile : Profile ℝ).chaosAmplifier = 1 ∧
    Personality.chaotic.profile.effective .maybe .greatest ⟨3, 1⟩ ≤
      (Personality.chaotic.profile.effective .maybe .least ⟨1, 0⟩ : ℝ) ∧
    Personality.chaotic.profile.effective .maybe .greatest .calm = (0.5 : ℝ) := by
  have hprofile := Personality.chaotic.flaw?_profile
  have hfull : (Personality.chaotic.profile : Profile ℝ).chaosAmplifier = 1 := by
    norm_num [Personality.profile]
  obtain ⟨hlaws, hcalm⟩ := chaos_leads_away hprofile .maybe
  exact ⟨hprofile, hfull, (hlaws .least .greatest ⟨1, 0⟩ ⟨3, 1⟩ (by decide) (by decide)).2.1,
    (hcalm .calm rfl).2.2 hfull⟩

end Profile

end Fickle

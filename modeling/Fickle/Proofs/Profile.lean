import Fickle.Proofs.Binary64.Bounds
import Fickle.Proofs.Except
import Fickle.Profile.Registry

/-! # Effective probabilities are probabilities -/

namespace Fickle

open Binary64

namespace Profile

theorem flaw?_eq_none_iff {α : Type} [Scalar α] {p : Profile α} : p.flaw? = none ↔
    Text.isBlankText p.name = false ∧ (∀ r ∈ p.rates, Scalar.within 0.0 1.0 r.2 = true) ∧
      ¬ p.intFuzzRadius < 0 ∧ (∀ w ∈ p.widths, Scalar.isWidth w.2 = true) ∧
      ¬ maxVariance < p.ishVariance ∧ ∀ c, p.baseInRange c = true := by
  have hrates : (p.rates.find? fun r => !Scalar.within 0.0 1.0 r.2) = none ↔
      ∀ r ∈ p.rates, Scalar.within 0.0 1.0 r.2 = true := by
    simp [List.find?_eq_none]
  have hwidths : (p.widths.find? fun w => !Scalar.isWidth w.2) = none ↔
      ∀ w ∈ p.widths, Scalar.isWidth w.2 = true := by
    simp [List.find?_eq_none]
  have hbases : (Construct.all.find? fun c => !p.baseInRange c) = none ↔
      ∀ c, p.baseInRange c = true := by
    simp [List.find?_eq_none, Construct.mem_all]
  -- Said like this, the checks are the ones that are made, in the order in which they are made.
  rw [← hrates, ← hwidths, ← hbases]
  constructor
  · intro h
    unfold flaw? at h
    split at h
    · cases h
    rename_i hname
    split at h
    · cases h
    rename_i hnone
    split at h
    · cases h
    rename_i hradius
    split at h
    · cases h
    rename_i hnone'
    split at h
    · cases h
    rename_i hvariance
    refine ⟨eq_false_of_ne_true hname, ?_, hradius, ?_, hvariance,
      Option.map_eq_none_iff.mp h⟩
    · exact Option.eq_none_iff_forall_ne_some.mpr fun r => hnone r.1 r.2
    · exact Option.eq_none_iff_forall_ne_some.mpr fun w => hnone' w.1 w.2
  · rintro ⟨hname, hnone, hradius, hnone', hvariance, hall⟩
    simp only [flaw?, hname, hnone, hnone', hall, if_neg hradius, if_neg hvariance]
    rfl

theorem rates_and_bases {α : Type} [Scalar α] {p : Profile α} (h : p.flaw? = none) :
    (∀ r ∈ p.rates, Scalar.within 0.0 1.0 r.2 = true) ∧ ∀ c, p.baseInRange c = true := by
  obtain ⟨-, hrates, -, -, -, hbases⟩ := flaw?_eq_none_iff.mp h
  exact ⟨hrates, hbases⟩

variable {p : Profile Binary64}

/-- A profile with nothing wrong with it. -/
def Sound (p : Profile Binary64) : Prop := p.flaw? = none

theorem Sound.rates_and_bases (h : p.Sound) :
    (∀ r ∈ p.rates, Scalar.within 0.0 1.0 r.2 = true) ∧ ∀ c, p.baseInRange c = true :=
  Profile.rates_and_bases h

theorem Sound.rename (h : p.Sound) {name : String}
    (hname : Text.isBlankText name = false) : ({ p with name } : Profile Binary64).Sound := by
  obtain ⟨-, hrest⟩ := flaw?_eq_none_iff.mp h
  exact flaw?_eq_none_iff.mpr ⟨hname, hrest⟩

end Profile

theorem isNonneg_extreme (c : Construct) :
    isNonneg (Table.extreme c : Binary64).toFloat.toModel.unpack = true := by
  cases c <;> rfl

theorem isSmall_extreme (c : Construct) :
    isSmall (Table.extreme c : Binary64).toFloat.toModel.unpack = true := by
  cases c <;> rfl

theorem isSmall_reliable (c : Construct) :
    isSmall (Table.reliable c : Binary64).toFloat.toModel.unpack = true := by
  cases c <;> rfl

theorem isSmall_intensity (c : ChaosLevel) :
    isSmall (c.intensity : Binary64).toFloat.toModel.unpack = true := by
  have hall : ∀ n : Fin 10,
      isSmall (Scalar.ofNat n.val / 9.0 : Binary64).toFloat.toModel.unpack = true := by
    decide
  have hval := UInt8.le_iff_toNat_le.mp c.le_ten
  have hten : (10 : UInt8).toNat = 10 := rfl
  exact hall ⟨c.val.toNat - 1, by omega⟩

namespace Profile

variable {p : Profile Binary64}

/-- Whatever the chaos and the instability, the effective probability of a sound profile lies
between zero and one. -/
theorem Sound.within_effective (h : p.Sound) (c : Construct) (level : ChaosLevel)
    (i : Instability) : Scalar.within 0.0 1.0 (p.effective c level i) = true := by
  have hbase : Bounded 53 (p.table c) :=
    bounded_of_within (isNonneg_extreme c) (isSmall_reliable c) (h.rates_and_bases.2 c)
  have hextreme := bounded_of_isSmall (isSmall_extreme c)
  have hrate (v : Binary64) (hv : Scalar.within 0.0 1.0 v = true) : Bounded 53 v :=
    bounded_of_within (by decide) (by decide) hv
  have hamplifier : Bounded 53 p.chaosAmplifier :=
    hrate _ (h.rates_and_bases.1 ("chaos_amplifier", p.chaosAmplifier) (by simp [Profile.rates]))
  have hvolatility : Bounded 53 p.volatility :=
    hrate _ (h.rates_and_bases.1 ("volatility", p.volatility) (by simp [Profile.rates]))
  have hintensity := bounded_of_isSmall (isSmall_intensity level)
  have hlevel := bounded_ofNat (Nat.lt_trans i.level.toNat_lt (by decide))
  have hstep : Bounded 53 (instabilityStep : Binary64) := bounded_of_isSmall (by decide)
  -- Each step makes the exponent larger by a little, and no double is near its end.
  have hspan := hbase.sub hextreme (by decide) (by decide)
  have hmoved := (hspan.mul hamplifier (by decide) (by decide)).mul hintensity (by decide)
    (by decide)
  have hchaotic := (hbase.mono (by decide)).sub hmoved (by decide) (by decide)
  have hshift := (hvolatility.mul hlevel (by decide) (by decide)).mul hstep (by decide) (by decide)
  have hresult := (hchaotic.mono (by decide)).sub (hshift.mono (l := 300) (by decide)) (by decide)
    (by decide)
  exact within_clamp (by decide) (by decide) (by decide)
    hresult.isNaN_eq_false

end Profile

/-! ## Registries -/

theorem Personality.sound_profile (p : Personality) : (p.profile : Profile Binary64).Sound := by
  have hnone : (p.profile : Profile Binary64).flaw?.isNone = true := by
    cases p <;> decide +kernel
  exact Option.isNone_iff_eq_none.mp hnone

namespace Registry

theorem mem_of_get {r : Registry} {name : String} {p : Profile Binary64}
    (h : r.get name = .ok p) : p ∈ r.profiles ∧ p.name = name := by
  unfold get at h
  split at h
  · rename_i q hfind
    cases h
    exact ⟨List.mem_of_find?_eq_some hfind, by simpa using List.find?_some hfind⟩
  · cases h

theorem get_name {r : Registry} {name : String} {p : Profile Binary64} (h : r.get name = .ok p) :
    r.get p.name = .ok p := by
  rw [(mem_of_get h).2]
  exact h

/-- A registry that comes of the built-in one by registering profiles. -/
inductive Built : Registry → Prop where
  | builtin : Built builtin
  | register {r r' : Registry} {p : Profile Binary64} (hr : Built r) (h : r.register p = .ok r') :
      Built r'

theorem sound_of_register {r r' : Registry} {p : Profile Binary64} (h : r.register p = .ok r') :
    p.Sound ∧ r'.profiles = p :: r.profiles := by
  simp only [register, bind_eq_ok_iff, guard_eq_ok_iff] at h
  obtain ⟨⟨⟩, hvalidate, -, h⟩ := h
  cases h
  unfold Profile.validate at hvalidate
  split at hvalidate
  · cases hvalidate
  · rename_i hsound
    exact ⟨hsound, rfl⟩

theorem register_eq_ok {r : Registry} {p : Profile Binary64} (hsound : p.Sound)
    (hfree : r.find? p.name = none) : r.register p = .ok ⟨p :: r.profiles⟩ := by
  have hvalid : p.validate = .ok () := by
    unfold Profile.validate
    rw [hsound]
  unfold register
  rw [hvalid, hfree]
  rfl

theorem get_of_register {r r' : Registry} {p : Profile Binary64}
    (h : r.register p = .ok r') : r'.get p.name = .ok p := by
  unfold get find?
  rw [(sound_of_register h).2]
  simp

theorem Built.sound {r : Registry} (h : r.Built) : ∀ p ∈ r.profiles, p.Sound := by
  induction h with
  | builtin =>
    intro p hp
    obtain ⟨q, -, rfl⟩ := List.mem_map.mp hp
    exact Personality.sound_profile q
  | register hr h ih =>
    obtain ⟨hsound, hprofiles⟩ := sound_of_register h
    rw [hprofiles, List.forall_mem_cons]
    exact ⟨hsound, ih⟩

end Registry

end Fickle

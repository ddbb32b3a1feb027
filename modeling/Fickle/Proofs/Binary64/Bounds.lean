import Fickle.Proofs.Binary64.Arithmetic

/-! # How large a result can get

Rounding at most doubles a number, so a short chain of additions and products of small numbers
stays far from the largest double, and its result is a number.
-/

open Float.Model Float.Model.UnpackedFloat

namespace Fickle.Binary64

/-- The number is finite and below `2 ^ k` in size. -/
def Below (k : Int) : UnpackedFloat → Prop
  | .zero _ => True
  | .finite _ m e _ => ∃ a : Nat, m < 2 ^ a ∧ a + e ≤ k
  | .infinity _ | .notANumber => False

theorem below_iff {k : Int} {u : UnpackedFloat} :
    Below k u ↔ ∃ q, Denotes u q ∧ |q| < 2 ^ k := by
  cases u with
  | zero s =>
    refine iff_of_true trivial ⟨0, .zero s, ?_⟩
    rw [abs_zero]
    exact two_zpow_pos k
  | infinity s => exact iff_of_false nofun nofun
  | notANumber => exact iff_of_false nofun nofun
  | finite s m e hm =>
    constructor
    · rintro ⟨a, hlt, ha⟩
      refine ⟨_, .finite s m e hm, ?_⟩
      rw [abs_signed, abs_of_pos (mantissa_mul_pos hm e)]
      calc (m : ℚ) * 2 ^ e < 2 ^ a * 2 ^ e :=
            mul_lt_mul_of_pos_right (by exact_mod_cast hlt) (two_zpow_pos e)
        _ = 2 ^ (a + e) := by rw [zpow_add₀ two_ne_zero, zpow_natCast]
        _ ≤ 2 ^ k := zpow_le_zpow_right₀ one_le_two ha
    · rintro ⟨q, hq, hlt⟩
      rw [hq.unique (.finite s m e hm), abs_signed, abs_of_pos (mantissa_mul_pos hm e)] at hlt
      have hone : (1 : ℚ) ≤ m := by exact_mod_cast hm
      have hek : e < k := by
        rw [← zpow_lt_zpow_iff_right₀ (one_lt_two (α := ℚ))]
        exact (le_mul_of_one_le_left (two_zpow_pos e).le hone).trans_lt hlt
      refine ⟨(k - e).toNat, ?_, by omega⟩
      have hsplit : (2 : ℚ) ^ k = 2 ^ (k - e).toNat * 2 ^ e := by
        rw [← zpow_natCast, ← zpow_add₀ two_ne_zero]
        congr 1
        omega
      rw [hsplit] at hlt
      exact_mod_cast lt_of_mul_lt_mul_right hlt (two_zpow_pos e).le

/-! ## Doubles -/

/-- The double is finite and below `2 ^ k` in size. -/
def Bounded (k : Int) (x : Binary64) : Prop := Below k x.toFloat.toModel.unpack

variable {k l : Int} {x y : Binary64}

theorem bounded_iff : Bounded k x ↔ ∃ q, Denotes x.unpacked q ∧ |q| < 2 ^ k := below_iff

theorem Bounded.mono (h : Bounded k x) (hkl : k ≤ l) : Bounded l x := by
  obtain ⟨q, hx, hlt⟩ := bounded_iff.mp h
  exact bounded_iff.mpr ⟨q, hx, hlt.trans_le (zpow_le_zpow_right₀ one_le_two hkl)⟩

/-- A result of bounded size is rounded to one, if the bound is neither tiny nor close to the
largest double. -/
theorem Rounds.bounded {q : ℚ} (h : Rounds x q) (hq : |q| ≤ 2 ^ k) (hlo : -1022 ≤ k)
    (hhi : k ≤ 900) : Bounded (k + 1) x := by
  have hlimit : (2 : ℚ) ^ k < beyond := by
    have hpow : (2 : ℚ) ^ k ≤ 2 ^ (900 : Int) := zpow_le_zpow_right₀ one_le_two hhi
    refine hpow.trans_lt ?_
    unfold beyond
    rw [← pow_add, ← zpow_natCast]
    exact zpow_lt_zpow_right₀ one_lt_two (by decide)
  obtain ⟨r, -, hx, hle⟩ := h.denotes (representable_two_zpow (by omega)) hlimit hq
  exact bounded_iff.mpr ⟨r, hx, hle.trans_lt (zpow_lt_zpow_right₀ one_lt_two (by omega))⟩

theorem Bounded.add (hx : Bounded k x) (hy : Bounded k y) (hlo : -1022 ≤ k)
    (hhi : k + 2 ≤ 900) : Bounded (k + 2) (x + y) := by
  obtain ⟨a, ha, hka⟩ := bounded_iff.mp hx
  obtain ⟨b, hb, hkb⟩ := bounded_iff.mp hy
  have hsum : |a + b| ≤ 2 ^ (k + 1) := by
    rw [zpow_add_one₀ two_ne_zero, mul_two]
    exact (abs_add_le a b).trans (add_le_add hka.le hkb.le)
  exact ((ha.add hb).bounded hsum (by omega) (by omega)).mono (by omega)

theorem Bounded.neg (hx : Bounded k x) : Bounded k (-x) := by
  obtain ⟨a, ha, hka⟩ := bounded_iff.mp hx
  exact bounded_iff.mpr ⟨-a, ha.negate, (abs_neg a).trans_lt hka⟩

theorem Bounded.sub (hx : Bounded k x) (hy : Bounded k y) (hlo : -1022 ≤ k)
    (hhi : k + 2 ≤ 900) : Bounded (k + 2) (x - y) := by
  rw [Binary64.sub_eq_add_neg]
  exact hx.add hy.neg hlo hhi

theorem Bounded.mul (hx : Bounded k x) (hy : Bounded l y) (hlo : -1022 ≤ k + l)
    (hhi : k + l + 1 ≤ 900) : Bounded (k + l + 1) (x * y) := by
  obtain ⟨a, ha, hka⟩ := bounded_iff.mp hx
  obtain ⟨b, hb, hlb⟩ := bounded_iff.mp hy
  have hproduct : |a * b| ≤ 2 ^ (k + l) := by
    rw [abs_mul, zpow_add₀ two_ne_zero]
    exact mul_le_mul hka.le hlb.le (abs_nonneg b) (two_zpow_pos k).le
  exact (ha.mul hb).bounded hproduct hlo (by omega)

theorem Bounded.isNaN_eq_false (h : Bounded k x) : x.isNaN = false := by
  obtain ⟨q, hx, -⟩ := bounded_iff.mp h
  exact hx.isNaN_eq_false

theorem Bounded.isFinite_eq_true (h : Bounded k x) : Scalar.isFinite x = true := by
  obtain ⟨q, hx, -⟩ := bounded_iff.mp h
  exact isFinite_iff.mpr ⟨q, hx⟩

theorem bounded_ofNat {n : Nat} (h : n < 2 ^ 64) : Bounded 119 (Scalar.ofNat n : Binary64) := by
  have hn : |(n : ℚ)| ≤ 2 ^ (64 : Int) := by
    rw [Nat.abs_cast]
    exact_mod_cast h.le
  exact ((rounds_ofNat n).bounded hn (by decide) (by decide)).mono (by decide)

/-! ## Small numbers -/

/-- Zero, or a number whose mantissa counts no more than units. -/
def isSmall : UnpackedFloat → Bool
  | .zero _ => true
  | .finite _ _ e _ => decide (e ≤ 0)
  | .infinity _ | .notANumber => false

/-- Zero of either sign, or a positive number. -/
def isNonneg : UnpackedFloat → Bool
  | .zero _ | .finite .positive _ _ _ => true
  | .finite .negative _ _ _ | .infinity _ | .notANumber => false

theorem bounded_of_isSmall (h : isSmall x.toFloat.toModel.unpack = true) : Bounded 53 x := by
  have hfits := x.fits_unpacked
  unfold unpacked at hfits
  unfold Bounded
  generalize x.toFloat.toModel.unpack = u at h hfits
  cases u with
  | zero s => trivial
  | finite s m e hm =>
    have he : e ≤ 0 := of_decide_eq_true h
    exact ⟨53, hfits.1.lt, by omega⟩
  | infinity s => cases h
  | notANumber => cases h

theorem exists_of_isNonneg {u : UnpackedFloat} (h : isNonneg u = true) :
    ∃ a, Denotes u a ∧ 0 ≤ a := by
  cases u with
  | zero s => exact ⟨0, .zero s, le_rfl⟩
  | finite s m e hm =>
    cases s with
    | positive => exact ⟨_, .finite .positive m e hm, (mantissa_mul_pos hm e).le⟩
    | negative => cases h
  | infinity s => cases h
  | notANumber => cases h

/-- What lies between a number that is not negative and a small one is bounded. -/
theorem bounded_of_within {lo hi : Binary64} (hlo : isNonneg lo.toFloat.toModel.unpack = true)
    (hhi : isSmall hi.toFloat.toModel.unpack = true) (h : Scalar.within lo hi x = true) :
    Bounded 53 x := by
  obtain ⟨a, ha, ha0⟩ := exists_of_isNonneg hlo
  obtain ⟨b, hb, hb53⟩ := bounded_iff.mp (bounded_of_isSmall hhi)
  unfold Scalar.within at h
  obtain ⟨hlox, hxhi⟩ := of_decide_eq_true h
  obtain ⟨c, hc, hac, hcb⟩ := spans_of_le ha hb hlox hxhi
  refine bounded_iff.mpr ⟨c, hc, ?_⟩
  rw [abs_of_nonneg (ha0.trans hac)]
  exact (hcb.trans (le_abs_self b)).trans_lt hb53

end Fickle.Binary64

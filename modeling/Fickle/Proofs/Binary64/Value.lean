import Mathlib.Algebra.Order.Field.Power
import Mathlib.Tactic.Linarith
import Mathlib.Tactic.Ring
import Fickle.Proofs.Binary64

/-! # The numbers that doubles stand for

A double that is finite denotes a fraction, and the order of doubles is that of the fractions they
denote. What is packed is unpacked as it was, unless it is too large.
-/

open Float.Model Float.Model.UnpackedFloat

namespace Fickle.Binary64

/-! ## Form -/

/-- The form of the numbers that doubles hold: all places are used, except where numbers get as
small as they can be. -/
structure Canonical (m : Nat) (e : Int) : Prop where
  lt : m < 2 ^ 53
  least : -1074 ≤ e
  full : 2 ^ 52 ≤ m ∨ e = -1074

def IsCanonical : UnpackedFloat → Prop
  | .finite _ m e _ => Canonical m e
  | .zero _ | .infinity _ | .notANumber => True

/-- What is not too large to be packed. -/
def Fits : UnpackedFloat → Prop
  | .finite _ m e _ => Canonical m e ∧ e ≤ 971
  | .zero _ | .infinity _ | .notANumber => True

theorem Fits.isCanonical {u : UnpackedFloat} (h : Fits u) : IsCanonical u := by
  cases u with
  | finite s m e hm => exact h.1
  | zero s => trivial
  | infinity s => trivial
  | notANumber => trivial

theorem finite_congr {s s' : Sign} {m m' : Nat} {e e' : Int} {hm : 0 < m} {hm' : 0 < m'}
    (hs : s = s') (h : m = m') (he : e = e') :
    UnpackedFloat.finite s m e hm = .finite s' m' e' hm' := by
  subst hs h he
  rfl

theorem toNat_one_append (y : BitVec 52) : (1#1 ++ y).toNat = 2 ^ 52 + y.toNat := by
  rw [BitVec.toNat_append, ← Nat.shiftLeft_add_eq_or_of_lt y.isLt]
  rfl

theorem fits_unpack (b : BitVec 64) : Fits (UnpackedFloat.unpack Format.binary64 b) := by
  have hmantissa := (@unpackMantissa Format.binary64 b).isLt
  have hexponent := (@unpackExponent Format.binary64 b).isLt
  unfold UnpackedFloat.unpack
  dsimp only
  -- By the field of the exponent: all ones, all zeros, or anything between.
  by_cases hones : @unpackExponent Format.binary64 b = -1#11
  · rw [if_pos hones]
    by_cases hzero : @unpackMantissa Format.binary64 b = 0#52
    · rw [if_pos hzero]
      trivial
    · rw [if_neg hzero]
      trivial
  rw [if_neg hones]
  by_cases hsmall : @unpackExponent Format.binary64 b = 0#11
  · rw [if_pos hsmall, hsmall]
    by_cases hzero : @unpackMantissa Format.binary64 b = 0#52
    · rw [dif_pos hzero]
      trivial
    · rw [dif_neg hzero]
      have he : ((0#11).toNat : Int) - ((1023 : Nat) + (52 : Nat)) + 1 = -1074 := rfl
      refine ⟨⟨Nat.lt_trans hmantissa (by decide), he.ge, .inr he⟩, ?_⟩
      exact he.le.trans (by decide)
  · rw [if_neg hsmall]
    have hne : (@unpackExponent Format.binary64 b).toNat ≠ 2047 :=
      fun h => hones (BitVec.eq_of_toNat_eq h)
    have hpos : (@unpackExponent Format.binary64 b).toNat ≠ 0 :=
      fun h => hsmall (BitVec.eq_of_toNat_eq h)
    have hbias : ((1023 : Nat) + (52 : Nat) : Int) = 1075 := rfl
    have hfull := toNat_one_append (@unpackMantissa Format.binary64 b)
    refine ⟨⟨BitVec.isLt _, ?_, .inl ?_⟩, ?_⟩
    · show -1074 ≤ ((@unpackExponent Format.binary64 b).toNat : Int) - ((1023 : Nat) + (52 : Nat))
      omega
    · exact hfull ▸ Nat.le_add_right _ _
    · show ((@unpackExponent Format.binary64 b).toNat : Int) - ((1023 : Nat) + (52 : Nat)) ≤ 971
      have hlt : (@unpackExponent Format.binary64 b).toNat < 2048 := hexponent
      omega

theorem extractLsb_top {n k : Nat} (a : BitVec 1) (x : BitVec n) (y : BitVec k)
    (h : k + n - (k + n) + 1 = 1) :
    BitVec.cast h (BitVec.extractLsb (k + n) (k + n) (a ++ x ++ y)) = a := by
  apply BitVec.eq_of_getLsbD_eq
  intro i hi
  obtain rfl : i = 0 := by omega
  simp [BitVec.getLsbD_append, BitVec.getElem_append]

theorem sign_packComponents {format : Format} (s : Sign) (x : BitVec format.exponentBits)
    (y : BitVec format.mantissaBitsWithoutImplicit) :
    Sign.ofBitVec (unpackSign (packComponents format s x y)) = s := by
  have hbit : unpackSign (packComponents format s x y) = s.toBitVec :=
    extractLsb_top s.toBitVec x y _
  rw [hbit]
  cases s <;> rfl

/-! ## Packing -/

theorem unpack_normal {x : BitVec 11} {y : BitVec 52} (hones : x ≠ -1#11) (hzero : x ≠ 0#11)
    (s : Sign) {m : Nat} {e : Int} (hm : 0 < m) (hy : 2 ^ 52 + y.toNat = m)
    (he : (x.toNat : Int) - 1075 = e) :
    UnpackedFloat.unpack Format.binary64 (packComponents Format.binary64 s x y) =
      .finite s m e hm := by
  have hexponent := @unpackExponent_packComponents Format.binary64 s x y
  have hmantissa := @unpackMantissa_packComponents Format.binary64 s x y
  have hsign := @sign_packComponents Format.binary64 s x y
  have hbias : ((1023 : Nat) + (52 : Nat) : Int) = 1075 := rfl
  generalize packComponents Format.binary64 s x y = b at *
  unfold UnpackedFloat.unpack
  dsimp only
  rw [hexponent, if_neg hones, if_neg hzero]
  refine finite_congr hsign ((toNat_one_append _).trans (hmantissa ▸ hy)) ?_
  show (x.toNat : Int) - ((1023 : Nat) + (52 : Nat)) = e
  omega

theorem unpack_subnormal {y : BitVec 52} (s : Sign) {m : Nat} (hm : 0 < m) (hy : y.toNat = m) :
    UnpackedFloat.unpack Format.binary64 (packComponents Format.binary64 s 0#11 y) =
      .finite s m (-1074) hm := by
  have hexponent := @unpackExponent_packComponents Format.binary64 s 0#11 y
  have hmantissa := @unpackMantissa_packComponents Format.binary64 s 0#11 y
  have hsign := @sign_packComponents Format.binary64 s 0#11 y
  have hones : 0#11 ≠ -1#11 := by decide
  have hne : y ≠ 0#52 := by
    rintro rfl
    exact Nat.ne_of_lt hm hy
  generalize packComponents Format.binary64 s 0#11 y = b at *
  unfold UnpackedFloat.unpack
  dsimp only
  rw [if_neg (hexponent.trans_ne hones), if_pos hexponent, dif_neg (hmantissa.trans_ne hne)]
  refine finite_congr hsign ((congrArg BitVec.toNat hmantissa).trans hy) ?_
  rw [hexponent]
  rfl

theorem unpack_special (s : Sign) :
    UnpackedFloat.unpack Format.binary64 (packedZero Format.binary64 s) = .zero s ∧
      UnpackedFloat.unpack Format.binary64 (packedInfinity Format.binary64 s) = .infinity s ∧
      UnpackedFloat.unpack Format.binary64 (packedNaN Format.binary64) = .notANumber := by
  cases s <;> exact ⟨rfl, rfl, rfl⟩

theorem pack_finite (s : Sign) (m : Nat) (e : Int) (hm : 0 < m) :
    UnpackedFloat.pack Format.binary64 (.finite s m e hm) =
      if 2 ^ 11 ≤ (e + 1023 + (52 : Nat)).toNat + 1 then packedInfinity Format.binary64 s
      else if m.log2 + 1 = 53 then
        packComponents Format.binary64 s (BitVec.ofNat 11 (e + 1023 + (52 : Nat)).toNat)
          (BitVec.ofNat 52 m)
      else packComponents Format.binary64 s 0#11 (BitVec.ofNat 52 m) := rfl

theorem Canonical.log2_eq {m : Nat} {e : Int} (h : Canonical m e) (hfull : 2 ^ 52 ≤ m) :
    m.log2 = 52 := by
  have hm : m ≠ 0 := by omega
  have hlow := (Nat.le_log2 hm).mpr hfull
  have hhigh := (Nat.log2_lt hm).mpr h.lt
  omega

theorem unpack_pack_finite {s : Sign} {m : Nat} {e : Int} {hm : 0 < m} (h : Canonical m e)
    (hmost : e ≤ 971) : (Float.Model.pack (.finite s m e hm)).unpack = .finite s m e hm := by
  show UnpackedFloat.unpack Format.binary64
    (UnpackedFloat.pack Format.binary64 (.finite s m e hm)) = _
  have hleast := h.least
  have hfits : ¬ 2 ^ 11 ≤ (e + 1023 + (52 : Nat)).toNat + 1 := by omega
  rw [pack_finite, if_neg hfits]
  rcases Nat.lt_or_ge m (2 ^ 52) with hsmall | hfull
  · -- Numbers with places to spare have the least exponent.
    obtain rfl : e = -1074 := h.full.resolve_left (by omega)
    have hlog := (Nat.log2_lt (Nat.ne_of_gt hm)).mpr hsmall
    rw [if_neg (by omega)]
    exact unpack_subnormal s hm (Nat.mod_eq_of_lt hsmall)
  · have hlog := h.log2_eq hfull
    have hexponent : (BitVec.ofNat 11 (e + 1023 + (52 : Nat)).toNat).toNat =
        (e + 1023 + (52 : Nat)).toNat := Nat.mod_eq_of_lt (by omega)
    rw [if_pos (by omega)]
    refine unpack_normal (fun hones => ?_) (fun hzero => ?_) s hm ?_ ?_
    · rw [hones] at hexponent
      have hmax : (-1#11).toNat = 2047 := rfl
      omega
    · rw [hzero] at hexponent
      have hmin : (0#11).toNat = 0 := rfl
      omega
    · -- The first place is not written down.
      have hlt := h.lt
      rw [BitVec.toNat_ofNat]
      omega
    · rw [hexponent]
      omega

/-- What is packed and is not too large is unpacked as it was. -/
theorem unpack_pack {u : UnpackedFloat} (h : Fits u) : (Float.Model.pack u).unpack = u := by
  cases u with
  | zero s => exact (unpack_special s).1
  | infinity s => exact (unpack_special s).2.1
  | notANumber => exact (unpack_special .positive).2.2
  | finite s m e hm => exact unpack_pack_finite h.1 h.2

theorem unpack_pack_of_large {s : Sign} {m : Nat} {e : Int} {hm : 0 < m} (h : 971 < e) :
    (Float.Model.pack (.finite s m e hm)).unpack = .infinity s := by
  show UnpackedFloat.unpack Format.binary64
    (UnpackedFloat.pack Format.binary64 (.finite s m e hm)) = .infinity s
  have hfits : 2 ^ 11 ≤ (e + 1023 + (52 : Nat)).toNat + 1 := by omega
  rw [pack_finite, if_pos hfits]
  exact (unpack_special s).2.1

/-! ## Fractions -/

/-- A fraction with a sign put to it. -/
def signed (s : Sign) (q : ℚ) : ℚ :=
  match s with
  | .positive => q
  | .negative => -q

theorem neg_signed (s : Sign) (q : ℚ) : -signed s q = signed (-s) q := by
  cases s
  · exact neg_neg q
  · rfl

theorem signed_signed (s : Sign) (q : ℚ) : signed s (signed s q) = q := by
  cases s
  · exact neg_neg q
  · rfl

theorem le_abs_signed (s : Sign) (q : ℚ) : signed s q ≤ |q| := by
  cases s
  · exact neg_le_abs q
  · exact le_abs_self q

theorem abs_signed (s : Sign) (q : ℚ) : |signed s q| = |q| := by
  cases s
  · exact abs_neg q
  · rfl

/-- The fraction that a finite number stands for. -/
inductive Denotes : UnpackedFloat → ℚ → Prop
  | zero (s : Sign) : Denotes (.zero s) 0
  | finite (s : Sign) (m : Nat) (e : Int) (hm : 0 < m) :
    Denotes (.finite s m e hm) (signed s (m * 2 ^ e))

theorem two_zpow_pos (e : Int) : (0 : ℚ) < 2 ^ e := zpow_pos two_pos e

theorem mantissa_mul_pos {m : Nat} (hm : 0 < m) (e : Int) : (0 : ℚ) < m * 2 ^ e :=
  mul_pos (Nat.cast_pos.mpr hm) (two_zpow_pos e)

theorem Denotes.unique {u : UnpackedFloat} {a b : ℚ} (ha : Denotes u a) (hb : Denotes u b) :
    a = b := by
  cases ha <;> cases hb <;> rfl

theorem Denotes.neg {u : UnpackedFloat} {a : ℚ} (h : Denotes u a) : Denotes u.neg (-a) := by
  cases h with
  | zero s =>
    rw [neg_zero]
    exact .zero _
  | finite s m e hm =>
    rw [neg_signed]
    exact .finite _ m e hm

theorem Canonical.lt_of_exponent_lt {m m' : Nat} {e e' : Int} (h : Canonical m e)
    (h' : Canonical m' e') (he : e < e') : (m : ℚ) * 2 ^ e < m' * 2 ^ e' := by
  have hm : (m : ℚ) < 2 ^ 53 := by exact_mod_cast h.lt
  -- A number with more than the least exponent has all its places.
  have hm' : (2 : ℚ) ^ 52 ≤ m' := by
    have hle := h.least
    exact_mod_cast h'.full.resolve_right (by omega)
  have hstep : (2 : ℚ) * 2 ^ e ≤ 2 ^ e' := by
    rw [← zpow_one_add₀ two_ne_zero]
    exact zpow_le_zpow_right₀ one_le_two (by omega)
  have hpos := two_zpow_pos e
  calc (m : ℚ) * 2 ^ e < 2 ^ 53 * 2 ^ e := mul_lt_mul_of_pos_right hm hpos
    _ = 2 ^ 52 * (2 * 2 ^ e) := by ring
    _ ≤ 2 ^ 52 * 2 ^ e' := mul_le_mul_of_nonneg_left hstep (by positivity)
    _ ≤ m' * 2 ^ e' := mul_le_mul_of_nonneg_right hm' (two_zpow_pos e').le

theorem Canonical.compare_eq_lt_iff {m m' : Nat} {e e' : Int} (h : Canonical m e)
    (h' : Canonical m' e') :
    (compare e e').then (compare m m') = .lt ↔ (m : ℚ) * 2 ^ e < m' * 2 ^ e' := by
  rcases lt_trichotomy e e' with he | rfl | he
  · rw [compare_lt_iff_lt.mpr he]
    exact iff_of_true rfl (h.lt_of_exponent_lt h' he)
  · rw [compare_eq_iff_eq.mpr rfl, mul_lt_mul_iff_left₀ (two_zpow_pos e), Nat.cast_lt]
    exact compare_lt_iff_lt
  · rw [compare_gt_iff_gt.mpr he]
    exact iff_of_false nofun (h'.lt_of_exponent_lt h he).not_gt

theorem Canonical.compare_swap_eq_lt_iff {m m' : Nat} {e e' : Int} (h : Canonical m e)
    (h' : Canonical m' e') :
    ((compare e e').then (compare m m')).swap = .lt ↔ (m' : ℚ) * 2 ^ e' < m * 2 ^ e := by
  rw [Ordering.swap_then, Int.compare_swap, Nat.compare_swap]
  exact h'.compare_eq_lt_iff h

/-- Numbers are compared as the fractions that they stand for. -/
theorem Denotes.compare_eq_lt_iff {u v : UnpackedFloat} {a b : ℚ} (hu : IsCanonical u)
    (hv : IsCanonical v) (ha : Denotes u a) (hb : Denotes v b) :
    u.compare v = some .lt ↔ a < b := by
  cases ha with
  | zero s =>
    cases hb with
    | zero s' => exact iff_of_false nofun (lt_irrefl 0)
    | finite s' m' e' hm' =>
      have hpos := mantissa_mul_pos hm' e'
      cases s' with
      | positive => exact iff_of_true rfl hpos
      | negative => exact iff_of_false nofun (neg_neg_of_pos hpos).not_gt
  | finite s m e hm =>
    have hpos := mantissa_mul_pos hm e
    cases hb with
    | zero s' =>
      cases s with
      | positive => exact iff_of_false nofun hpos.not_gt
      | negative => exact iff_of_true rfl (neg_neg_of_pos hpos)
    | finite s' m' e' hm' =>
      have hpos' := mantissa_mul_pos hm' e'
      cases s with
      | positive =>
        cases s' with
        | positive => exact Option.some_inj.trans (hu.compare_eq_lt_iff hv)
        | negative => exact iff_of_false nofun ((neg_neg_of_pos hpos').trans hpos).not_gt
      | negative =>
        cases s' with
        | positive => exact iff_of_true rfl ((neg_neg_of_pos hpos).trans hpos')
        | negative =>
          exact Option.some_inj.trans ((hu.compare_swap_eq_lt_iff hv).trans neg_lt_neg_iff.symm)

/-! ## Doubles -/

/-- A double taken apart. -/
def unpacked (x : Binary64) : UnpackedFloat := x.toFloat.toModel.unpack

theorem fits_unpacked (x : Binary64) : Fits x.unpacked := fits_unpack _

theorem unpacked_ofFloat (x : Float) : (ofFloat x).unpacked = x.toModel.unpack :=
  unpack_pack (fits_unpack _)

theorem unpacked_pack (u : UnpackedFloat) :
    (ofFloat ⟨Float.Model.pack u⟩).unpacked = (Float.Model.pack u).unpack :=
  unpacked_ofFloat _

theorem unpacked_neg (f : Float) : (ofFloat f.neg).unpacked = (ofFloat f).unpacked.neg := by
  have hfits : Fits f.toModel.unpack.neg := by
    have hf : Fits f.toModel.unpack := fits_unpack _
    cases hu : f.toModel.unpack <;> rw [hu] at hf <;> exact hf
  rw [unpacked_ofFloat, unpacked_ofFloat]
  exact unpack_pack hfits

theorem unpacked_negate (x : Binary64) : (-x).unpacked = x.unpacked.neg := by
  have hself : (ofFloat x.toFloat).unpacked = x.unpacked := unpacked_ofFloat _
  rw [← hself]
  exact unpacked_neg x.toFloat

theorem Denotes.negate {x : Binary64} {a : ℚ} (h : Denotes x.unpacked a) :
    Denotes (-x).unpacked (-a) :=
  unpacked_negate x ▸ h.neg

theorem isFinite_iff {x : Binary64} :
    Scalar.isFinite x = true ↔ ∃ a, Denotes x.unpacked a := by
  show x.unpacked.isFinite = true ↔ _
  cases x.unpacked with
  | zero s => exact iff_of_true rfl ⟨_, .zero s⟩
  | finite s m e hm => exact iff_of_true rfl ⟨_, .finite s m e hm⟩
  | infinity s => exact iff_of_false nofun nofun
  | notANumber => exact iff_of_false nofun nofun

/-- The fraction that a double stands for, zero if it stands for none. -/
def fraction (x : Binary64) : ℚ :=
  match x.unpacked with
  | .finite s m e _ => signed s (m * 2 ^ e)
  | .zero _ | .infinity _ | .notANumber => 0

theorem Denotes.fraction_eq {x : Binary64} {a : ℚ} (h : Denotes x.unpacked a) :
    x.fraction = a := by
  unfold fraction
  generalize x.unpacked = u at h
  cases h <;> rfl

theorem denotes_fraction {x : Binary64} (h : Scalar.isFinite x = true) :
    Denotes x.unpacked x.fraction := by
  obtain ⟨a, hx⟩ := isFinite_iff.mp h
  rwa [hx.fraction_eq]

theorem isNaN_eq_true_iff {x : Binary64} : x.isNaN = true ↔ x.unpacked = .notANumber := by
  show x.unpacked.isNaN = true ↔ _
  cases x.unpacked with
  | notANumber => exact iff_of_true rfl rfl
  | zero s => exact iff_of_false nofun nofun
  | finite s m e hm => exact iff_of_false nofun nofun
  | infinity s => exact iff_of_false nofun nofun

section

variable {x y : Binary64} {a b : ℚ}

theorem Denotes.isNaN_eq_false (h : Denotes x.unpacked a) : x.isNaN = false := by
  rw [← Bool.not_eq_true, isNaN_eq_true_iff]
  intro hx
  rw [hx] at h
  cases h

theorem Denotes.lt_iff (hx : Denotes x.unpacked a) (hy : Denotes y.unpacked b) :
    x < y ↔ a < b := by
  rw [Binary64.lt_iff, ← hx.compare_eq_lt_iff x.fits_unpacked.isCanonical
    y.fits_unpacked.isCanonical hy]
  exact beq_iff_eq

theorem le_iff_not_lt (hx : x.isNaN = false) (hy : y.isNaN = false) : x ≤ y ↔ ¬ y < x := by
  refine ⟨fun hle hlt => ?_, le_of_not_lt hy hx⟩
  rw [Binary64.le_iff] at hle
  rw [Binary64.lt_iff] at hlt
  unfold UnpackedFloat.le at hle
  unfold UnpackedFloat.lt at hlt
  rw [compare_swap] at hle
  rw [beq_iff_eq.mp hlt] at hle
  cases hle

theorem Denotes.le_iff (hx : Denotes x.unpacked a) (hy : Denotes y.unpacked b) :
    x ≤ y ↔ a ≤ b := by
  rw [le_iff_not_lt hx.isNaN_eq_false hy.isNaN_eq_false, hy.lt_iff hx, not_lt]

theorem Denotes.abs (h : Denotes x.unpacked a) : Denotes (Scalar.abs x).unpacked |a| := by
  have hunpacked : (Scalar.abs x).unpacked = x.unpacked.abs := by
    have hfits : Fits x.unpacked.abs := by
      have hx := x.fits_unpacked
      cases hu : x.unpacked <;> rw [hu] at hx <;> exact hx
    exact (unpacked_pack _).trans (unpack_pack hfits)
  rw [hunpacked]
  generalize x.unpacked = u at h
  cases h with
  | zero s =>
    rw [abs_zero]
    exact .zero _
  | finite s m e hm =>
    rw [abs_signed, abs_of_pos (mantissa_mul_pos hm e)]
    exact .finite .positive m e hm

end

end Fickle.Binary64

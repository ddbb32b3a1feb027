import Mathlib.Analysis.SpecialFunctions.Pow.Real
import Mathlib.Analysis.Complex.ExponentialBounds
import Fickle.Proofs.Binary64.Near
import Fickle.Sampling
import Fickle.Stream

/-! # The functions that drift takes from the platform

A drift asks the platform for logarithms and for powers of one half, and only at numbers that are
finite and not negative. All that it needs to know of them is which side of zero and one they are on.
-/

namespace Fickle

open Binary64

/-! ## Any platform -/

/-- The logarithm of `1 + x` and the powers of one half. -/
structure Elementary where
  log1p : Binary64 → Binary64
  halfPow : Binary64 → Binary64

namespace Elementary

def platform : Elementary := ⟨Scalar.log1p, Scalar.halfPow⟩

/-- Doubles with these functions in the place of the platform's. -/
abbrev scalar (e : Elementary) : Scalar Binary64 :=
  { (inferInstance : Scalar Binary64) with
    log1p := e.log1p
    halfPow := e.halfPow }

/-- What any platform keeps to: the logarithm of one or more is not negative, and a power of one
half lies between zero and one. -/
structure Lawful (e : Elementary) : Prop where
  log1p : ∀ x, Scalar.isFinite x = true → (0.0 : Binary64) ≤ x → (0.0 : Binary64) ≤ e.log1p x
  halfPow : ∀ x, Scalar.isFinite x = true → (0.0 : Binary64) ≤ x →
    (0.0 : Binary64) ≤ e.halfPow x ∧ e.halfPow x ≤ (1.0 : Binary64)

/-- What a call draws where the platform has these functions. -/
def sample (e : Elementary) (c : Construct) (args : Args Binary64) (s : Setting Binary64)
    (g : Stream) : Outcome Binary64 × Stream :=
  @Fickle.sample Binary64 e.scalar Stream _ c args s g

theorem sample_platform (c : Construct) (args : Args Binary64) (s : Setting Binary64)
    (g : Stream) : platform.sample c args s g = Fickle.sample c args s g := rfl

/-- What a read of a drifting variable adds to it. -/
def driftOffset (e : Elementary) (s : Setting Binary64) (sample : DriftSample Binary64) :
    Binary64 :=
  @DriftModel.offset Binary64 e.scalar s.drift
    (@driftStrength Binary64 e.scalar s.profile s.chaos) sample

theorem load_standard (e : Elementary) (s : DriftSample Binary64) :
    @DriftModel.load Binary64 e.scalar DriftModel.standard s =
      1.0 * e.log1p (DriftModel.ratio s.age (Duration.ofSecs 1)) +
        0.5 * e.log1p (Scalar.ofNat s.accesses.toNat) +
        0.5 * (1.0 - e.halfPow (DriftModel.ratio s.idle (Duration.ofSecs 30))) := rfl

/-! ## A platform that is precise -/

/-- The functions as they are, but for places that are cut off. -/
noncomputable def precise : Elementary :=
  ⟨fun x => cut (Real.log (1 + x.fraction)), fun x => cut (((2 : ℕ) : ℝ).rpow (-x.fraction))⟩

theorem log_le {x : Binary64} (hx : Scalar.isFinite x = true) (h0 : 0 ≤ x.fraction) :
    Real.log (1 + x.fraction) ≤ 1000 := by
  have hlargest := (le_abs_self _).trans ((denotes_fraction hx).abs_le_largest x.fits_unpacked)
  have hbound : (1 + x.fraction : ℝ) ≤ 2 ^ (53 + 971) := by
    have hsum : 1 + x.fraction ≤ 2 ^ (53 + 971) :=
      calc 1 + x.fraction ≤ 2 ^ 971 + (2 ^ 53 - 1) * 2 ^ 971 :=
            add_le_add (one_le_pow₀ one_le_two) hlargest
        _ = 2 ^ (53 + 971) := by rw [sub_one_mul, add_sub_cancel, pow_add]
    exact_mod_cast hsum
  have hpos : (0 : ℝ) < 1 + x.fraction := by
    have hpos : 0 < 1 + x.fraction := by linarith
    exact_mod_cast hpos
  have htwo := Real.log_two_lt_d9
  calc Real.log (1 + x.fraction) ≤ Real.log (2 ^ (53 + 971)) := Real.log_le_log hpos hbound
    _ = 1024 * Real.log 2 := by
      rw [Real.log_pow]
      norm_num
    _ ≤ 1000 := by linarith

theorem lawful_precise : precise.Lawful where
  log1p x hx h0 := by
    have h0 : 0 ≤ x.fraction := (denotes_zero.le_iff (denotes_fraction hx)).mp h0
    have hlog : (0 : ℝ) ≤ Real.log (1 + x.fraction) :=
      Real.log_nonneg (le_add_of_nonneg_right (by exact_mod_cast h0))
    obtain ⟨y, hy, hy0, -⟩ := spans_cut hlog (m := 1000) (by exact_mod_cast log_le hx h0) le_rfl
    exact (denotes_zero.le_iff hy).mpr hy0
  halfPow x hx h0 := by
    have h0 : 0 ≤ x.fraction := (denotes_zero.le_iff (denotes_fraction hx)).mp h0
    have hfall : -(x.fraction : ℝ) ≤ 0 := neg_nonpos.mpr (by exact_mod_cast h0)
    have hone : ((2 : ℕ) : ℝ).rpow (-x.fraction) ≤ (1 : ℕ) := by
      rw [Nat.cast_one]
      exact Real.rpow_le_one_of_one_le_of_nonpos (by norm_num) hfall
    obtain ⟨y, hy, hy0, hy1⟩ :=
      spans_cut (Real.rpow_nonneg (Nat.cast_nonneg 2) _) hone (by norm_num)
    exact ⟨(denotes_zero.le_iff hy).mpr hy0, (hy.le_iff denotes_one).mpr (by exact_mod_cast hy1)⟩

end Elementary

/-! ## Where the functions are asked for -/

namespace DriftModel

theorem spans_inSeconds (d : Duration) : Spans 0 (2 ^ 65) (d.inSeconds : Binary64) := by
  have hsecs : ((d.secs : Nat) : ℚ) ≤ 2 ^ 64 := by
    have hlt : d.secs < 2 ^ 64 := Nat.div_lt_of_lt_mul (Nat.mul_comm _ _ ▸ d.lt_limit)
    exact_mod_cast hlt.le
  have hsubsec : d.subsec < 10 ^ 9 := Nat.mod_lt _ (by decide)
  have hgiga : Denotes (1e9 : Binary64).unpacked (10 ^ 9) :=
    denotes_of_isWritten (10 ^ 9 * 2 ^ 23) (-23) (by decide +kernel) (by norm_num)
  have hpow (n : Nat) : Representable ((2 : ℚ) ^ n) :=
    zpow_natCast (2 : ℚ) n ▸ representable_two_zpow (by omega)
  have hpart : ((d.subsec : Nat) : ℚ) ≤ 10 ^ 9 := by exact_mod_cast hsubsec.le
  obtain ⟨w, hw, hw0, hw1⟩ := (rounds_ofNat d.secs).spans representable_zero (hpow 64)
    (by norm_num) (by norm_num) (Nat.cast_nonneg _) hsecs
  obtain ⟨f, hf, hf0, hf1⟩ := ((denotes_ofNat (n := d.subsec) (by omega)).div hgiga
    (by norm_num)).spans representable_zero representable_one (by norm_num) (by norm_num)
    (by positivity) ((div_le_one (by norm_num)).mpr hpart)
  exact (hw.add hf).spans representable_zero (hpow 65) (by norm_num) (by norm_num)
    (by linarith) (by norm_num at hw1 ⊢; linarith)

theorem spans_ratio (d : Duration) {unit : Duration} {b : ℚ}
    (hunit : Denotes (unit.inSeconds : Binary64).unpacked b) (hb : 1 ≤ b) :
    Spans 0 (2 ^ 65) (ratio d unit : Binary64) := by
  obtain ⟨a, ha, ha0, ha1⟩ := spans_inSeconds d
  have hb0 : 0 < b := one_pos.trans_le hb
  unfold ratio
  split
  · exact ⟨0, denotes_zero, le_rfl, by norm_num⟩
  · exact (ha.div hunit hb0.ne').spans representable_zero
      (zpow_natCast (2 : ℚ) 65 ▸ representable_two_zpow (by decide)) (by norm_num) (by norm_num)
      (div_nonneg ha0 hb0.le) ((div_le_self ha0 hb).trans ha1)

end DriftModel

namespace Elementary.Lawful

variable {e : Elementary}

theorem nonneg_log1p (he : e.Lawful) {x : Binary64} {hi : ℚ} (hx : Spans 0 hi x) :
    (0.0 : Binary64) ≤ e.log1p x := by
  obtain ⟨a, ha, ha0, -⟩ := hx
  exact he.log1p x (isFinite_iff.mpr ⟨a, ha⟩) ((denotes_zero.le_iff ha).mpr ha0)

theorem spans_halfPow (he : e.Lawful) {x : Binary64} {hi : ℚ} (hx : Spans 0 hi x) :
    Spans 0 1 (e.halfPow x) := by
  obtain ⟨a, ha, ha0, -⟩ := hx
  obtain ⟨hlow, hhigh⟩ := he.halfPow x (isFinite_iff.mpr ⟨a, ha⟩) ((denotes_zero.le_iff ha).mpr ha0)
  exact spans_of_le denotes_zero denotes_one hlow hhigh

theorem nonneg_load (he : e.Lawful) (s : DriftSample Binary64) :
    (0.0 : Binary64) ≤ @DriftModel.load Binary64 e.scalar DriftModel.standard s := by
  have hsecond : Denotes ((Duration.ofSecs 1).inSeconds : Binary64).unpacked 1 :=
    denotes_of_isWritten (2 ^ 52) (-52) (by decide +kernel) (by norm_num)
  have hthirty : Denotes ((Duration.ofSecs 30).inSeconds : Binary64).unpacked 30 :=
    denotes_of_isWritten (15 * 2 ^ 49) (-48) (by decide +kernel) (by norm_num)
  have hcount : (s.accesses.toNat : ℚ) ≤ 2 ^ 64 := by exact_mod_cast s.accesses.toNat_lt.le
  have hage := he.nonneg_log1p (DriftModel.spans_ratio s.age hsecond le_rfl)
  have haccesses := he.nonneg_log1p ((rounds_ofNat s.accesses.toNat).spans representable_zero
    (zpow_natCast (2 : ℚ) 64 ▸ representable_two_zpow (by decide)) (by norm_num) (by norm_num)
    (Nat.cast_nonneg _) hcount)
  obtain ⟨h, hpower, -, hone⟩ :=
    he.spans_halfPow (DriftModel.spans_ratio s.idle hthirty (by norm_num))
  have hstaleness := (denotes_one.sub hpower).nonneg (sub_nonneg.mpr hone)
  rw [load_standard]
  exact nonneg_add (nonneg_add (nonneg_mul_of_pos denotes_one one_pos hage)
    (nonneg_mul_of_pos denotes_half (by norm_num) haccesses))
    (nonneg_mul_of_pos denotes_half (by norm_num) hstaleness)

end Elementary.Lawful

end Fickle

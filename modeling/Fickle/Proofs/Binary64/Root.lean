import Mathlib.Analysis.Real.Sqrt
import Fickle.Proofs.Binary64.Arithmetic

/-! # Square roots of doubles

The number is written with so many places that the whole part of its root fills a double. The root is
cut to it and then rounded, and what gets lost is small beside it.
-/

open Float.Model Float.Model.UnpackedFloat

namespace Fickle.Binary64

/-- The exponent of a root. -/
def rootExponent (m : Nat) (e : Int) : Int :=
  min (e.ediv 2) (Format.binary64.targetExponent ((totalExponent m e + 1).ediv 2))

/-- The number written with twice that exponent. -/
def radicand (m : Nat) (e : Int) : Nat := m <<< (e - 2 * rootExponent m e).toNat

theorem rootExponent_mem {m : Nat} {e : Int} (hlt : m < 2 ^ 53) (hlow : -1074 ≤ e) (hhigh : e ≤ 971)
    (hm : 0 < m) : 2 * rootExponent m e ≤ e ∧ 104 + 2 * rootExponent m e ≤ m.log2 + e ∧
      -600 ≤ rootExponent m e ∧ rootExponent m e ≤ 485 := by
  have hexponent : rootExponent m e =
      min (e / 2) (max (((m.log2 + 1 + e : Int) + 1) / 2 - 53) (-1074)) := rfl
  have hlog : m.log2 < 53 := (Nat.log2_lt hm.ne').mpr hlt
  rw [hexponent]
  omega

theorem radicand_mul {m : Nat} {e : Int} (h : 2 * rootExponent m e ≤ e) :
    (radicand m e : ℚ) * (2 ^ rootExponent m e * 2 ^ rootExponent m e) = m * 2 ^ e := by
  have hsum : (2 : ℚ) ^ (e - 2 * rootExponent m e).toNat *
      (2 ^ rootExponent m e * 2 ^ rootExponent m e) = 2 ^ e := by
    rw [← zpow_natCast, ← zpow_add₀ two_ne_zero, ← zpow_add₀ two_ne_zero]
    congr 1
    omega
  unfold radicand
  rw [Nat.shiftLeft_eq, Nat.cast_mul, Nat.cast_pow, Nat.cast_ofNat, mul_assoc, hsum]

theorem le_sqrt_radicand {m : Nat} {e : Int} (hm : 0 < m)
    (h : 104 + 2 * rootExponent m e ≤ m.log2 + e) : 2 ^ 52 ≤ (radicand m e).sqrt := by
  have hlarge : 2 ^ 104 ≤ radicand m e := two_pow_le_shiftLeft hm (by omega)
  have hroot := (radicand m e).lt_succ_sqrt
  by_contra hlt
  have hsucc : (radicand m e).sqrt.succ ≤ 2 ^ 52 := not_le.mp hlt
  have hsquare := Nat.mul_le_mul hsucc hsucc
  omega

theorem exists_cuts_root (m : Nat) (e : Int) : ∃ x : ℚ,
    Cuts (.ofMantissaAndAccuracy (radicand m e).sqrt (sqrtCore Format.binary64 m e).2.2) x := by
  have hcore : (sqrtCore Format.binary64 m e).2.2 =
      if radicand m e - (radicand m e).sqrt * (radicand m e).sqrt = 0 then .exact
      else .inexact (if radicand m e - (radicand m e).sqrt * (radicand m e).sqrt ≤
        (radicand m e).sqrt then .lt else .gt) := rfl
  rw [hcore]
  split
  · exact ⟨_, cuts_exact _⟩
  · exact ⟨(radicand m e).sqrt + 1 / 2, cuts_inexact _ (by linarith) (by linarith)⟩

/-- What is rounded lies within one unit of the root, and the root has many units. -/
theorem abs_sub_sqrt_le {n : Nat} {p y r : ℝ} (hp : 0 < p) (hn : 2 ^ 52 ≤ n.sqrt) (hle : n.sqrt ≤ y)
    (hlt : y < n.sqrt + 1) (hr : |r - y * p| ≤ y * p / 2 ^ 52) :
    |r - √(n * (p * p))| ≤ √(n * (p * p)) / 2 ^ 50 := by
  have hroot : √(n * (p * p)) = √n * p := by
    rw [Real.sqrt_mul (Nat.cast_nonneg n), Real.sqrt_mul_self hp.le]
  have hlow : (n.sqrt : ℝ) ≤ √n := Real.nat_sqrt_le_real_sqrt
  have hhigh : √(n : ℝ) ≤ n.sqrt + 1 := Real.real_sqrt_le_nat_sqrt_succ
  have hmany : (2 : ℝ) ^ 52 ≤ √n := le_trans (by exact_mod_cast hn) hlow
  have hunit : |y - √n| ≤ √n / 2 ^ 52 := by
    rw [abs_le]
    constructor
    · linarith
    · linarith
  have hcut : |y * p - √n * p| ≤ √n * p / 2 ^ 52 := by
    rw [← sub_mul, abs_mul, abs_of_pos hp, mul_div_right_comm]
    gcongr
  have hsum := abs_sub_le r (y * p) (√n * p)
  obtain ⟨-, hupper⟩ := abs_le.mp hcut
  have hnonneg : 0 ≤ √n * p := by positivity
  rw [hroot]
  linarith

variable {x : Binary64} {a : ℚ}

theorem sqrt_eq (x : Binary64) : Scalar.sqrt x =
    ofFloat ⟨Float.Model.pack (UnpackedFloat.sqrt Format.binary64 x.unpacked)⟩ := rfl

theorem Denotes.sqrt_zero (hx : Denotes x.unpacked 0) : Denotes (Scalar.sqrt x).unpacked 0 := by
  rw [sqrt_eq]
  generalize x.unpacked = u at hx
  generalize hq : (0 : ℚ) = q at hx
  cases hx with
  | zero s =>
    have hfits : Fits (.zero s) := trivial
    show Denotes (ofFloat ⟨Float.Model.pack (.zero s)⟩).unpacked 0
    rw [unpacked_pack, unpack_pack hfits]
    exact .zero s
  | finite s m e hm =>
    have hpos := mantissa_mul_pos hm e
    cases s
    · exact absurd hq (neg_neg_of_pos hpos).ne'
    · exact absurd hq hpos.ne

theorem sqrt_mul_lt {n : Nat} {t : Int} (h : (n : ℚ) * (2 ^ t * 2 ^ t) ≤ largest) :
    (n.sqrt : ℚ) * 2 ^ t < 2 ^ 512 := by
  have hsqrt : (n.sqrt : ℚ) * n.sqrt ≤ n := by exact_mod_cast n.sqrt_le
  have hsquare : ((n.sqrt : ℚ) * 2 ^ t) ^ 2 < (2 ^ 512) ^ 2 := by
    calc ((n.sqrt : ℚ) * 2 ^ t) ^ 2 = n.sqrt * n.sqrt * (2 ^ t * 2 ^ t) := by ring
      _ ≤ n * (2 ^ t * 2 ^ t) := by gcongr
      _ ≤ largest := h
      _ < 2 ^ (53 + 971) := pow_add (2 : ℚ) 53 971 ▸ largest_lt_beyond
      _ = (2 ^ 512) ^ 2 := pow_mul 2 512 2
  exact lt_of_pow_lt_pow_left₀ 2 (by positivity) hsquare

section

variable {n : Nat} {t : Int} {y : ℚ} (hn : 2 ^ 52 ≤ n.sqrt) (hle : n.sqrt ≤ y)

include hn hle

/-- A root has all its places, so its rounding is off by a share of it. -/
theorem abs_sub_le_of_faithful {r : ℚ} (h : Faithful (y * 2 ^ t) r) (ht : -600 ≤ t) :
    |r - y * 2 ^ t| ≤ y * 2 ^ t / 2 ^ 52 := by
  have hmany : (2 : ℚ) ^ 52 ≤ n.sqrt := by exact_mod_cast hn
  have hq : 0 < y * 2 ^ t := mul_pos (by linarith) (two_zpow_pos t)
  have hexp : (2 : ℚ) ^ (-1073 : Int) ≤ 2 ^ t := zpow_le_zpow_right₀ one_le_two (by omega)
  have hstep : (2 : ℚ) ^ (-1073 : Int) = 2 * 2 ^ (-1074 : Int) := zpow_one_add₀ two_ne_zero (-1074)
  refine (h.error hq).resolve_right fun h => absurd h.1 (not_lt.mpr ?_)
  calc (2 : ℚ) ^ 53 * 2 ^ (-1074 : Int) = 2 ^ 52 * 2 ^ (-1073 : Int) := by
        rw [hstep]
        ring
    _ ≤ y * 2 ^ t := mul_le_mul (hmany.trans hle) hexp (by positivity) (by linarith)

/-- The root of a double is never too large for one. -/
theorem Rounds.exists_denotes_root (h : Rounds x (y * 2 ^ t)) (hlt : y < n.sqrt + 1)
    (ht : -600 ≤ t) (hmost : (n : ℚ) * (2 ^ t * 2 ^ t) ≤ largest) :
    ∃ r : ℚ, Denotes x.unpacked r ∧ |r - y * 2 ^ t| ≤ y * 2 ^ t / 2 ^ 52 := by
  have hunit := two_zpow_pos t
  have hmany : (2 : ℚ) ^ 52 ≤ n.sqrt := by exact_mod_cast hn
  have hsize : |y * 2 ^ t| ≤ 2 ^ ((513 : Nat) : Int) := by
    have hdouble : y * 2 ^ t ≤ 2 * (n.sqrt * 2 ^ t) := by
      rw [← mul_assoc]
      gcongr
      linarith
    have hnonneg : 0 ≤ y * 2 ^ t := mul_nonneg (by linarith) hunit.le
    rw [abs_of_nonneg hnonneg, zpow_natCast, pow_succ']
    exact hdouble.trans (mul_le_mul_of_nonneg_left (sqrt_mul_lt hmost).le two_pos.le)
  have hlimit : (2 : ℚ) ^ ((513 : Nat) : Int) < beyond := by
    unfold beyond
    rw [zpow_natCast, ← pow_add]
    exact pow_lt_pow_right₀ one_lt_two (by decide)
  obtain ⟨r, hr, hx, -⟩ := h.denotes (representable_two_zpow (by decide)) hlimit hsize
  exact ⟨r, hx, abs_sub_le_of_faithful hn hle hr ht⟩

end

theorem Denotes.sqrt (hx : Denotes x.unpacked a) (ha : 0 < a) :
    ∃ r : ℚ, Denotes (Scalar.sqrt x).unpacked r ∧ |(r : ℝ) - √a| ≤ √a / 2 ^ 50 := by
  have hfits := x.fits_unpacked
  have hlargest := hx.abs_le_largest hfits
  rw [sqrt_eq]
  generalize x.unpacked = u at hx hfits
  cases hx with
  | zero s => exact absurd ha (lt_irrefl 0)
  | finite s m e hm =>
    have hpos := mantissa_mul_pos hm e
    cases s with
    | negative => exact absurd ha (neg_neg_of_pos hpos).not_gt
    | positive =>
      obtain ⟨⟨hlt, hlow, -⟩, hhigh⟩ := hfits
      obtain ⟨hexponent, hplaces, hleast, -⟩ := rootExponent_mem hlt hlow hhigh hm
      obtain ⟨y, hy⟩ := exists_cuts_root m e
      have hroot := le_sqrt_radicand hm hplaces
      have hrounds : Rounds (ofFloat ⟨Float.Model.pack (UnpackedFloat.sqrt Format.binary64
          (.finite .positive m e hm))⟩) (y * 2 ^ rootExponent m e) :=
        (rounded_roundWithAccuracy .positive hy (.inl (le_log2_of_two_pow_le hroot))).pack
      have hradicand := radicand_mul (m := m) hexponent
      have hle := hy.le
      have hlt := hy.lt
      rw [mantissa_ofMantissaAndAccuracy] at hle hlt
      -- From here on only the sizes of the radicand and of the exponent matter.
      generalize rootExponent m e = t at *
      generalize radicand m e = n at *
      obtain ⟨r, hx, herror⟩ := hrounds.exists_denotes_root hroot hle hlt hleast
        (hradicand.trans_le ((le_abs_self _).trans hlargest))
      have herror := (Rat.cast_le (K := ℝ)).mpr herror
      have hvalue := congrArg (Rat.cast (K := ℝ)) hradicand
      push_cast at herror hvalue
      have hreal := abs_sub_sqrt_le (p := 2 ^ t) (by positivity) hroot (by exact_mod_cast hle)
        (by exact_mod_cast hlt) herror
      rw [hvalue] at hreal
      refine ⟨r, hx, ?_⟩
      rw [signed]
      push_cast
      exact hreal

end Fickle.Binary64

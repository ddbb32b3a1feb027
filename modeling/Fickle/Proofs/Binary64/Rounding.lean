import Mathlib.Tactic.FieldSimp
import Fickle.Proofs.Binary64.Faithful

/-! # Rounding of results

What an operation on numbers comes to is the exact result, rounded faithfully: an exact mantissa is
cut to the places that there are, and what is cut off is remembered in two bits.
-/

open Float.Model Float.Model.UnpackedFloat

namespace Fickle.Binary64

/-! ## Mantissas with a remainder -/

theorem mantissa_shiftRight (em : ExtendedMantissa) (n : Nat) :
    (em >>> n).mantissa = em.mantissa / 2 ^ n := by
  induction n with
  | zero => simp [HShiftRight.hShiftRight, Nat.repeat]
  | succ n ih =>
    show (em >>> n).mantissa / 2 = _
    rw [ih, Nat.div_div_eq_div_mul, Nat.pow_succ]

theorem mantissa_ofMantissaAndAccuracy (m : Nat) (acc : Accuracy) :
    (ExtendedMantissa.ofMantissaAndAccuracy m acc).mantissa = m := by
  rcases acc with _ | o
  · rfl
  · cases o <;> rfl

theorem roundedMantissa_le (em : ExtendedMantissa) : em.roundedMantissa ≤ em.mantissa + 1 := by
  rcases em with ⟨m, r, s⟩
  cases r <;> cases s <;> simp [ExtendedMantissa.roundedMantissa, ExtendedMantissa.accuracy,
    Accuracy.roundToNearestEven]
  omega

/-- The fraction that an extended mantissa comes from: its mantissa is the integral part, and its
bits tell whether there is more. -/
structure Cuts (em : ExtendedMantissa) (x : ℚ) : Prop where
  le : em.mantissa ≤ x
  lt : x < em.mantissa + 1
  exact_iff : x = em.mantissa ↔ em.roundBit = false ∧ em.stickyBit = false

theorem cuts_exact (m : Nat) : Cuts (.ofMantissaAndAccuracy m .exact) m :=
  ⟨le_rfl, lt_add_one _, iff_of_true rfl ⟨rfl, rfl⟩⟩

theorem cuts_inexact {m : Nat} {x : ℚ} (o : Ordering) (hle : m < x) (hlt : x < m + 1) :
    Cuts (.ofMantissaAndAccuracy m (.inexact o)) x := by
  cases o
  · exact ⟨hle.le, hlt, iff_of_false hle.ne' nofun⟩
  · exact ⟨hle.le, hlt, iff_of_false hle.ne' nofun⟩
  · exact ⟨hle.le, hlt, iff_of_false hle.ne' nofun⟩

theorem cuts_fraction (n : Nat) {d : Nat} (hd : 0 < d) :
    Cuts (.ofMantissaAndAccuracy (n / d) (accuracyOfFraction (n % d) d)) (n / d) := by
  have hd' : (0 : ℚ) < d := Nat.cast_pos.mpr hd
  have hsplit : (n : ℚ) = d * (n / d : Nat) + (n % d : Nat) := by
    exact_mod_cast (Nat.div_add_mod n d).symm
  have hmod : ((n % d : Nat) : ℚ) < d := Nat.cast_lt.mpr (Nat.mod_lt n hd)
  unfold accuracyOfFraction
  split
  · rename_i hzero
    have hn : (n : ℚ) / d = (n / d : Nat) := by
      rw [hzero, Nat.cast_zero, add_zero] at hsplit
      rw [div_eq_iff hd'.ne', hsplit, mul_comm]
    rw [hn]
    exact cuts_exact _
  · rename_i hzero
    have hpos : (0 : ℚ) < (n % d : Nat) := Nat.cast_pos.mpr (Nat.pos_of_ne_zero hzero)
    refine cuts_inexact _ ?_ ?_
    · rw [lt_div_iff₀ hd']
      linarith
    · rw [div_lt_iff₀ hd']
      linarith

theorem Cuts.shiftRightOne {em : ExtendedMantissa} {x : ℚ} (h : Cuts em x) :
    Cuts em.shiftRightOne (x / 2) := by
  obtain ⟨hle, hlt, hexact⟩ := h
  have hsplit : (em.mantissa : ℚ) = 2 * (em.mantissa / 2 : Nat) + (em.mantissa % 2 : Nat) := by
    exact_mod_cast (Nat.div_add_mod em.mantissa 2).symm
  have hbit : ((em.mantissa % 2 : Nat) : ℚ) ≤ 1 := by
    exact_mod_cast Nat.le_of_lt_succ (Nat.mod_lt em.mantissa two_pos)
  have hbit' : (0 : ℚ) ≤ (em.mantissa % 2 : Nat) := Nat.cast_nonneg _
  refine ⟨?_, ?_, ?_⟩
  · show ((em.mantissa / 2 : Nat) : ℚ) ≤ x / 2
    linarith
  · show x / 2 < (em.mantissa / 2 : Nat) + 1
    linarith
  · show x / 2 = (em.mantissa / 2 : Nat) ↔
      (em.mantissa % 2 != 0) = false ∧ (em.roundBit || em.stickyBit) = false
    rw [Bool.or_eq_false_iff, ← hexact, bne_eq_false_iff_eq]
    constructor
    · intro hx
      have hzero : ((em.mantissa % 2 : Nat) : ℚ) = 0 := by linarith
      exact ⟨Nat.cast_eq_zero.mp hzero, by linarith⟩
    · rintro ⟨hzero, hx⟩
      rw [hzero, Nat.cast_zero, add_zero] at hsplit
      linarith

theorem Cuts.shiftRight {em : ExtendedMantissa} {x : ℚ} (h : Cuts em x) (k : Nat) :
    Cuts (em >>> k) (x / 2 ^ k) := by
  induction k with
  | zero => simpa [HShiftRight.hShiftRight, Nat.repeat] using h
  | succ k ih =>
    have hstep := ih.shiftRightOne
    rw [div_div, ← pow_succ] at hstep
    exact hstep

/-- Rounding crosses no integer. -/
theorem Cuts.roundedMantissa {em : ExtendedMantissa} {x : ℚ} (h : Cuts em x) (k : Nat) :
    (k ≤ x → k ≤ em.roundedMantissa) ∧ (x ≤ k → em.roundedMantissa ≤ k) := by
  obtain ⟨hle, hlt, hexact⟩ := h
  have hlow : em.mantissa ≤ em.roundedMantissa := by
    rcases em with ⟨m, r, s⟩
    cases r <;> cases s <;> simp [ExtendedMantissa.roundedMantissa, ExtendedMantissa.accuracy,
      Accuracy.roundToNearestEven]
  constructor
  · intro hk
    have hlt' : (k : ℚ) < em.mantissa + 1 := lt_of_le_of_lt hk hlt
    have hk' : k < em.mantissa + 1 := by exact_mod_cast hlt'
    omega
  · intro hk
    -- An exact mantissa is not rounded up, and one with a remainder by one at most.
    by_cases hx : x = em.mantissa
    · have hk' : em.mantissa ≤ k := by
        rw [hx] at hk
        exact_mod_cast hk
      obtain ⟨hround, hsticky⟩ := hexact.mp hx
      have hrounded : em.roundedMantissa = em.mantissa := by
        rcases em with ⟨m, r, s⟩
        cases hround
        cases hsticky
        rfl
      omega
    · have hlt' : (em.mantissa : ℚ) < k := lt_of_lt_of_le (lt_of_le_of_ne hle (Ne.symm hx)) hk
      have hk' : em.mantissa < k := by exact_mod_cast hlt'
      have hup := roundedMantissa_le em
      omega

/-! ## Rounding to places -/

/-- A fraction that is not negative and its rounding to `n` units of `2 ^ t`. All places of a double
are in use, except where numbers get as small as they can be. -/
structure RoundsTo (q : ℚ) (n : Nat) (t : Int) : Prop where
  least : -1074 ≤ t
  full : 2 ^ 52 * 2 ^ t ≤ q ∨ t = -1074
  lt : q < 2 ^ 53 * 2 ^ t
  crosses_none : ∀ k : Nat, (k * 2 ^ t ≤ q → k ≤ n) ∧ (q ≤ k * 2 ^ t → n ≤ k)

theorem RoundsTo.le {q : ℚ} {n : Nat} {t : Int} (h : RoundsTo q n t) : n ≤ 2 ^ 53 := by
  refine (h.crosses_none (2 ^ 53)).2 ?_
  rw [Nat.cast_pow, Nat.cast_ofNat]
  exact h.lt.le

theorem RoundsTo.full_mantissa {q : ℚ} {n : Nat} {t : Int} (h : RoundsTo q n t) :
    2 ^ 52 ≤ n ∨ t = -1074 := by
  refine h.full.imp_left fun hfull => (h.crosses_none (2 ^ 52)).1 ?_
  rw [Nat.cast_pow, Nat.cast_ofNat]
  exact hfull

theorem RoundsTo.faithful {q : ℚ} {n : Nat} {t : Int} (h : RoundsTo q n t) (hq : 0 ≤ q) :
    Faithful q (n * 2 ^ t) := by
  have hpos := two_zpow_pos t
  -- Whole units of `2 ^ t` are not crossed.
  have hunits (k : Int) : ((k : ℚ) * 2 ^ t ≤ q → (k : ℚ) * 2 ^ t ≤ n * 2 ^ t) ∧
      (q ≤ k * 2 ^ t → (n : ℚ) * 2 ^ t ≤ k * 2 ^ t) := by
    rw [mul_le_mul_iff_left₀ hpos, mul_le_mul_iff_left₀ hpos]
    rcases Int.le_total 0 k with hk | hk
    · lift k to Nat using hk
      rw [Int.cast_natCast]
      exact ⟨fun hle => Nat.cast_le.mpr ((h.crosses_none k).1 hle),
        fun hle => Nat.cast_le.mpr ((h.crosses_none k).2 hle)⟩
    · have hk' : (k : ℚ) ≤ 0 := by exact_mod_cast hk
      refine ⟨fun _ => hk'.trans (Nat.cast_nonneg n), fun hle => ?_⟩
      have hzero : q ≤ (0 : Nat) * 2 ^ t := by
        rw [Nat.cast_zero, zero_mul]
        exact hle.trans (mul_nonpos_of_nonpos_of_nonneg hk' hpos.le)
      obtain rfl := Nat.le_zero.mp ((h.crosses_none 0).2 hzero)
      have hk0 : 0 ≤ (k : ℚ) * 2 ^ t := hq.trans hle
      rw [Nat.cast_zero]
      exact nonneg_of_mul_nonneg_left hk0 hpos
  rintro c ⟨k, e, hk, he, rfl⟩
  rcases lt_or_ge e t with het | het
  · -- Finer units than `2 ^ t` end where those of `2 ^ t` begin.
    have hfull := h.full.resolve_right (by omega)
    have hc := le_of_exponent_lt hk het
    have hn : (2 : ℚ) ^ 52 ≤ n := by
      exact_mod_cast h.full_mantissa.resolve_right (by omega)
    refine ⟨fun _ => hc.trans (mul_le_mul_of_nonneg_right hn hpos.le), fun hle => ?_⟩
    have heq : (k : ℚ) * 2 ^ e = ((2 ^ 52 : Int) : ℚ) * 2 ^ t := by
      rw [Int.cast_pow, Int.cast_ofNat]
      exact le_antisymm hc (hfull.trans hle)
    rw [heq] at hle ⊢
    exact (hunits _).2 hle
  · obtain ⟨d, rfl⟩ := Int.le.dest het
    have hwhole : (k : ℚ) * 2 ^ (t + d) = ((k * 2 ^ d : Int) : ℚ) * 2 ^ t := by
      rw [zpow_add₀ two_ne_zero, zpow_natCast]
      push_cast
      ring
    rw [hwhole]
    exact hunits _

/-! ## Rounding of mantissas -/

theorem targetExponent_eq (m : Nat) (e : Int) :
    Format.binary64.targetExponent (totalExponent m e) = max (m.log2 + e - 52) (-1074) := by
  have htarget : Format.binary64.targetExponent (totalExponent m e) =
      max ((m.log2 + 1 + e : Int) - 53) (-1074) := rfl
  omega

theorem shiftToTargetExponent_eq (m : Nat) (e : Int) (acc : Accuracy) :
    shiftToTargetExponent Format.binary64 m e acc =
      (ExtendedMantissa.ofMantissaAndAccuracy m acc >>> (max (m.log2 + e - 52) (-1074) - e).toNat,
        e + (max (m.log2 + e - 52) (-1074) - e).toNat) := by
  unfold shiftToTargetExponent
  rw [targetExponent_eq]
  rfl

/-- A mantissa with all places in use, or as small as it gets, is not moved any more, unless rounding
has brought it to the next power of two. -/
theorem exists_canonical {n : Nat} {t : Int} (hn : n ≤ 2 ^ 53) (ht : -1074 ≤ t)
    (hfull : 2 ^ 52 ≤ n ∨ t = -1074) :
    ∃ (m : Nat) (e : Int), Canonical m e ∧ (m : ℚ) * 2 ^ e = n * 2 ^ t ∧
      (shiftToTargetExponent Format.binary64 n t .exact).1.mantissa = m ∧
      (shiftToTargetExponent Format.binary64 n t .exact).2 = e := by
  rw [shiftToTargetExponent_eq]
  dsimp only
  rw [mantissa_shiftRight, mantissa_ofMantissaAndAccuracy]
  -- Rounding may have come to the next power of two, which has one place too many.
  rcases hn.eq_or_lt with rfl | hlt
  · have hlog : (2 ^ 53 : Nat).log2 = 53 := Nat.log2_two_pow
    have hshift : (max (((2 ^ 53 : Nat).log2 : Int) + t - 52) (-1074) - t).toNat = 1 := by
      rw [hlog]
      omega
    rw [hshift]
    refine ⟨2 ^ 52, t + 1, ⟨by decide, by omega, .inl le_rfl⟩, ?_, by decide, rfl⟩
    rw [zpow_add_one₀ two_ne_zero]
    push_cast
    ring
  · have hlog : n.log2 ≤ 52 := by
      rcases Nat.eq_zero_or_pos n with rfl | hpos
      · decide
      · exact Nat.le_of_lt_succ ((Nat.log2_lt hpos.ne').mpr hlt)
    have hshift : (max ((n.log2 : Int) + t - 52) (-1074) - t).toNat = 0 := by omega
    rw [hshift]
    refine ⟨n, t, ⟨hlt, ht, hfull⟩, rfl, ?_, ?_⟩
    · rw [pow_zero, Nat.div_one]
    · rw [Nat.cast_zero, add_zero]

/-- What has been rounded, without an upper end for its exponent. -/
def Rounded (u : UnpackedFloat) (q : ℚ) : Prop := IsCanonical u ∧ ∃ r, Faithful q r ∧ Denotes u r

theorem Denotes.rounded {u : UnpackedFloat} {q : ℚ} (hu : IsCanonical u) (h : Denotes u q) :
    Rounded u q :=
  ⟨hu, q, (h.representable hu).faithful.mpr rfl, h⟩

theorem roundsTo_shiftToTargetExponent {m : Nat} {e : Int} {acc : Accuracy} {x : ℚ}
    (hx : Cuts (.ofMantissaAndAccuracy m acc) x) (he : 52 ≤ m.log2 ∨ e ≤ -1074) :
    RoundsTo (x * 2 ^ e) (shiftToTargetExponent Format.binary64 m e acc).1.roundedMantissa
      (shiftToTargetExponent Format.binary64 m e acc).2 := by
  have hm : (m : ℚ) ≤ x := by
    have hle := hx.le
    rwa [mantissa_ofMantissaAndAccuracy] at hle
  have hm' : x < 2 ^ (m.log2 + 1) := by
    have hlt := hx.lt
    rw [mantissa_ofMantissaAndAccuracy] at hlt
    have hstep : (m : ℚ) + 1 ≤ 2 ^ (m.log2 + 1) := by
      exact_mod_cast Nat.lt_log2_self
    exact hlt.trans_le hstep
  rw [shiftToTargetExponent_eq]
  dsimp only
  generalize ht : max ((m.log2 : Int) + e - 52) (-1074) = t
  -- From here on `k` places are cut off.
  obtain ⟨k, rfl⟩ : ∃ k : Nat, t = e + k := ⟨(t - e).toNat, by omega⟩
  have hk : (e + k - e : Int).toNat = k := by omega
  rw [hk]
  have hunit : (2 : ℚ) ^ (e + k) = 2 ^ k * 2 ^ e := by
    rw [zpow_add₀ two_ne_zero, zpow_natCast, mul_comm]
  have hpos := two_zpow_pos e
  have hcuts := hx.shiftRight k
  refine ⟨by omega, ?_, ?_, fun n => ?_⟩
  · by_cases hleast : e + k = -1074
    · exact .inr hleast
    refine .inl ?_
    have hlog : m.log2 = k + 52 := by omega
    have hlow : (2 : ℚ) ^ (52 + k) ≤ m := by
      have hne : m ≠ 0 := by
        rintro rfl
        rw [Nat.log2_zero] at hlog
        omega
      rw [show 52 + k = m.log2 by omega]
      exact_mod_cast Nat.log2_self_le hne
    rw [hunit, ← mul_assoc, ← pow_add]
    exact mul_le_mul_of_nonneg_right (hlow.trans hm) hpos.le
  · have hhigh : (2 : ℚ) ^ (m.log2 + 1) ≤ 2 ^ (53 + k) :=
      pow_le_pow_right₀ one_le_two (by omega)
    rw [hunit, ← mul_assoc, ← pow_add]
    exact mul_lt_mul_of_pos_right (hm'.trans_le hhigh) hpos
  · have hscaled := hcuts.roundedMantissa n
    rw [le_div_iff₀ (by positivity), div_le_iff₀ (by positivity)] at hscaled
    rw [hunit, ← mul_assoc, mul_le_mul_iff_left₀ hpos, mul_le_mul_iff_left₀ hpos]
    exact hscaled

theorem rounded_roundWithAccuracy (s : Sign) {m : Nat} {e : Int} {acc : Accuracy} {x : ℚ}
    (hx : Cuts (.ofMantissaAndAccuracy m acc) x) (he : 52 ≤ m.log2 ∨ e ≤ -1074) :
    Rounded (roundWithAccuracy Format.binary64 s m e acc) (signed s (x * 2 ^ e)) := by
  have hround := roundsTo_shiftToTargetExponent hx he
  have hq : 0 ≤ x * 2 ^ e :=
    mul_nonneg ((Nat.cast_nonneg _).trans hx.le) (two_zpow_pos e).le
  unfold roundWithAccuracy
  dsimp only
  generalize (shiftToTargetExponent Format.binary64 m e acc).1.roundedMantissa = n at *
  generalize (shiftToTargetExponent Format.binary64 m e acc).2 = t at *
  obtain ⟨m', e', hcanonical, hvalue, hm', he'⟩ :=
    exists_canonical hround.le hround.least hround.full_mantissa
  have hfaithful := (hround.faithful hq).signed s
  rw [← hvalue] at hfaithful
  generalize shiftToTargetExponent Format.binary64 n t .exact = final at *
  subst hm' he'
  by_cases hzero : final.1.mantissa = 0
  · rw [dif_pos hzero]
    refine ⟨trivial, 0, ?_, .zero s⟩
    rw [hzero, Nat.cast_zero, zero_mul] at hfaithful
    cases s
    · rwa [signed, signed, neg_zero] at hfaithful
    · exact hfaithful
  · rw [dif_neg hzero]
    exact ⟨hcanonical, _, hfaithful, .finite s _ _ _⟩

/-! ## Operations -/

theorem signed_natCast (s : Sign) (m : Nat) : signed s m = ((s.apply m : Int) : ℚ) := by
  cases s
  · show -(m : ℚ) = ((-(m : Int) : Int) : ℚ)
    rw [Int.cast_neg, Int.cast_natCast]
  · exact (Int.cast_natCast m).symm

theorem signed_mul (s : Sign) (a b : ℚ) : signed s (a * b) = signed s a * b := by
  cases s
  · exact (neg_mul a b).symm
  · rfl

theorem decreaseExponent_value (m : Nat) {e t : Int} (h : t ≤ e) :
    ((decreaseExponent m e t).1 : ℚ) * 2 ^ t = m * 2 ^ e := by
  obtain ⟨k, rfl⟩ := Int.le.dest h
  have hk : (t + k - t : Int).toNat = k := by omega
  unfold decreaseExponent
  dsimp only
  rw [hk, Nat.shiftLeft_eq, zpow_add₀ two_ne_zero, zpow_natCast]
  push_cast
  ring

theorem two_pow_le_shiftLeft {m k n : Nat} (hm : 0 < m) (h : n ≤ m.log2 + k) :
    2 ^ n ≤ m <<< k := by
  rw [Nat.shiftLeft_eq]
  calc 2 ^ n ≤ 2 ^ (m.log2 + k) := Nat.pow_le_pow_right two_pos h
    _ = 2 ^ m.log2 * 2 ^ k := Nat.pow_add 2 _ _
    _ ≤ m * 2 ^ k := Nat.mul_le_mul_right _ (Nat.log2_self_le hm.ne')

theorem le_log2_of_two_pow_le {m n : Nat} (h : 2 ^ n ≤ m) : n ≤ m.log2 :=
  (Nat.le_log2 (Nat.lt_of_lt_of_le (Nat.two_pow_pos n) h).ne').mpr h

theorem rounded_round (s : Sign) {m : Nat} (hm : 0 < m) (e : Int) :
    Rounded (UnpackedFloat.round Format.binary64 s m e) (signed s (m * 2 ^ e)) := by
  unfold UnpackedFloat.round decreaseExponent
  rw [targetExponent_eq]
  dsimp only
  generalize hk : (e - max ((m.log2 : Int) + e - 52) (-1074)).toNat = k
  have hvalue : ((m <<< k : Nat) : ℚ) * 2 ^ (e - k) = m * 2 ^ e := by
    rw [Nat.shiftLeft_eq, zpow_sub₀ two_ne_zero, zpow_natCast]
    push_cast
    field_simp
  rw [← hvalue]
  refine rounded_roundWithAccuracy s (cuts_exact _) ?_
  by_cases hleast : e - k ≤ -1074
  · exact .inr hleast
  · exact .inl (le_log2_of_two_pow_le (two_pow_le_shiftLeft hm (by omega)))

theorem rounded_normalize (k e : Int) :
    Rounded (UnpackedFloat.normalize Format.binary64 k e .positive) (k * 2 ^ e) := by
  unfold UnpackedFloat.normalize
  rcases lt_trichotomy k 0 with hk | rfl | hk
  · rw [compare_lt_iff_lt.mpr hk]
    obtain ⟨m, rfl⟩ : ∃ m : Nat, k = -m := ⟨k.natAbs, by omega⟩
    have hround := rounded_round .negative (m := m) (by omega) e
    rw [signed_mul, signed_natCast] at hround
    rwa [neg_neg, Int.toNat_natCast]
  · rw [compare_eq_iff_eq.mpr rfl, Int.cast_zero, zero_mul]
    exact Denotes.rounded trivial (.zero _)
  · rw [compare_gt_iff_gt.mpr hk]
    lift k to Nat using hk.le
    have hround := rounded_round .positive (m := k) (by omega) e
    rwa [signed_mul, signed_natCast] at hround

section

variable {u v : UnpackedFloat} {a b : ℚ}

theorem rounded_add (hu : IsCanonical u) (hv : IsCanonical v) (ha : Denotes u a)
    (hb : Denotes v b) : Rounded (UnpackedFloat.add Format.binary64 u v) (a + b) := by
  cases ha with
  | zero s =>
    rw [zero_add]
    cases hb with
    | zero s' => cases s <;> cases s' <;> exact Denotes.rounded trivial (.zero _)
    | finite s' m' e' hm' => exact Denotes.rounded hv (.finite s' m' e' hm')
  | finite s m e hm =>
    cases hb with
    | zero s' =>
      rw [add_zero]
      exact Denotes.rounded hu (.finite s m e hm)
    | finite s' m' e' hm' =>
      have hround := rounded_normalize (s.apply (decreaseExponent m e (min e e')).1 +
        s'.apply (decreaseExponent m' e' (min e e')).1) (min e e')
      rwa [Int.cast_add, ← signed_natCast, ← signed_natCast, add_mul, ← signed_mul, ← signed_mul,
        decreaseExponent_value m (min_le_left e e'),
        decreaseExponent_value m' (min_le_right e e')] at hround

theorem signed_mul_signed (s s' : Sign) (a b : ℚ) :
    signed (s * s') (a * b) = signed s a * signed s' b := by
  cases s <;> cases s'
  · exact (neg_mul_neg a b).symm
  · exact (neg_mul a b).symm
  · exact (mul_neg a b).symm
  · rfl

theorem rounded_mul (hu : IsCanonical u) (hv : IsCanonical v) (ha : Denotes u a)
    (hb : Denotes v b) : Rounded (UnpackedFloat.mul Format.binary64 u v) (a * b) := by
  cases ha with
  | zero s =>
    rw [zero_mul]
    cases hb with
    | zero s' => exact Denotes.rounded trivial (.zero _)
    | finite s' m' e' hm' => exact Denotes.rounded trivial (.zero _)
  | finite s m e hm =>
    cases hb with
    | zero s' =>
      rw [mul_zero]
      exact Denotes.rounded trivial (.zero _)
    | finite s' m' e' hm' =>
      -- A factor with all its places gives them to the product; two without are far below all
      -- units.
      have hplaces : 52 ≤ (m * m').log2 ∨ e + e' ≤ -1074 := by
        rcases hu.full with hfull | rfl
        · exact .inl (le_log2_of_two_pow_le (hfull.trans (Nat.le_mul_of_pos_right m hm')))
        rcases hv.full with hfull | rfl
        · exact .inl (le_log2_of_two_pow_le (hfull.trans (Nat.le_mul_of_pos_left m' hm)))
        · exact .inr (by decide)
      have hround := rounded_roundWithAccuracy (s * s') (cuts_exact (m * m')) hplaces
      have hvalue : ((m * m' : Nat) : ℚ) * 2 ^ (e + e') = m * 2 ^ e * (m' * 2 ^ e') := by
        rw [zpow_add₀ two_ne_zero]
        push_cast
        ring
      rwa [hvalue, signed_mul_signed] at hround

theorem signed_div_signed (s s' : Sign) (a b : ℚ) :
    signed (s / s') (a / b) = signed s a / signed s' b := by
  cases s <;> cases s'
  · exact (neg_div_neg_eq a b).symm
  · exact (neg_div b a).symm
  · exact (div_neg a).symm
  · rfl

theorem rounded_div (hu : IsCanonical u) (hv : IsCanonical v) (ha : Denotes u a)
    (hb : Denotes v b) (hb0 : b ≠ 0) :
    Rounded (UnpackedFloat.div Format.binary64 u v) (a / b) := by
  cases hb with
  | zero s' => exact absurd rfl hb0
  | finite s' m' e' hm' =>
    cases ha with
    | zero s =>
      rw [zero_div]
      exact Denotes.rounded trivial (.zero _)
    | finite s m e hm =>
      have htarget : Format.binary64.targetExponent (totalExponent m e - totalExponent m' e') =
          max ((m.log2 + 1 + e : Int) - (m'.log2 + 1 + e') - 53) (-1074) := rfl
      unfold UnpackedFloat.div divCore
      dsimp only
      rw [htarget]
      generalize ht : min (e - e') (max ((m.log2 + 1 + e : Int) - (m'.log2 + 1 + e') - 53) (-1074)) = t
      have hle : t ≤ e - e' := by omega
      obtain ⟨k, hk⟩ := Int.le.dest hle
      have hshift : (e - e' - t).toNat = k := by omega
      rw [hshift]
      -- The dividend was shifted so far that the quotient has all its places.
      have hplaces : 52 ≤ (m <<< k / m').log2 ∨ t ≤ -1074 := by
        by_cases hleast : t ≤ -1074
        · exact .inr hleast
        have hwide : 2 ^ (53 + m'.log2) ≤ m <<< k := two_pow_le_shiftLeft hm (by omega)
        refine .inl (le_log2_of_two_pow_le ?_)
        rw [Nat.le_div_iff_mul_le hm']
        calc 2 ^ 52 * m' ≤ 2 ^ 52 * 2 ^ (m'.log2 + 1) :=
              Nat.mul_le_mul_left _ Nat.lt_log2_self.le
          _ = 2 ^ (53 + m'.log2) := by
              rw [← Nat.pow_add, Nat.add_comm m'.log2, ← Nat.add_assoc]
          _ ≤ m <<< k := hwide
      have hround := rounded_roundWithAccuracy (s / s') (cuts_fraction (m <<< k) hm') hplaces
      have hm0 : (m' : ℚ) ≠ 0 := Nat.cast_ne_zero.mpr hm'.ne'
      have hvalue : ((m <<< k : Nat) : ℚ) / m' * 2 ^ t = m * 2 ^ e / (m' * 2 ^ e') := by
        have hunit : (2 : ℚ) ^ e = 2 ^ k * 2 ^ t * 2 ^ e' := by
          rw [← zpow_natCast, ← zpow_add₀ two_ne_zero, ← zpow_add₀ two_ne_zero]
          congr 1
          omega
        rw [hunit, Nat.shiftLeft_eq]
        push_cast
        field_simp
      rwa [hvalue, signed_div_signed] at hround

end

end Fickle.Binary64

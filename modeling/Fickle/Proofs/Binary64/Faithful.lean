import Mathlib.Algebra.Order.Archimedean.Basic
import Mathlib.Data.Rat.Floor
import Fickle.Proofs.Binary64.Value

/-! # Faithful rounding

Rounding crosses no fraction that a double could hold. That is all that is used of it: so it keeps
bounds, and its error is small. Which of two neighbours it takes does not matter here.
-/

open Float.Model Float.Model.UnpackedFloat

namespace Fickle.Binary64

/-! ## Fractions that doubles hold -/

/-- A fraction that a double could hold if its exponent had no upper end. -/
def Representable (c : ℚ) : Prop := ∃ n e : Int, n.natAbs ≤ 2 ^ 53 ∧ -1074 ≤ e ∧ c = n * 2 ^ e

theorem representable_intCast_mul {n e : Int} (hn : n.natAbs ≤ 2 ^ 53) (he : -1074 ≤ e) :
    Representable (n * 2 ^ e) := ⟨n, e, hn, he, rfl⟩

theorem representable_natCast_mul {n : Nat} {e : Int} (hn : n ≤ 2 ^ 53) (he : -1074 ≤ e) :
    Representable (n * 2 ^ e) := ⟨n, e, hn, he, by rw [Int.cast_natCast]⟩

theorem representable_intCast {n : Int} (hn : n.natAbs ≤ 2 ^ 53) : Representable n :=
  ⟨n, 0, hn, by decide, by rw [zpow_zero, mul_one]⟩

theorem representable_natCast {n : Nat} (hn : n ≤ 2 ^ 53) : Representable n :=
  Int.cast_natCast (R := ℚ) n ▸ representable_intCast hn

theorem representable_zero : Representable 0 :=
  Int.cast_zero (R := ℚ) ▸ representable_intCast (by decide)

theorem representable_one : Representable 1 :=
  Int.cast_one (R := ℚ) ▸ representable_intCast (by decide)

theorem representable_two_zpow {e : Int} (he : -1074 ≤ e) : Representable (2 ^ e) := by
  have h := representable_natCast_mul (n := 1) (by decide) he
  rwa [Nat.cast_one, one_mul] at h

theorem representable_one_div {n : Nat} (hn : n ≤ 1074) : Representable (1 / 2 ^ n) := by
  have h := representable_two_zpow (e := -n) (by omega)
  rwa [zpow_neg, zpow_natCast, ← one_div] at h

theorem representable_two : Representable 2 :=
  zpow_one (2 : ℚ) ▸ representable_two_zpow (by decide)

theorem Representable.neg {c : ℚ} (h : Representable c) : Representable (-c) := by
  obtain ⟨n, e, hn, he, rfl⟩ := h
  refine ⟨-n, e, by rwa [Int.natAbs_neg], he, ?_⟩
  rw [Int.cast_neg, neg_mul]

theorem Representable.signed {c : ℚ} (h : Representable c) (s : Sign) :
    Representable (signed s c) := by
  cases s
  · exact h.neg
  · exact h

theorem Representable.abs {c : ℚ} (h : Representable c) : Representable |c| := by
  rcases abs_choice c with heq | heq <;> rw [heq]
  · exact h
  · exact h.neg

theorem Representable.two_mul {c : ℚ} (h : Representable c) : Representable (2 * c) := by
  obtain ⟨n, e, hn, he, rfl⟩ := h
  refine ⟨n, e + 1, hn, by omega, ?_⟩
  rw [zpow_add_one₀ two_ne_zero]
  ring

theorem Representable.max {c d : ℚ} (hc : Representable c) (hd : Representable d) :
    Representable (max c d) := by
  rcases max_choice c d with heq | heq <;> rw [heq]
  · exact hc
  · exact hd

/-- With a smaller exponent everything that doubles hold is smaller than full places. -/
theorem le_of_exponent_lt {n e t : Int} (hn : n.natAbs ≤ 2 ^ 53) (he : e < t) :
    (n : ℚ) * 2 ^ e ≤ 2 ^ 52 * 2 ^ t := by
  have hn' : (n : ℚ) ≤ 2 ^ 53 := by exact_mod_cast (by omega : n ≤ 2 ^ 53)
  have hstep : (2 : ℚ) * 2 ^ e ≤ 2 ^ t := by
    rw [← zpow_one_add₀ two_ne_zero]
    exact zpow_le_zpow_right₀ one_le_two (by omega)
  calc (n : ℚ) * 2 ^ e ≤ 2 ^ 53 * 2 ^ e := mul_le_mul_of_nonneg_right hn' (two_zpow_pos e).le
    _ = 2 ^ 52 * (2 * 2 ^ e) := by ring
    _ ≤ 2 ^ 52 * 2 ^ t := mul_le_mul_of_nonneg_left hstep (by positivity)

/-- Only the least numbers cannot be halved. -/
theorem Representable.half {c : ℚ} (h : Representable c) (hc : 1 ≤ c) : Representable (c / 2) := by
  obtain ⟨n, e, hn, he, rfl⟩ := h
  have he' : -53 ≤ e := by
    by_contra hlt
    have hle := le_of_exponent_lt hn (not_le.mp hlt)
    norm_num at hle
    linarith
  refine ⟨n, e - 1, hn, by omega, ?_⟩
  rw [zpow_sub_one₀ two_ne_zero]
  ring

theorem Denotes.representable {u : UnpackedFloat} {a : ℚ} (hu : IsCanonical u)
    (h : Denotes u a) : Representable a := by
  cases h with
  | zero s => exact representable_zero
  | finite s m e hm => exact (representable_natCast_mul hu.lt.le hu.least).signed s

/-- The least positive double is a unit for all of them. -/
theorem Representable.units {c : ℚ} (h : Representable c) :
    ∃ n : Int, c = n * 2 ^ (-1074 : Int) := by
  obtain ⟨n, e, -, he, rfl⟩ := h
  obtain ⟨d, rfl⟩ := Int.le.dest he
  refine ⟨n * 2 ^ d, ?_⟩
  rw [zpow_add₀ two_ne_zero, zpow_natCast, Int.cast_mul, Int.cast_pow, Int.cast_ofNat,
    mul_comm (2 ^ (-1074 : Int)), mul_assoc]

/-- What a fraction is rounded to crosses nothing that a double could hold. -/
def Faithful (q r : ℚ) : Prop := ∀ c, Representable c → (c ≤ q → c ≤ r) ∧ (q ≤ c → r ≤ c)

theorem Representable.faithful {q : ℚ} (h : Representable q) {r : ℚ} :
    Faithful q r ↔ r = q := by
  constructor
  · intro hr
    exact le_antisymm ((hr q h).2 le_rfl) ((hr q h).1 le_rfl)
  · rintro rfl
    exact fun c _ => ⟨id, id⟩

theorem Faithful.neg {q r : ℚ} (h : Faithful q r) : Faithful (-q) (-r) := by
  intro c hc
  obtain ⟨hlow, hhigh⟩ := h (-c) hc.neg
  exact ⟨fun hle => le_neg_of_le_neg (hhigh (le_neg_of_le_neg hle)),
    fun hle => neg_le_of_neg_le (hlow (neg_le_of_neg_le hle))⟩

theorem Faithful.signed {q r : ℚ} (h : Faithful q r) (s : Sign) :
    Faithful (signed s q) (signed s r) := by
  cases s
  · exact h.neg
  · exact h

theorem Faithful.nonneg {q r : ℚ} (h : Faithful q r) (hq : 0 ≤ q) : 0 ≤ r :=
  (h 0 representable_zero).1 hq

theorem Faithful.keeps_bound {q r c : ℚ} (h : Faithful q r) (hc : Representable c)
    (hq : |q| ≤ c) : |r| ≤ c := by
  obtain ⟨hlow, hhigh⟩ := abs_le.mp hq
  exact abs_le.mpr ⟨(h _ hc.neg).1 hlow, (h _ hc).2 hhigh⟩

/-! ## How far rounding goes -/

theorem Faithful.sub_le_unit {q r : ℚ} (h : Faithful q r) (hq : 0 ≤ q) {e : Int} (he : -1074 ≤ e)
    (hle : q ≤ 2 ^ 53 * 2 ^ e) : |r - q| ≤ 2 ^ e := by
  have hpos := two_zpow_pos e
  have hlow : (⌊q / 2 ^ e⌋₊ : ℚ) * 2 ^ e ≤ q :=
    (le_div_iff₀ hpos).mp (Nat.floor_le (div_nonneg hq hpos.le))
  have hhigh : q < ((⌊q / 2 ^ e⌋₊ + 1 : Nat) : ℚ) * 2 ^ e := by
    rw [← div_lt_iff₀ hpos, Nat.cast_add_one]
    exact Nat.lt_floor_add_one _
  generalize ⌊q / 2 ^ e⌋₊ = k at hlow hhigh
  rcases Nat.lt_or_ge k (2 ^ 53) with hk | hk
  · have hr := (h _ (representable_natCast_mul hk.le he)).1 hlow
    have hr' := (h _ (representable_natCast_mul hk he)).2 hhigh.le
    rw [Nat.cast_add_one, add_mul, one_mul] at hhigh hr'
    exact abs_le.mpr ⟨by linarith, by linarith⟩
  · have hk' : (2 : ℚ) ^ 53 ≤ k := by exact_mod_cast hk
    have heq : q = ((2 ^ 53 : Nat) : ℚ) * 2 ^ e := by
      rw [Nat.cast_pow, Nat.cast_ofNat]
      exact le_antisymm hle ((mul_le_mul_of_nonneg_right hk' hpos.le).trans hlow)
    have hrepresentable := representable_natCast_mul (le_refl (2 ^ 53)) he
    rw [← heq] at hrepresentable
    rw [hrepresentable.faithful.mp h, sub_self, abs_zero]
    exact hpos.le

theorem Faithful.abs_sub_le_unit {q r : ℚ} (h : Faithful q r) {e : Int} (he : -1074 ≤ e)
    (hle : |q| ≤ 2 ^ 53 * 2 ^ e) : |r - q| ≤ 2 ^ e := by
  rcases le_total 0 q with hq | hq
  · exact h.sub_le_unit hq he ((le_abs_self q).trans hle)
  · have hneg := h.neg.sub_le_unit (neg_nonneg.mpr hq) he ((neg_le_abs q).trans hle)
    rwa [neg_sub_neg, abs_sub_comm] at hneg

/-- Among numbers with all places in use the error is small beside the number; below them it is at
most the least unit. -/
theorem Faithful.error {q r : ℚ} (h : Faithful q r) (hq : 0 < q) :
    |r - q| ≤ q / 2 ^ 52 ∨ q < 2 ^ 53 * 2 ^ (-1074 : Int) ∧ |r - q| ≤ 2 ^ (-1074 : Int) := by
  obtain ⟨k, hlow, hhigh⟩ := exists_mem_Ico_zpow hq one_lt_two
  have hsplit : (2 : ℚ) ^ k = 2 ^ 52 * 2 ^ (k - 52) := by
    rw [← zpow_natCast, ← zpow_add₀ two_ne_zero]
    congr 1
    omega
  have hstep : (2 : ℚ) ^ (k + 1) = 2 ^ 53 * 2 ^ (k - 52) := by
    rw [zpow_add_one₀ two_ne_zero, hsplit]
    ring
  rw [hsplit] at hlow
  rw [hstep] at hhigh
  rcases lt_or_ge (k - 52) (-1074) with hk | hk
  · have hunit : (2 : ℚ) ^ (k - 52) ≤ 2 ^ (-1074 : Int) := zpow_le_zpow_right₀ one_le_two hk.le
    have hsmall : q < 2 ^ 53 * 2 ^ (-1074 : Int) :=
      hhigh.trans_le (mul_le_mul_of_nonneg_left hunit (by positivity))
    exact .inr ⟨hsmall, h.sub_le_unit hq.le le_rfl hsmall.le⟩
  · refine .inl ((h.sub_le_unit hq.le hk hhigh.le).trans ?_)
    rw [le_div_iff₀ (by positivity), mul_comm]
    exact hlow

theorem Faithful.error_le {q r : ℚ} (h : Faithful q r) (hq : 0 ≤ q) :
    |r - q| ≤ q / 2 ^ 52 + 2 ^ (-1074 : Int) := by
  have hunit := (two_zpow_pos (-1074)).le
  have hshare : 0 ≤ q / 2 ^ 52 := div_nonneg hq (by positivity)
  rcases hq.eq_or_lt with rfl | hpos
  · rw [representable_zero.faithful.mp h, sub_self, abs_zero]
    exact add_nonneg hshare hunit
  · rcases h.error hpos with herror | ⟨-, herror⟩
    · exact herror.trans (le_add_of_nonneg_right hunit)
    · exact herror.trans (le_add_of_nonneg_left hshare)

theorem Faithful.error_le_div_add {q r : ℚ} (h : Faithful q r) (hq : 0 ≤ q) :
    |r - q| ≤ q / 2 ^ 52 + 1 / 2 ^ 170 := by
  have hleast : (2 : ℚ) ^ (-1074 : Int) ≤ 1 / 2 ^ 170 := by
    rw [one_div, ← zpow_natCast, ← zpow_neg]
    exact zpow_le_zpow_right₀ one_le_two (by decide)
  exact (h.error_le hq).trans (add_le_add_right hleast _)

/-- The error of a fraction that is a whole number of least units, such as a sum of doubles. -/
theorem Faithful.error_of_units {q r : ℚ} (h : Faithful q r) (hq : 0 ≤ q) {n : Int}
    (hn : q = n * 2 ^ (-1074 : Int)) : |r - q| ≤ q / 2 ^ 52 := by
  rcases hq.eq_or_lt with rfl | hpos
  · rw [representable_zero.faithful.mp h, sub_self, abs_zero, zero_div]
  · rcases h.error hpos with herror | ⟨hsmall, -⟩
    · exact herror
    · rw [hn] at hpos hsmall
      have hlow : (0 : ℚ) < n := (mul_pos_iff_of_pos_right (two_zpow_pos _)).mp hpos
      have hhigh : (n : ℚ) < 2 ^ 53 := lt_of_mul_lt_mul_right hsmall (two_zpow_pos _).le
      have hlow' : 0 < n := by exact_mod_cast hlow
      have hhigh' : n < 2 ^ 53 := by exact_mod_cast hhigh
      have hrepresentable : Representable q :=
        hn ▸ representable_intCast_mul (by omega) le_rfl
      rw [hrepresentable.faithful.mp h, sub_self, abs_zero]
      exact div_nonneg hq (by positivity)

theorem unit_le_of_units {q : ℚ} {n : Int} (hn : q = n * 2 ^ (-1074 : Int)) (hq : 0 < q) :
    2 ^ (-1074 : Int) ≤ q := by
  have hunit := two_zpow_pos (-1074)
  rw [hn] at hq ⊢
  have hpos : (0 : ℚ) < n := (mul_pos_iff_of_pos_right hunit).mp hq
  have hpos' : 0 < n := by exact_mod_cast hpos
  have hone : (1 : ℚ) ≤ n := by exact_mod_cast hpos'
  exact le_mul_of_one_le_left hunit.le hone

/-- A difference of doubles is not lost. -/
theorem Faithful.pos_of_lt {a b d : ℚ} (h : Faithful (a - b) d) (ha : Representable a)
    (hb : Representable b) (hlt : b < a) : 0 < d := by
  obtain ⟨m, hm⟩ := ha.units
  obtain ⟨n, hn⟩ := hb.units
  have hunits : a - b = (m - n : Int) * 2 ^ (-1074 : Int) := by
    rw [Int.cast_sub, sub_mul, ← hm, ← hn]
  have hle := unit_le_of_units hunits (sub_pos.mpr hlt)
  exact (two_zpow_pos (-1074)).trans_le ((h _ (representable_two_zpow le_rfl)).1 hle)

end Fickle.Binary64

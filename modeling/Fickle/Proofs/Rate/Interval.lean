import Fickle.Proofs.Binary64.Near
import Fickle.Rate.Assertion

/-! # Intervals on doubles

With enough trials the standard error keeps away from zero, and on doubles it stays so. Then a
distance is compared with the width of an interval as if it was divided by the standard error and
compared with the critical value, but for a trifle.
-/

namespace Fickle

open Binary64

/-! ## The two sides of a rate -/

/-- A rate on doubles, and what it leaves of one. -/
structure Sides (e : Binary64) (a b : ℚ) : Prop where
  rate : Denotes e.unpacked a
  rest : Denotes (1.0 - e).unpacked b
  nonneg : 0 ≤ a ∧ 0 ≤ b
  le_one : a ≤ 1 ∧ b ≤ 1
  least_le : min a b ≤ 1 / 2
  le_most : 1 / 2 ≤ max a b
  sure : min a b = 0 ↔ a = 0 ∨ a = 1

variable {e : Binary64} {a b : ℚ} {n : ℕ}

theorem cast_le_of_counted (h : n < UInt64.size - 1) : (n : ℚ) ≤ 2 ^ 64 := by
  have hle : n ≤ 2 ^ 64 := h.le.trans (by decide)
  exact_mod_cast hle

theorem exists_sides (he : Denotes e.unpacked a) (h0 : 0 ≤ a) (h1 : a ≤ 1) :
    ∃ b, Sides e a b := by
  have hhalf : Representable (1 / 2) := by simpa using representable_one_div (n := 1) (by decide)
  rcases le_or_gt (1 / 2) a with hlarge | hsmall
  · -- From a half up the difference from one is exact, and below it the rest keeps above a half.
    have hle : 1 - a ≤ a := by linarith
    refine ⟨1 - a, he, denotes_one_sub he hlarge h1, ⟨h0, by linarith⟩, ⟨h1, by linarith⟩, ?_, ?_, ?_⟩
    · rw [min_eq_right hle]
      linarith
    · rwa [max_eq_left hle]
    · rw [min_eq_right hle, sub_eq_zero, eq_comm]
      exact (or_iff_right (by linarith)).symm
  · obtain ⟨b, hb, hlow, hhigh⟩ := (denotes_one.sub he).spans hhalf representable_one (by norm_num)
      (by norm_num) (by linarith) (by linarith)
    have hle : a ≤ b := by linarith
    refine ⟨b, he, hb, ⟨h0, by linarith⟩, ⟨h1, hhigh⟩, ?_, ?_, ?_⟩
    · rw [min_eq_left hle]
      exact hsmall.le
    · rwa [max_eq_right hle]
    · rw [min_eq_left hle]
      exact (or_iff_left (by linarith)).symm

namespace Sides

variable (h : Sides e a b)

include h

theorem least_nonneg : 0 ≤ min a b := le_min h.nonneg.1 h.nonneg.2

theorem half_least_le : min a b / 2 ≤ a * b := by
  rw [← min_mul_max a b, div_eq_mul_one_div]
  exact mul_le_mul_of_nonneg_left h.le_most h.least_nonneg

theorem mul_le_one : a * b ≤ 1 := mul_le_one₀ h.le_one.1 h.nonneg.2 h.le_one.2

/-- Where there are enough trials, five successes and five failures are expected, or nearly so. -/
theorem enough (hpos : 0 < min a b) (hn : (minTrials e).toNat ≤ n) (hcounted : n < UInt64.size - 1) :
    10 ≤ n ∧ 22 / 5 ≤ n * min a b := by
  have htail := h.rate.smaller h.rest
  have hfive : Denotes (minExpectedCount : Binary64).unpacked 5 :=
    denotes_of_isWritten (5 * 2 ^ 50) (-50) rfl (by norm_num)
  have hceil : minTrials e = Scalar.ceil (minExpectedCount / Scalar.smaller e (1.0 - e)) :=
    if_neg (mt (htail.le_iff denotes_zero).mp (not_le.mpr hpos))
  rw [hceil] at hn
  have hleast := h.least_le
  generalize min a b = t at *
  have hten : 10 ≤ 5 / t := by
    rw [le_div_iff₀ hpos]
    linarith
  obtain ⟨r, -, hr, hlt⟩ := (hfive.div htail hpos.ne').exists_of_ceil_le (by positivity) hcounted hn
  have hr10 : 10 ≤ r := by
    have hten' := (hr 10 (representable_natCast (n := 10) (by decide))).1 hten
    exact hten'
  have hn10 : 10 ≤ n := by
    have hlt' : (9 : ℚ) < n := by linarith
    exact_mod_cast hlt'
  refine ⟨hn10, ?_⟩
  have herror := (abs_le.mp (hr.error_le_div_add (by positivity))).1
  have hmost : 5 / t * 0.99 ≤ n + 1 := by
    norm_num at herror hten ⊢
    linarith
  have hscaled := mul_le_mul_of_nonneg_right hmost hpos.le
  rw [mul_right_comm, div_mul_cancel₀ _ hpos.ne'] at hscaled
  norm_num at hscaled
  linarith

/-- There is no verdict without trials. -/
theorem trials_pos (hn : (minTrials e).toNat ≤ n) (hcounted : n < UInt64.size - 1) : 0 < n := by
  rcases h.least_nonneg.eq_or_lt with hzero | hpos
  · have htail := h.rate.smaller h.rest
    have hone : minTrials e = 1 := if_pos ((htail.le_iff denotes_zero).mpr hzero.ge)
    rw [hone] at hn
    exact hn
  · have hten := (h.enough hpos hn hcounted).1
    omega

end Sides

/-! ## The standard error -/

namespace RateInterval

theorem exists_trialCount (hn : 0 < n) (hcounted : n < UInt64.size - 1) :
    ∃ c : ℚ, Denotes (trialCount n : Binary64).unpacked c ∧ |c - n| ≤ n * 1e-15 ∧ 1 ≤ c := by
  have hn1 : (1 : ℚ) ≤ n := by exact_mod_cast hn
  have hn2 := cast_le_of_counted hcounted
  have hrounds := rounds_ofNat n
  obtain ⟨c, hc, hfaithful⟩ := hrounds.exists_denotes (by
    rw [abs_of_pos (by positivity)]
    exact hn2.trans (by norm_num))
  refine ⟨c, ?_, ?_, (hfaithful 1 representable_one).1 hn1⟩
  · unfold trialCount
    rwa [max_eq_left hn]
  · have herror := hfaithful.error_le_div_add (by positivity)
    norm_num at herror ⊢
    linarith

theorem denotes_standardError_of_sure (h : Sides e a b) (hsure : min a b = 0) (hn : 0 < n)
    (hcounted : n < UInt64.size - 1) : Denotes (standardError e n).unpacked 0 := by
  obtain ⟨c, hc, -, hc1⟩ := exists_trialCount hn hcounted
  have hzero : a * b = 0 := by rw [← min_mul_max, hsure, zero_mul]
  have hproduct := (h.rate.mul h.rest).denotes_self (hzero ▸ representable_zero)
    (by rw [hzero, abs_zero]; exact beyond_pos)
  rw [hzero] at hproduct
  have hquotient := (hproduct.div hc (by linarith)).denotes_self
    ((zero_div c).symm ▸ representable_zero) (by rw [zero_div, abs_zero]; exact beyond_pos)
  rw [zero_div] at hquotient
  exact hquotient.sqrt_zero

section

variable (h : Sides e a b) (hpos : 0 < min a b) (hn : (minTrials e).toNat ≤ n)
  (hcounted : n < UInt64.size - 1) {c : ℚ} (hcn : |c - n| ≤ n * 1e-15)

include h hpos hn hcounted hcn

/-- The product loses nothing that counts, since five successes and five failures are expected. -/
theorem exists_product : ∃ p, Denotes (e * (1.0 - e)).unpacked p ∧ 0 ≤ p ∧ p ≤ 1 ∧ 2 ≤ p * c := by
  obtain ⟨-, htrials⟩ := h.enough hpos hn hcounted
  have hn0 : (0 : ℚ) ≤ n := Nat.cast_nonneg n
  have hn64 := cast_le_of_counted hcounted
  have hab0 : 0 ≤ a * b := mul_nonneg h.nonneg.1 h.nonneg.2
  obtain ⟨p, hp, hpf⟩ := (h.rate.mul h.rest).exists_denotes (by
    rw [abs_of_nonneg hab0]
    exact h.mul_le_one.trans (by norm_num))
  have hp0 := hpf.nonneg hab0
  refine ⟨p, hp, hp0, (hpf 1 representable_one).2 h.mul_le_one, ?_⟩
  -- What the product and the count are off by is small beside five halves.
  have hlow := mul_le_mul_of_nonneg_right (abs_le.mp (hpf.error_le_div_add hab0)).1 hn0
  have hhalf := mul_le_mul_of_nonneg_right h.half_least_le hn0
  have hshare : p * n * 0.99 ≤ p * c := by
    rw [mul_assoc]
    refine mul_le_mul_of_nonneg_left ?_ hp0
    have hclow := (abs_le.mp hcn).1
    norm_num at hclow ⊢
    linarith
  norm_num at hlow hhalf hshare
  linarith

variable (hc : Denotes (trialCount n : Binary64).unpacked c) (hc1 : 1 ≤ c) (hc65 : c ≤ 2 ^ 65)

include hc hc1 hc65

theorem exists_variance : ∃ q, Denotes (e * (1.0 - e) / trialCount n).unpacked q ∧
    (1.2 / c) ^ 2 ≤ q ∧ q ≤ 1 := by
  obtain ⟨p, hp, hp0, hp1, hpc⟩ := exists_product h hpos hn hcounted hcn
  have hcpos : 0 < c := by linarith
  have hpc0 : 0 ≤ p / c := by positivity
  have hpc1 : p / c ≤ 1 := by
    rw [div_le_one hcpos]
    linarith
  obtain ⟨q, hq, hqf⟩ := (hp.div hc hcpos.ne').exists_denotes (by
    rw [abs_of_nonneg hpc0]
    exact hpc1.trans (by norm_num))
  refine ⟨q, hq, ?_, (hqf 1 representable_one).2 hpc1⟩
  have hlow := (abs_le.mp (hqf.error_le_div_add hpc0)).1
  have hscaled := mul_le_mul_of_nonneg_right hlow (by positivity : 0 ≤ c * c)
  -- The least unit is nothing beside a count, however often that goes into it.
  have hsquare : c * c ≤ 2 ^ 65 * 2 ^ 65 := mul_le_mul hc65 hc65 hcpos.le (by norm_num)
  have hsplit : p / c * (c * c) = p * c := by
    field_simp
  have hexpand : (-(p / c / 2 ^ 52 + 1 / 2 ^ 170)) * (c * c) =
      -(p * c / 2 ^ 52 + c * c / 2 ^ 170) := by
    rw [← hsplit]
    ring
  rw [div_pow, div_le_iff₀ (by positivity), sq c]
  rw [hexpand, sub_mul, hsplit] at hscaled
  norm_num at hscaled hsquare ⊢
  linarith

/-- With enough trials the standard error is one trial at least. -/
theorem exists_standardError : ∃ s, Denotes (standardError e n).unpacked s ∧ 1 / c ≤ s ∧ s ≤ 2 := by
  obtain ⟨q, hq, hqc, hq1⟩ := exists_variance h hpos hn hcounted hcn hc hc1 hc65
  have hcpos : 0 < c := by linarith
  have hqpos : 0 < q := lt_of_lt_of_le (by positivity) hqc
  obtain ⟨s, hs, hroot⟩ := hq.sqrt hqpos
  obtain ⟨hlow, hhigh⟩ := abs_le.mp hroot
  refine ⟨s, hs, ?_, ?_⟩
  · have hsqrt : 1.2 * (1 / (c : ℝ)) ≤ √q := by
      refine Real.le_sqrt_of_sq_le ?_
      have hcast := (Rat.cast_le (K := ℝ)).mpr hqc
      push_cast at hcast
      rwa [mul_one_div]
    have hcast : 1 / (c : ℝ) ≤ s := by
      have hshare : (0 : ℝ) < 1 / c := by positivity
      norm_num at hlow hsqrt hshare ⊢
      linarith
    exact_mod_cast hcast
  · have hsqrt : √(q : ℝ) ≤ 1 := Real.sqrt_le_one.mpr (by exact_mod_cast hq1)
    have hcast : (s : ℝ) ≤ 2 := by
      norm_num at hhigh
      linarith
    exact_mod_cast hcast

end

end RateInterval

/-! ## What is compared -/

/-- What doubles make of two rates and a number of trials: the distance `a`, the half of a trial
`h`, what the distance exceeds it by, `d`, and the standard error `s`. -/
structure Measured (e rate : Binary64) (n : ℕ) (a h d s : ℚ) : Prop where
  distance : Denotes (Scalar.abs (rate - e)).unpacked a
  half : Denotes (0.5 / RateInterval.trialCount n : Binary64).unpacked h
  excess : Denotes (Scalar.abs (rate - e) - 0.5 / RateInterval.trialCount n).unpacked d
  error : Denotes (RateInterval.standardError e n).unpacked s
  distance_mem : 0 ≤ a ∧ a ≤ 4
  half_mem : 0 < h ∧ h ≤ 1
  excess_faithful : Faithful (a - h) d
  spread : s = 0 ∨ h ≤ s ∧ 1 / 2 ^ 70 ≤ s ∧ s ≤ 2
  met : rate.fraction = e.fraction → a = 0
  sure : e.fraction = 0 ∨ e.fraction = 1 → s = 0

/-- The half of a trial is lost in none of the standard errors. -/
theorem exists_half {c : ℚ} (hc : Denotes (RateInterval.trialCount n : Binary64).unpacked c)
    (h1 : 1 ≤ c) (h65 : c ≤ 2 ^ 65) :
    ∃ h, Denotes (0.5 / RateInterval.trialCount n : Binary64).unpacked h ∧ 0 < h ∧ h ≤ 1 / c := by
  have hpos : 0 < c := by linarith
  have hshare : 1 / 2 ^ 65 ≤ 1 / c := one_div_le_one_div_of_le hpos h65
  have hone : 1 / c ≤ 1 := (div_le_one hpos).mpr h1
  have hsplit : 1 / 2 / c = 1 / 2 * (1 / c) := by ring
  obtain ⟨h, hh, hf⟩ := (denotes_half.div hc hpos.ne').exists_denotes (by
    rw [hsplit, abs_of_pos (by positivity)]
    linarith)
  obtain ⟨hlow, hhigh⟩ := abs_le.mp (hf.error_le_div_add (by positivity))
  rw [hsplit] at hlow hhigh
  refine ⟨h, hh, ?_, ?_⟩
  · norm_num at hlow hshare ⊢
    linarith
  · norm_num at hhigh hshare ⊢
    linarith

theorem exists_measured {rate : Binary64} {r : ℚ} (hsides : Sides e a b)
    (hrate : Denotes rate.unpacked r) (hr : 0 ≤ r ∧ r ≤ 2) (hpos : 0 < n)
    (hn : (minTrials e).toNat ≤ n) (hcounted : n < UInt64.size - 1) :
    ∃ a h d s, Measured e rate n a h d s := by
  obtain ⟨c, hc, hcn, hc1⟩ := RateInterval.exists_trialCount hpos hcounted
  have hc65 : c ≤ 2 ^ 65 := by
    have hn64 := cast_le_of_counted hcounted
    have hhigh := (abs_le.mp hcn).2
    norm_num at hhigh ⊢
    linarith
  obtain ⟨h, hh, hh0, hhc⟩ := exists_half hc hc1 hc65
  obtain ⟨f, hf, hf4, hf4'⟩ := (hrate.sub hsides.rate).spans (representable_intCast (n := -4) (by decide))
    (representable_natCast (n := 4) (by decide)) (by norm_num) (by norm_num)
    (by push_cast; linarith [hsides.le_one.1, hr.1]) (by push_cast; linarith [hsides.nonneg.1, hr.2])
  push_cast at hf4 hf4'
  have hdistance : |f| ≤ 4 := abs_le.mpr ⟨hf4, hf4'⟩
  have hh1 : h ≤ 1 := hhc.trans ((div_le_one (by linarith)).mpr hc1)
  obtain ⟨d, hd, hdf⟩ := (hf.abs.sub hh).exists_denotes (by
    rw [abs_le]
    constructor <;> linarith [abs_nonneg f])
  -- A rate that is met leaves no distance, since a difference of equal doubles is zero.
  have hmet : rate.fraction = e.fraction → |f| = 0 := by
    rw [hrate.fraction_eq, hsides.rate.fraction_eq]
    rintro rfl
    have hzero := hrate.sub hsides.rate
    rw [sub_self] at hzero
    rw [representable_zero.faithful.mp (hzero.faithful hf), abs_zero]
  rcases hsides.least_nonneg.eq_or_lt with hzero | hleast
  · have hs := RateInterval.denotes_standardError_of_sure hsides hzero.symm hpos hcounted
    exact ⟨_, h, d, 0, hf.abs, hh, hd, hs, ⟨abs_nonneg f, hdistance⟩, ⟨hh0, hh1⟩, hdf, .inl rfl, hmet,
      fun _ => rfl⟩
  · obtain ⟨s, hs, hslow, hshigh⟩ := RateInterval.exists_standardError hsides hleast hn hcounted hcn hc
      hc1 hc65
    refine ⟨_, h, d, s, hf.abs, hh, hd, hs, ⟨abs_nonneg f, hdistance⟩, ⟨hh0, hh1⟩, hdf,
      .inr ⟨hhc.trans hslow, ?_, hshigh⟩, hmet, fun hsure => ?_⟩
    · have hshare : 1 / 2 ^ 65 ≤ 1 / c := one_div_le_one_div_of_le (by linarith) hc65
      exact (le_trans (by norm_num) hshare).trans hslow
    · rw [hsides.rate.fraction_eq] at hsure
      exact absurd (hsides.sure.mpr hsure) hleast.ne'

namespace Measured

variable {rate z : Binary64} {a h d s b w v x : ℚ} (m : Measured e rate n a h d s)

include m

theorem representable_distance : Representable a :=
  m.distance.representable (fits_unpacked _).isCanonical

theorem representable_half : Representable h :=
  m.half.representable (fits_unpacked _).isCanonical

theorem spread_nonneg : 0 ≤ s := by
  rcases m.spread with rfl | ⟨hle, -⟩
  · exact le_rfl
  · exact m.half_mem.1.le.trans hle

theorem excess_nonpos (hle : a ≤ h) : d ≤ 0 :=
  (m.excess_faithful 0 representable_zero).2 (by linarith)

theorem excess_pos (hlt : h < a) : 0 < d :=
  m.excess_faithful.pos_of_lt m.representable_distance m.representable_half hlt

/-- An interval contains the rate when the distance is at most its width. -/
theorem exists_width (hz : Denotes z.unpacked b) (h0 : 0 ≤ b) (h11 : b ≤ 11) :
    ∃ w v, Faithful (b * s) w ∧ Faithful (w + h) v ∧
      ((RateInterval.ofCriticalValue e n z).contains rate = true ↔ a ≤ v) := by
  have hs0 := m.spread_nonneg
  have hs2 : s ≤ 2 := by
    rcases m.spread with rfl | ⟨-, -, hle⟩
    · exact zero_le_two
    · exact hle
  have hwidth : b * s ≤ 22 := (mul_le_mul h11 hs2 hs0 (by norm_num)).trans (by norm_num)
  have hproduct : 0 ≤ b * s := mul_nonneg h0 hs0
  obtain ⟨w, hw, hwf⟩ := (hz.mul m.error).exists_denotes (by
    rw [abs_of_nonneg hproduct]
    exact hwidth.trans (by norm_num))
  have hw22 := (hwf 22 (representable_natCast (n := 22) (by decide))).2 hwidth
  have hh1 := m.half_mem.2
  obtain ⟨v, hv, hvf⟩ := (hw.add m.half).exists_denotes (by
    rw [abs_of_nonneg (add_nonneg (hwf.nonneg hproduct) m.half_mem.1.le)]
    linarith)
  exact ⟨w, v, hwf, hvf, decide_eq_true_iff.trans (m.distance.le_iff hv)⟩

theorem width_of_sure (hs : s = 0) (hw : Faithful (b * s) w) (hv : Faithful (w + h) v) : v = h := by
  rw [hs, mul_zero] at hw
  rw [representable_zero.faithful.mp hw, zero_add] at hv
  exact m.representable_half.faithful.mp hv

theorem half_le_width (h0 : 0 ≤ b) (hw : Faithful (b * s) w) (hv : Faithful (w + h) v) : h ≤ v :=
  (hv h m.representable_half).1 (le_add_of_nonneg_left (hw.nonneg (mul_nonneg h0 m.spread_nonneg)))

/-! ### Distances and critical values -/

section

variable (hs : 0 < s) (h0 : 0 ≤ b) (h11 : b ≤ 11) (hw : Faithful (b * s) w)
  (hv : Faithful (w + h) v) (hx : Faithful (d / s) x)

include hs h0 h11 hw hv

/-- What the width of the interval is off by is small beside the standard error. -/
theorem abs_width_sub_le : |v - (b * s + h)| ≤ s * 1e-12 := by
  obtain ⟨hh, hleast, -⟩ := m.spread.resolve_left hs.ne'
  have hh0 := m.half_mem.1
  have hbs : 0 ≤ b * s := by positivity
  have hbs' : b * s ≤ 11 * s := by gcongr
  have hw0 := hw.nonneg hbs
  have herror := hw.error_le_div_add hbs
  have hupper := (abs_le.mp herror).2
  have herror' := hv.error_le_div_add (by positivity)
  have hsum := abs_sub_le v (w + h) (b * s + h)
  rw [add_sub_add_right_eq_sub] at hsum
  norm_num at herror herror' hupper hleast ⊢
  linarith

include hx

theorem quotient_le (hlt : h < a) (hle : a ≤ v) : x ≤ b + 1e-11 := by
  obtain ⟨hh, hleast, -⟩ := m.spread.resolve_left hs.ne'
  have hwidth := (abs_le.mp (m.abs_width_sub_le hs h0 h11 hw hv)).2
  have hd0 := m.excess_pos hlt
  have hupper := (abs_le.mp (m.excess_faithful.error_le_div_add (by linarith))).2
  have hquotient : d / s ≤ b + 2e-12 := by
    have hbs : b * s ≤ 11 * s := by gcongr
    rw [div_le_iff₀ hs]
    norm_num at hwidth hupper hleast ⊢
    linarith
  have hresult := (abs_le.mp (hx.error_le_div_add (by positivity))).2
  norm_num at hquotient hresult ⊢
  linarith

theorem le_quotient (hlt : h < a) (hgt : v < a) : b - 1e-11 ≤ x := by
  obtain ⟨hh, hleast, -⟩ := m.spread.resolve_left hs.ne'
  have hwidth := (abs_le.mp (m.abs_width_sub_le hs h0 h11 hw hv)).1
  have hd0 := m.excess_pos hlt
  have hlower := (abs_le.mp (m.excess_faithful.error_le_div_add (by linarith))).1
  have hquotient : b - 2e-12 ≤ d / s := by
    have hbs : b * s ≤ 11 * s := by gcongr
    rw [le_div_iff₀ hs]
    norm_num at hwidth hlower hleast ⊢
    linarith
  have hresult := (abs_le.mp (hx.error_le_div_add (by positivity))).1
  norm_num at hquotient hresult ⊢
  linarith

end

end Measured

end Fickle

import Fickle.Proofs.Composition.Foretold
import Fickle.Proofs.Args
import Fickle.Proofs.Sampling.Nominal

/-! # The fuzzy boundary of a comparison

How likely a comparison is to hold depends on how far the difference has crossed the boundary band
around the tolerance. In exact arithmetic it goes from `p` to `1 - p` on a straight line, with even
odds at the tolerance itself, so that the answer a sharp comparison would give stays the likelier
one.
-/

namespace Fickle

open MeasureTheory

namespace Exact

/-! ## Across the band -/

/-- How far a difference has crossed the boundary band: no part of it well inside the tolerance, and
all of it well outside. A tolerance of zero has no band. -/
noncomputable def crossing (tolerance difference : ℝ) : ℝ :=
  if 0 < tolerance then
    max 0 (min 1 ((difference - (tolerance - tolerance * boundaryBand)) /
      (tolerance * boundaryBand + tolerance * boundaryBand)))
  else if difference ≤ tolerance then 0 else 1

variable {t d p : ℝ}

theorem boundaryBand_eq : (boundaryBand : ℝ) = 1 / 4 := by
  unfold boundaryBand
  norm_num

theorem crossing_of_pos (ht : 0 < t) (d : ℝ) :
    crossing t d = max 0 (min 1 (2 * (d / t) - 3 / 2)) := by
  have hshare : (d - (t - t * (1 / 4))) / (t * (1 / 4) + t * (1 / 4)) = 2 * (d / t) - 3 / 2 := by
    field_simp
    ring
  rw [crossing, if_pos ht, boundaryBand_eq, hshare]

theorem crossing_mem (t d : ℝ) : crossing t d ∈ Set.Icc 0 1 := by
  unfold crossing
  split
  · exact ⟨le_max_left _ _, max_le zero_le_one (min_le_left _ _)⟩
  · split
    · exact ⟨le_rfl, zero_le_one⟩
    · exact ⟨zero_le_one, le_rfl⟩

theorem crossing_mono (t : ℝ) : Monotone (crossing t) := by
  intro d d' hd
  by_cases ht : 0 < t
  · have hshare : d / t ≤ d' / t := div_le_div_of_nonneg_right hd ht.le
    rw [crossing_of_pos ht, crossing_of_pos ht]
    exact max_le_max le_rfl (min_le_min le_rfl (by linarith))
  · unfold crossing
    rw [if_neg ht, if_neg ht]
    split
    · split
      · exact le_rfl
      · exact zero_le_one
    · rename_i hout
      rw [if_neg fun hin => hout (hd.trans hin)]

theorem crossing_inside (ht : 0 ≤ t) (hd : d ≤ 3 / 4 * t) : crossing t d = 0 := by
  rcases ht.eq_or_lt with rfl | ht
  · rw [crossing, if_neg (lt_irrefl 0), if_pos (by linarith)]
  · have hshare : d / t ≤ 3 / 4 := (div_le_iff₀ ht).mpr hd
    rw [crossing_of_pos ht]
    exact max_eq_left ((min_le_right _ _).trans (by linarith))

theorem crossing_outside (ht : 0 < t) (hd : 5 / 4 * t ≤ d) : crossing t d = 1 := by
  have hshare : 5 / 4 ≤ d / t := (le_div_iff₀ ht).mpr hd
  rw [crossing_of_pos ht, min_eq_left (by linarith)]
  exact max_eq_right zero_le_one

theorem crossing_zero_of_pos (hd : 0 < d) : crossing 0 d = 1 := by
  rw [crossing, if_neg (lt_irrefl 0), if_neg (not_le.mpr hd)]

/-- What is left of the band on one side of the tolerance has been crossed on the other. -/
theorem crossing_symmetric (ht : 0 < t) (x : ℝ) : crossing t (t - x) + crossing t (t + x) = 1 := by
  have hleft : 2 * ((t - x) / t) - 3 / 2 = 1 / 2 - 2 * (x / t) := by
    field_simp
    ring
  have hright : 2 * ((t + x) / t) - 3 / 2 = 1 / 2 + 2 * (x / t) := by
    field_simp
    ring
  rw [crossing_of_pos ht, crossing_of_pos ht, hleft, hright]
  rcases le_total (1 / 2 - 2 * (x / t)) 0 with hlow | hlow
  · rw [min_eq_right (by linarith), max_eq_left hlow, min_eq_left (by linarith),
      max_eq_right zero_le_one]
    norm_num
  rcases le_total 1 (1 / 2 - 2 * (x / t)) with hhigh | hhigh
  · rw [min_eq_left hhigh, max_eq_right zero_le_one, min_eq_right (by linarith),
      max_eq_left (by linarith)]
    norm_num
  · rw [min_eq_right hhigh, max_eq_right hlow, min_eq_right (by linarith),
      max_eq_right (by linarith)]
    ring

theorem crossing_self (ht : 0 < t) : crossing t t = 1 / 2 := by
  have hboth := crossing_symmetric ht 0
  rw [sub_zero, add_zero] at hboth
  linarith

/-- The band is crossed by less than a half where a sharp comparison holds, and by more than a half
where it fails. -/
theorem crossing_le_half (ht : 0 ≤ t) (hd : d ≤ t) : crossing t d ≤ 1 / 2 := by
  rcases ht.eq_or_lt with rfl | ht
  · rw [crossing_inside le_rfl (by linarith)]
    norm_num
  · exact (crossing_mono t hd).trans (crossing_self ht).le

theorem half_le_crossing (ht : 0 ≤ t) (hd : t < d) : 1 / 2 ≤ crossing t d := by
  rcases ht.eq_or_lt with rfl | ht
  · rw [crossing_zero_of_pos hd]
    norm_num
  · exact (crossing_self ht).ge.trans (crossing_mono t hd.le)

/-- The probability moves from `p` to `1 - p` as the band is crossed. -/
theorem ishProbability_eq (ht : 0 ≤ t) (d p : ℝ) :
    ishProbability d t p = p + (1 - 2 * p) * crossing t d := by
  unfold ishProbability
  simp only [zero_eq, one_eq, two_eq, boundaryBand_eq]
  -- Without a tolerance there is no band to cross.
  rcases ht.eq_or_lt with rfl | ht
  · rw [if_pos (by norm_num)]
    split
    · rename_i hd
      rw [crossing_inside le_rfl (by linarith), mul_zero, add_zero]
    · rename_i hd
      rw [crossing_zero_of_pos (not_le.mp hd)]
      ring
  rw [if_neg (by linarith)]
  split
  · rename_i hd
    rw [crossing_inside ht.le (by linarith), mul_zero, add_zero]
  split
  · rename_i hd
    rw [crossing_outside ht (by linarith)]
    ring
  · rename_i hlow hhigh
    have hshare : (d - (t - t * (1 / 4))) / (t + t * (1 / 4) - (t - t * (1 / 4))) =
        2 * (d / t) - 3 / 2 := by
      field_simp
      ring
    have hin : 3 / 4 < d / t := (lt_div_iff₀ ht).mpr (by linarith)
    have hout : d / t < 5 / 4 := (div_lt_iff₀ ht).mpr (by linarith)
    rw [crossing_of_pos ht, hshare, min_eq_right (by linarith), max_eq_right (by linarith)]

/-- How likely a comparison is to hold as the difference grows. -/
structure Fades (t p : ℝ) : Prop where
  between : ∀ d, 0 ≤ d →
    min p (1 - p) ≤ ishProbability d t p ∧ ishProbability d t p ≤ max p (1 - p)
  rises : p ≤ 1 / 2 → MonotoneOn (fun d => ishProbability d t p) (Set.Ici 0)
  falls : 1 / 2 ≤ p → AntitoneOn (fun d => ishProbability d t p) (Set.Ici 0)
  inside : 0 < t → ∀ d, 0 ≤ d → d ≤ 3 / 4 * t → ishProbability d t p = p
  outside : 0 < t → ∀ d, 5 / 4 * t ≤ d → ishProbability d t p = 1 - p
  /-- Without a tolerance the boundary is sharp. -/
  sharp : t = 0 → ishProbability 0 t p = p ∧ ∀ d, 0 < d → ishProbability d t p = 1 - p
  middle : 0 < t → ishProbability t t p = 1 / 2
  symmetric : 0 < t → ∀ x, 0 ≤ x → x ≤ t →
    ishProbability (t - x) t p + ishProbability (t + x) t p = 1

theorem fades (ht : 0 ≤ t) (p : ℝ) : Fades t p where
  between d _ := by
    obtain ⟨hlow, hhigh⟩ := crossing_mem t d
    rw [ishProbability_eq ht]
    rcases le_total p (1 - p) with hp | hp
    · rw [min_eq_left hp, max_eq_right hp]
      -- A mean of the two ends lies between them.
      constructor <;> nlinarith
    · rw [min_eq_right hp, max_eq_left hp]
      constructor <;> nlinarith
  rises hp d _ d' _ hd := by
    have hcrossing := mul_le_mul_of_nonneg_left (crossing_mono t hd) (by linarith : 0 ≤ 1 - 2 * p)
    dsimp only
    rw [ishProbability_eq ht, ishProbability_eq ht]
    linarith
  falls hp d _ d' _ hd := by
    have hcrossing := mul_le_mul_of_nonneg_left (crossing_mono t hd) (by linarith : 0 ≤ 2 * p - 1)
    dsimp only
    rw [ishProbability_eq ht, ishProbability_eq ht]
    linarith
  inside _ d _ hd := by
    rw [ishProbability_eq ht, crossing_inside ht hd, mul_zero, add_zero]
  outside ht' d hd := by
    rw [ishProbability_eq ht, crossing_outside ht' hd]
    ring
  sharp := by
    rintro rfl
    refine ⟨?_, fun d hd => ?_⟩
    · rw [ishProbability_eq le_rfl, crossing_inside le_rfl (by linarith), mul_zero, add_zero]
    · rw [ishProbability_eq le_rfl, crossing_zero_of_pos hd]
      ring
  middle ht' := by
    rw [ishProbability_eq ht, crossing_self ht']
    ring
  symmetric ht' x _ _ := by
    have hboth := crossing_symmetric ht' x
    rw [ishProbability_eq ht, ishProbability_eq ht]
    linear_combination (1 - 2 * p) * hboth

end Exact

/-! ## The answer of a sharp comparison -/

/-- How likely the answer of a sharp comparison is. -/
noncomputable def sharpChance (difference tolerance p : ℝ) : ℝ :=
  if difference ≤ tolerance then ishProbability difference tolerance p
  else 1 - ishProbability difference tolerance p

namespace Exact

variable {t d p : ℝ}

theorem half_le_sharpChance (ht : 0 ≤ t) (hp : 1 / 2 < p) : 1 / 2 ≤ sharpChance d t p := by
  unfold sharpChance
  rw [ishProbability_eq ht]
  split
  · rename_i hd
    have hcrossing := mul_le_mul_of_nonneg_left (crossing_le_half ht hd)
      (by linarith : 0 ≤ 2 * p - 1)
    linarith
  · rename_i hd
    have hcrossing := mul_le_mul_of_nonneg_left (half_le_crossing ht (not_le.mp hd))
      (by linarith : 0 ≤ 2 * p - 1)
    linarith

theorem sharpChance_eq (ht : 0 ≤ t)
    (h : t = 0 ∨ d ≤ 3 / 4 * t ∨ 5 / 4 * t ≤ d) : sharpChance d t p = p := by
  unfold sharpChance
  rw [ishProbability_eq ht]
  by_cases hin : d ≤ 3 / 4 * t
  · rw [if_pos (by linarith), crossing_inside ht hin, mul_zero, add_zero]
  have hcrossing : t < d ∧ crossing t d = 1 := by
    rcases ht.eq_or_lt with rfl | ht
    · have hd' : 0 < d := by linarith
      exact ⟨hd', crossing_zero_of_pos hd'⟩
    · rcases h with rfl | hin' | hout
      · exact absurd ht (lt_irrefl 0)
      · exact absurd hin' hin
      · exact ⟨by linarith, crossing_outside ht hout⟩
  rw [if_neg (not_le.mpr hcrossing.1), hcrossing.2]
  ring

end Exact

theorem Profile.defaultTolerance_nonneg {p : Profile ℝ} (h : p.flaw? = none) :
    0 ≤ p.defaultTolerance := by
  obtain ⟨-, -, -, hwidths, -⟩ := flaw?_eq_none_iff.mp h
  exact Exact.isWidth_iff.mp (hwidths ("default_tolerance", p.defaultTolerance) (by simp [widths]))

theorem Args.tolerance_nonneg {c : Construct} {left right : ℝ} {tolerance : Option ℝ}
    (h : (Args.compare left right tolerance).check c = .ok ()) {p : Profile ℝ}
    (hp : p.flaw? = none) : 0 ≤ tolerance.getD p.defaultTolerance := by
  cases tolerance with
  | none => exact p.defaultTolerance_nonneg hp
  | some t =>
    obtain ⟨-, hwidth⟩ := flaw?_compare_eq_none_iff.mp (check_eq_ok_iff.mp h).2
    exact Exact.isWidth_iff.mp (hwidth t rfl)

/-! ## Comparisons that are drawn -/

theorem Luck.ofBool_eq_favorable_iff {b : Bool} : Luck.ofBool b = .favorable ↔ b = true := by
  cases b <;> simp [Luck.ofBool]

section

variable {γ : Type} [Draws γ ℝ]

theorem luck_compare (s : Setting ℝ) (left right : ℝ) (tolerance : Option ℝ) (g : γ) :
    luck .ishComparison (.compare left right tolerance)
        (sample .ishComparison (.compare left right tolerance) s g).1 s.profile = .favorable ↔
      (sample .ishComparison (.compare left right tolerance) s g).1 =
        .bool (decide (|left - right| ≤ tolerance.getD s.profile.defaultTolerance)) := by
  have hsample : (sample .ishComparison (.compare left right tolerance) s g).1 =
      .bool (decide ((Draws.unit g).1 < ishProbability |left - right|
        (tolerance.getD s.profile.defaultTolerance) s.probability)) := rfl
  have hluck (b : Bool) : luck .ishComparison (.compare left right tolerance) (.bool b) s.profile =
      .ofBool (b ==
        decide (|left - right| ≤ tolerance.getD s.profile.defaultTolerance)) := rfl
  rw [hsample, hluck, Luck.ofBool_eq_favorable_iff, beq_iff_eq, Outcome.bool.injEq]

variable [MeasurableSpace γ] {μ : Measure γ}

theorem Draws.Random.real_first_lt (hμ : Draws.Random μ) {p : ℝ} (hp : p ∈ Set.Icc 0 1) :
    MeasurableSet {g : γ | (Draws.unit g).1 < p} ∧ μ.real {g : γ | (Draws.unit g).1 < p} = p := by
  have := hμ.isProbabilityMeasure
  have hfirst : MeasurePreserving (fun g : γ => (Draws.unit g).1) μ uniform :=
    measurePreserving_fst.comp hμ.unit
  refine ⟨hfirst.measurable measurableSet_Iio, ?_⟩
  exact (hfirst.measureReal_preimage measurableSet_Iio.nullMeasurableSet).trans
    (uniform_Iio hp.1 hp.2)

/-- With random draws the answer of a sharp comparison has the probability that the boundary gives
to it. -/
theorem Draws.Random.real_sharp (hμ : Draws.Random μ) {s : Setting ℝ}
    (hp : s.probability ∈ Set.Icc 0 1) (left right : ℝ) (tolerance : Option ℝ) :
    μ.real {g : γ | (sample .ishComparison (.compare left right tolerance) s g).1 =
        .bool (decide (|left - right| ≤ tolerance.getD s.profile.defaultTolerance))} =
      sharpChance |left - right| (tolerance.getD s.profile.defaultTolerance) s.probability := by
  have := hμ.isProbabilityMeasure
  obtain ⟨hmeasurable, hreal⟩ := hμ.real_first_lt (Exact.ishProbability_mem |left - right|
    (tolerance.getD s.profile.defaultTolerance) hp)
  have hsample (g : γ) : (sample .ishComparison (.compare left right tolerance) s g).1 =
      .bool (decide ((Draws.unit g).1 < ishProbability |left - right|
        (tolerance.getD s.profile.defaultTolerance) s.probability)) := rfl
  unfold sharpChance
  by_cases hd : |left - right| ≤ tolerance.getD s.profile.defaultTolerance
  · rw [if_pos hd, decide_eq_true hd]
    simpa only [hsample, Outcome.bool.injEq, decide_eq_true_iff] using hreal
  · rw [if_neg hd, decide_eq_false hd, ← hreal, ← probReal_compl_eq_one_sub hmeasurable]
    simp only [hsample, Outcome.bool.injEq, decide_eq_false_iff_not]
    rfl

/-- How the answer of a sharp comparison fares when it is drawn. -/
structure KeepsSharpAnswer (μ : Measure γ) (s : Setting ℝ) (left right : ℝ)
    (tolerance : Option ℝ) : Prop where
  /-- It is the outcome that luck takes for nominal. -/
  nominal : ∀ g : γ,
    luck .ishComparison (.compare left right tolerance)
        (sample .ishComparison (.compare left right tolerance) s g).1 s.profile = .favorable ↔
      (sample .ishComparison (.compare left right tolerance) s g).1 =
        .bool (decide (|left - right| ≤ tolerance.getD s.profile.defaultTolerance))
  likely : 1 / 2 < s.probability →
    1 / 2 ≤ μ.real {g : γ | (sample .ishComparison (.compare left right tolerance) s g).1 =
      .bool (decide (|left - right| ≤ tolerance.getD s.profile.defaultTolerance))}
  outsideBand : tolerance.getD s.profile.defaultTolerance = 0 ∨
      |left - right| ≤ 3 / 4 * tolerance.getD s.profile.defaultTolerance ∨
      5 / 4 * tolerance.getD s.profile.defaultTolerance ≤ |left - right| →
    μ.real {g : γ | (sample .ishComparison (.compare left right tolerance) s g).1 =
      .bool (decide (|left - right| ≤ tolerance.getD s.profile.defaultTolerance))} =
        s.probability

theorem Draws.Random.keepsSharpAnswer (hμ : Draws.Random μ) {s : Setting ℝ}
    (hp : s.probability ∈ Set.Icc 0 1) {left right : ℝ} {tolerance : Option ℝ}
    (ht : 0 ≤ tolerance.getD s.profile.defaultTolerance) :
    KeepsSharpAnswer μ s left right tolerance where
  nominal g := luck_compare s left right tolerance g
  likely hlikely := by
    rw [hμ.real_sharp hp]
    exact Exact.half_le_sharpChance ht hlikely
  outsideBand hout := by
    rw [hμ.real_sharp hp]
    exact Exact.sharpChance_eq ht hout

end

/-- A comparison gets from `p` to `1 - p` over the boundary band, evenly about the tolerance. So for
every good call the answer of a sharp comparison, which is the one that counts as nominal, stays
the likelier one, and outside the band it has exactly the probability of the call. -/
theorem closeness_fades_at_the_boundary :
    (∀ t p : ℝ, 0 ≤ t → p ∈ Set.Icc 0 1 → Exact.Fades t p) ∧
    ∀ {γ : Type} [MeasurableSpace γ] [Draws γ ℝ] {μ : Measure γ}, Draws.Random μ →
      ∀ (s : Setting ℝ) (left right : ℝ) (tolerance : Option ℝ),
        s.probability ∈ Set.Icc 0 1 → s.profile.flaw? = none →
        (Args.compare left right tolerance).check .ishComparison = .ok () →
        KeepsSharpAnswer μ s left right tolerance :=
  ⟨fun _ p ht _ => Exact.fades ht p, fun hμ _ _ _ _ hp hprofile hargs =>
    hμ.keepsSharpAnswer hp (Args.tolerance_nonneg hargs hprofile)⟩

/-- Five and six at a tolerance of four, and at the tolerance of the playful personality, on a tape
of uniform numbers. -/
theorem closeness_fades_at_the_boundary_fiveAndSix :
    (0 : ℝ) ≤ 4 ∧ (9 / 10 : ℝ) ∈ Set.Icc 0 1 ∧ Exact.Fades 4 (9 / 10) ∧
      Draws.Random Tape.measure ∧
      (let s : Setting ℝ := ⟨9 / 10, Personality.playful.profile, .greatest, .standard⟩
       s.probability ∈ Set.Icc 0 1 ∧ s.profile.flaw? = none ∧
        (Args.compare (5 : ℝ) 6 none).check .ishComparison = .ok () ∧
        (Args.compare (5 : ℝ) 6 (some 4)).check .ishComparison = .ok () ∧
        KeepsSharpAnswer Tape.measure s 5 6 none ∧ KeepsSharpAnswer Tape.measure s 5 6 (some 4)) := by
  have hp : (9 / 10 : ℝ) ∈ Set.Icc 0 1 := by constructor <;> norm_num
  have hprofile := Personality.playful.flaw?_profile
  have hargs : (Args.compare (5 : ℝ) 6 (some 4)).check .ishComparison = .ok () := by
    have hwidth : Scalar.isWidth (4 : ℝ) = true := Exact.isWidth_iff.mpr (by norm_num)
    refine Args.check_eq_ok_iff.mpr ⟨rfl, Args.flaw?_compare_eq_none_iff.mpr ⟨⟨rfl, rfl⟩, ?_⟩⟩
    rintro t ⟨⟩
    exact hwidth
  obtain ⟨hfades, hsharp⟩ := closeness_fades_at_the_boundary
  exact ⟨by norm_num, hp, hfades 4 (9 / 10) (by norm_num) hp, Tape.random_measure, hp, hprofile,
    rfl, hargs, hsharp Tape.random_measure _ 5 6 none hp hprofile rfl,
    hsharp Tape.random_measure _ 5 6 (some 4) hp hprofile hargs⟩

end Fickle

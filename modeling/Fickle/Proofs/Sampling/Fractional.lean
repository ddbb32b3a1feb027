import Fickle.Proofs.Args
import Fickle.Proofs.Profile
import Fickle.Proofs.Sampling.Draw
import Fickle.Proofs.Sampling.Elementary

/-! # Numbers with noise

A call on a number adds an offset to it, and nothing holds the sum in the range of doubles. The
offset keeps to a reach, so that a sum is finite unless the number is close to the largest double.
-/

namespace Fickle

open Binary64

/-! ## Numbers -/

/-- What a call hands in that noise is added to. -/
inductive Fractional where
  | float (v : Binary64)
  | ishValue (v : Binary64) (variance : Option Binary64)
  | drift (sample : DriftSample Binary64)

/-- The size of a number, taken to be one at least. -/
def exactMagnitude (v : Binary64) : ℚ := max |v.fraction| 1

namespace Fractional

def args : Fractional → Args Binary64
  | float v => .float v
  | ishValue v variance => .ishValue v variance
  | drift sample => .drift sample

def behaviour : Fractional → Behaviour
  | float _ => .float
  | ishValue _ _ => .spread
  | drift _ => .drift

def value : Fractional → Binary64
  | float v => v
  | ishValue v _ => v
  | drift sample => sample.nominal

/-- What the call adds to the number. -/
def noise (e : Elementary) (s : Setting Binary64) (g : Stream) : Fractional → Binary64
  | float v =>
    let band := if (Draws.unit g).1 < s.probability then reliableNoise
      else s.profile.floatNoise * s.chaos.scale
    (Draws.offset (Draws.unit g).2).1 * band * magnitude v
  | ishValue _ variance =>
    let width := variance.getD s.profile.ishVariance
    let spread := if (Draws.unit g).1 < s.probability then width
      else 2.0 * width * s.chaos.scale
    (Draws.offset (Draws.unit g).2).1 * spread
  | drift sample => e.driftOffset s sample

/-- How far the noise reaches: twice the size of a number, four times a variance, half the size of a
number that drifts. -/
def reach (profile : Profile Binary64) : Fractional → ℚ
  | float v => 2 * exactMagnitude v
  | ishValue _ variance => 2 * (2 * (variance.getD profile.ishVariance).fraction)
  | drift sample => exactMagnitude sample.nominal / 2

/-- The outcome is the number with the noise added to it. -/
theorem sample_eq {c : Construct} {f : Fractional} (h : c.behaviour = f.behaviour)
    (e : Elementary) (s : Setting Binary64) (g : Stream) :
    (e.sample c f.args s g).1 = .float (f.value + f.noise e s g) := by
  unfold Elementary.sample Fickle.sample
  cases f <;> rw [h] <;> rfl

theorem denotes_magnitude {v : Binary64} (h : Scalar.isFinite v = true) :
    Denotes (magnitude v).unpacked (exactMagnitude v) :=
  (denotes_fraction h).abs.larger denotes_one

theorem representable_exactMagnitude {v : Binary64} (h : Scalar.isFinite v = true) :
    Representable (exactMagnitude v) :=
  ((denotes_fraction h).representable v.fits_unpacked.isCanonical).abs.max representable_one

/-! ## How far the noise reaches -/

theorem exactMagnitude_nonneg (v : Binary64) : 0 ≤ exactMagnitude v :=
  zero_le_one.trans (le_max_right _ _)

theorem spans_rate {v : Binary64} (h : Scalar.within 0.0 1.0 v = true) : Spans 0 1 v := by
  unfold Scalar.within at h
  obtain ⟨hlow, hhigh⟩ := of_decide_eq_true h
  exact spans_of_le denotes_zero denotes_one hlow hhigh

theorem spans_floatNoise {p : Profile Binary64} (h : p.Sound) : Spans 0 1 p.floatNoise :=
  spans_rate (h.rates_and_bases.1 ("float_noise", p.floatNoise) (by simp [Profile.rates]))

theorem spans_band {s : Setting Binary64} (h : s.profile.Sound) (g : Stream) :
    Spans 0 2 (if (Draws.unit g).1 < s.probability then reliableNoise
      else s.profile.floatNoise * s.chaos.scale) := by
  split
  · exact (spans_floatNoise Personality.reliable.sound_profile).mono le_rfl one_le_two
  · obtain ⟨a, ha, ha0, ha1⟩ := spans_floatNoise h
    obtain ⟨b, hb, hb1, hb2⟩ := s.chaos.spans_scale
    refine (ha.mul hb).spans representable_zero representable_two (by norm_num) (by norm_num) ?_ ?_
    · exact mul_nonneg ha0 (zero_le_one.trans hb1)
    · nlinarith

theorem denotes_maxVariance : Denotes (maxVariance : Binary64).unpacked (largest / 8) := by
  refine denotes_of_isWritten (2 ^ 53 - 1) 968 (by decide +kernel) ?_
  have hpow : (2 : ℚ) ^ 971 = 2 ^ (968 : Int) * 8 := by
    rw [show 971 = 968 + 3 from rfl, pow_add, ← zpow_natCast]
    norm_num
  unfold largest
  rw [hpow, mul_div_assoc, mul_div_cancel_right₀ _ (by norm_num : (8 : ℚ) ≠ 0), Int.cast_sub,
    Int.cast_pow, Int.cast_ofNat, Int.cast_one]

theorem denotes_of_width {v : Binary64} (h : Scalar.isWidth v = true) (hmax : ¬ maxVariance < v) :
    ∃ w, Denotes v.unpacked w ∧ 0 ≤ w ∧ w ≤ largest / 8 := by
  obtain ⟨w, hw, hw0⟩ := isWidth_iff.mp h
  refine ⟨w, hw, hw0, ?_⟩
  rwa [← not_lt, ← denotes_maxVariance.lt_iff hw]

theorem denotes_variance {v : Binary64} {variance : Option Binary64} {p : Profile Binary64}
    (h : (Args.ishValue v variance).flaw? = none) (hp : p.Sound) :
    ∃ w, Denotes (variance.getD p.ishVariance).unpacked w ∧ 0 ≤ w ∧ w ≤ largest / 8 := by
  have hgood : Scalar.isWidth (variance.getD p.ishVariance) = true ∧
      ¬ maxVariance < variance.getD p.ishVariance := by
    cases variance with
    | none =>
      obtain ⟨-, -, -, hwidths, hmax, -⟩ := Profile.flaw?_eq_none_iff.mp hp
      exact ⟨hwidths ("ish_variance", p.ishVariance) (by simp [Profile.widths]), hmax⟩
    | some w => exact (Args.flaw?_ishValue_eq_none_iff.mp h).2 w rfl
  exact denotes_of_width hgood.1 hgood.2

theorem abs_mul_le {d x b : ℚ} (hlow : -1 ≤ d) (hhigh : d ≤ 1) (hx0 : 0 ≤ x) (hx : x ≤ b) :
    |d * x| ≤ b := by
  rw [abs_mul, abs_of_nonneg hx0]
  have hd : |d| ≤ 1 := abs_le.mpr ⟨hlow, hhigh⟩
  calc |d| * x ≤ 1 * x := mul_le_mul_of_nonneg_right hd hx0
    _ ≤ b := (one_mul x).le.trans hx

theorem noise_float {s : Setting Binary64} (hs : s.profile.Sound) (e : Elementary) (g : Stream)
    {v : Binary64} (hv : Scalar.isFinite v = true) :
    ∃ q, Rounds ((float v).noise e s g) q ∧ |q| ≤ 2 * exactMagnitude v := by
  obtain ⟨d, hd, hd0, hd1⟩ := Stream.spans_offset (Draws.unit g).2
  obtain ⟨b, hb, hb0, hb2⟩ := spans_band hs g
  obtain ⟨r, -, hr, hrb⟩ := (hd.mul hb).denotes representable_two (lt_beyond (by norm_num))
    (abs_mul_le hd0 hd1 hb0 hb2)
  refine ⟨_, hr.mul (denotes_magnitude hv), ?_⟩
  rw [abs_mul, abs_of_nonneg (exactMagnitude_nonneg v)]
  exact mul_le_mul_of_nonneg_right hrb (exactMagnitude_nonneg v)

/-- A variance that is widened is at most four times as large, which is still a double. -/
theorem denotes_widened {v c : Binary64} {w x : ℚ} (hw : Denotes v.unpacked w) (hw0 : 0 ≤ w)
    (hmax : w ≤ largest / 8) (hc : Denotes c.unpacked x) (hx1 : 1 ≤ x) (hx2 : x ≤ 2) :
    ∃ s, Faithful (2 * w * x) s ∧ Denotes (2.0 * v * c).unpacked s ∧ s ≤ 2 * (2 * w) := by
  have hlargest := largest_pos
  have hbeyond := largest_lt_beyond
  have hrepresentable := (hw.representable (fits_unpacked _).isCanonical).two_mul
  have hdouble := (denotes_two.mul hw).denotes_self hrepresentable
    (by rw [abs_of_nonneg (by linarith)]; linarith)
  have hle : |2 * w * x| ≤ 2 * (2 * w) := by
    rw [abs_of_nonneg (by nlinarith)]
    nlinarith
  obtain ⟨s, hfaithful, hs, hs4⟩ := (hdouble.mul hc).denotes hrepresentable.two_mul
    (by linarith) hle
  exact ⟨s, hfaithful, hs, (le_abs_self s).trans hs4⟩

theorem noise_ishValue {s : Setting Binary64} (hs : s.profile.Sound) (e : Elementary) (g : Stream)
    {v : Binary64} {variance : Option Binary64} (h : (Args.ishValue v variance).flaw? = none) :
    ∃ q, Rounds ((ishValue v variance).noise e s g) q ∧
      |q| ≤ 2 * (2 * (variance.getD s.profile.ishVariance).fraction) := by
  obtain ⟨w, hw, hw0, hmax⟩ := denotes_variance h hs
  obtain ⟨c, hc, hc1, hc2⟩ := s.chaos.spans_scale
  obtain ⟨d, hd, hd0, hd1⟩ := Stream.spans_offset (Draws.unit g).2
  rw [hw.fraction_eq]
  obtain ⟨x, hx, hx0, hx4⟩ : Spans 0 (2 * (2 * w))
      (if (Draws.unit g).1 < s.probability then variance.getD s.profile.ishVariance
        else 2.0 * variance.getD s.profile.ishVariance * s.chaos.scale) := by
    split
    · exact ⟨w, hw, hw0, by linarith⟩
    · obtain ⟨x, hfaithful, hx, hx4⟩ := denotes_widened hw hw0 hmax hc hc1 hc2
      exact ⟨x, hx, hfaithful.nonneg (by nlinarith), hx4⟩
  exact ⟨_, hd.mul hx, abs_mul_le hd0 hd1 hx0 hx4⟩

theorem noise_drift {s : Setting Binary64} (hdrift : s.drift = .standard) {e : Elementary}
    (he : e.Lawful) (g : Stream) {sample : DriftSample Binary64}
    (hv : Scalar.isFinite sample.nominal = true) :
    ∃ q, Rounds ((drift sample).noise e s g) q ∧ |q| ≤ exactMagnitude sample.nominal / 2 := by
  have hload := he.nonneg_load sample
  rw [← hdrift] at hload
  have hbound : s.drift.maxFraction = 0.5 := by rw [hdrift]; rfl
  obtain ⟨x, hx, hx0, hx1⟩ := spans_smaller (y := s.drift.maxFraction)
    (hbound ▸ denotes_half) (by norm_num)
    (nonneg_mul (nonneg_larger (@driftStrength Binary64 e.scalar s.profile s.chaos)) hload)
  obtain ⟨d, hd, hd0, hd1⟩ :
      Spans (-1) 1 (if sample.nominal < 0.0 then (-1.0 : Binary64) else 1.0) := by
    split
    · have hminus : Denotes (-1.0 : Binary64).unpacked (-1) :=
        denotes_of_isWritten (-2 ^ 52) (-52) (by decide +kernel) (by norm_num)
      exact ⟨_, hminus, le_rfl, by norm_num⟩
    · exact ⟨_, denotes_one, by norm_num, le_rfl⟩
  have hhalf : Representable (1 / 2) := pow_one (2 : ℚ) ▸ representable_one_div (by decide)
  obtain ⟨r, -, hr, hr1⟩ := (hd.mul hx).denotes hhalf (lt_beyond (by norm_num))
    (abs_mul_le hd0 hd1 hx0 hx1)
  refine ⟨_, hr.mul (denotes_magnitude hv), ?_⟩
  rw [abs_mul, abs_of_nonneg (exactMagnitude_nonneg _), div_eq_inv_mul, ← one_div]
  exact mul_le_mul_of_nonneg_right hr1 (exactMagnitude_nonneg _)

/-- What carries a good call: its number is a fraction, and its noise is rounded from something
within the reach, which is a double itself unless it is too large. -/
structure Steady (f : Fractional) (e : Elementary) (s : Setting Binary64) (g : Stream) : Prop where
  value : Denotes f.value.unpacked f.value.fraction
  noise : ∃ q, Rounds (f.noise e s g) q ∧ |q| ≤ f.reach s.profile
  reach : Representable (f.reach s.profile)
  limited : f.behaviour ≠ .float → f.reach s.profile ≤ largest / 2
  spare : |f.value.fraction| ≤ largest / 3 → |f.value.fraction| + f.reach s.profile ≤ largest

theorem three_le_largest : 3 ≤ largest :=
  (by norm_num : (3 : ℚ) ≤ 2 ^ 53 - 1).trans
    (le_mul_of_one_le_right (by norm_num) (one_le_pow₀ one_le_two))

theorem exactMagnitude_le {v : Binary64} (h : |v.fraction| ≤ largest / 3) :
    exactMagnitude v ≤ largest / 3 :=
  max_le h (by linarith [three_le_largest])

theorem exactMagnitude_le_largest {v : Binary64} (h : Scalar.isFinite v = true) :
    exactMagnitude v ≤ largest :=
  max_le ((denotes_fraction h).abs_le_largest v.fits_unpacked) (by linarith [three_le_largest])

theorem steady {f : Fractional} (h : f.args.flaw? = none) {s : Setting Binary64}
    (hs : s.profile.Sound) (hdrift : s.drift = .standard) {e : Elementary}
    (he : f.behaviour = .drift → e.Lawful) (g : Stream) : f.Steady e s g := by
  cases f with
  | float v =>
    have hv := Args.flaw?_float_eq_none_iff.mp h
    refine ⟨denotes_fraction hv, noise_float hs e g hv,
      (representable_exactMagnitude hv).two_mul, fun hother => absurd rfl hother,
      fun hsmall => ?_⟩
    have hsmall' : |v.fraction| ≤ largest / 3 := hsmall
    have hsize := exactMagnitude_le hsmall'
    show |v.fraction| + 2 * exactMagnitude v ≤ largest
    linarith
  | ishValue v variance =>
    have hv := (Args.flaw?_ishValue_eq_none_iff.mp h).1
    obtain ⟨w, hw, hw0, hmax⟩ := denotes_variance h hs
    -- Four times a double that is an eighth of the largest at most is a double again.
    have hrepresentable := hw.representable (fits_unpacked _).isCanonical
    rw [← hw.fraction_eq] at hmax hrepresentable
    have hreach : 2 * (2 * (variance.getD s.profile.ishVariance).fraction) ≤ largest / 2 := by
      linarith
    refine ⟨denotes_fraction hv, noise_ishValue hs e g h, hrepresentable.two_mul.two_mul,
      fun _ => hreach, fun hsmall => ?_⟩
    have hlargest := largest_pos
    show |v.fraction| + 2 * (2 * (variance.getD s.profile.ishVariance).fraction) ≤ largest
    have hsmall' : |v.fraction| ≤ largest / 3 := hsmall
    linarith
  | drift sample =>
    have hv := Args.flaw?_drift_eq_none_iff.mp h
    have hlargest := largest_pos
    have hreach : exactMagnitude sample.nominal / 2 ≤ largest / 2 :=
      div_le_div_of_nonneg_right (exactMagnitude_le_largest hv) zero_le_two
    refine ⟨denotes_fraction hv, noise_drift hdrift (he rfl) g hv,
      (representable_exactMagnitude hv).half (le_max_right _ _), fun _ => hreach,
      fun hsmall => ?_⟩
    have hsmall' : |sample.nominal.fraction| ≤ largest / 3 := hsmall
    have hsize := exactMagnitude_le hsmall'
    show |sample.nominal.fraction| + exactMagnitude sample.nominal / 2 ≤ largest
    linarith

/-- What becomes of a number when an offset is added to it, which is its noise. -/
structure Lands (f : Fractional) (profile : Profile Binary64) (offset : Binary64)
    (outcome : Outcome Binary64) : Prop where
  sum : outcome = .float (f.value + offset)
  isNaN : (f.value + offset).isNaN = false
  /-- The noise keeps to its reach, if that is no larger than doubles get. -/
  noise : f.reach profile ≤ largest →
    Scalar.isFinite offset = true ∧ |offset.fraction| ≤ f.reach profile
  limited : f.behaviour ≠ .float → f.reach profile ≤ largest / 2
  /-- No number up to a third of the largest double is carried out of the range. -/
  small : |f.value.fraction| ≤ largest / 3 → Scalar.isFinite (f.value + offset) = true
  within : |f.value.fraction| + f.reach profile ≤ largest →
    Scalar.isFinite (f.value + offset) = true
  fits : Scalar.isFinite offset = true → |f.value.fraction + offset.fraction| ≤ largest →
    Scalar.isFinite (f.value + offset) = true
  overflows : Scalar.isFinite offset = true → beyond ≤ |f.value.fraction + offset.fraction| →
    Scalar.isFinite (f.value + offset) = false

theorem isFinite_of_infinity {x : Binary64} {i : Float.Model.UnpackedFloat.Sign}
    (h : x.unpacked = .infinity i) : Scalar.isFinite x = false := by
  rw [← Bool.not_eq_true, isFinite_iff, h]
  nofun

theorem Steady.lands {c : Construct} {f : Fractional} (h : c.behaviour = f.behaviour)
    {e : Elementary} {s : Setting Binary64} {g : Stream} (hf : f.Steady e s g) :
    f.Lands s.profile (f.noise e s g) (e.sample c f.args s g).1 := by
  obtain ⟨q, hround, hq⟩ := hf.noise
  have hnoise (hreach : f.reach s.profile ≤ largest) :
      Scalar.isFinite (f.noise e s g) = true ∧
        |(f.noise e s g).fraction| ≤ f.reach s.profile := by
    obtain ⟨r, -, hr, hle⟩ := hround.denotes hf.reach (hreach.trans_lt largest_lt_beyond) hq
    rw [hr.fraction_eq]
    exact ⟨isFinite_iff.mpr ⟨r, hr⟩, hle⟩
  -- Rounding does not carry a sum past the largest double unless it lies beyond.
  have hfits (hfinite : Scalar.isFinite (f.noise e s g) = true)
      (hsum : |f.value.fraction + (f.noise e s g).fraction| ≤ largest) :
      Scalar.isFinite (f.value + f.noise e s g) = true := by
    obtain ⟨r, -, hr, -⟩ := (hf.value.add (denotes_fraction hfinite)).denotes
      representable_largest largest_lt_beyond hsum
    exact isFinite_iff.mpr ⟨r, hr⟩
  have hwithin (hsum : |f.value.fraction| + f.reach s.profile ≤ largest) :
      Scalar.isFinite (f.value + f.noise e s g) = true := by
    obtain ⟨hfinite, hle⟩ := hnoise (by linarith [abs_nonneg f.value.fraction])
    exact hfits hfinite ((abs_add_le _ _).trans (by linarith))
  refine ⟨sample_eq h e s g, ?_, hnoise, hf.limited, fun hsmall => hwithin (hf.spare hsmall),
    hwithin, hfits, fun hfinite hsum => ?_⟩
  · cases hround with
    | finite hr hx => exact (hf.value.add hx).isNaN_eq_false
    | infinite i hr hlarge hx =>
      rw [← Bool.not_eq_true, isNaN_eq_true_iff, hf.value.add_infinity hx]
      nofun
  · have hround' := hf.value.add (denotes_fraction hfinite)
    -- Beyond the range the sum becomes infinite with the sign that it has.
    rcases le_total 0 (f.value.fraction + (f.noise e s g).fraction) with hsign | hsign
    · rw [abs_of_nonneg hsign] at hsum
      exact isFinite_of_infinity (hround'.infinite_of_le .positive hsum)
    · rw [abs_of_nonpos hsign] at hsum
      exact isFinite_of_infinity (hround'.infinite_of_le .negative hsum)

/-- A good call on a number gives the sum with its noise, which is a number always. It is finite if
the exact sum is within the range of doubles, and so for every number up to a third of the largest
double. Beyond the range it is infinite. For a drift the functions of the platform have to be lawful,
and it makes no difference which ones they are. -/
theorem noise_stays_finite_short_of_the_end {c : Construct} {f : Fractional}
    (h : c.behaviour = f.behaviour) (hargs : f.args.check c = .ok ()) {s : Setting Binary64}
    (hs : s.profile.Sound) (hdrift : s.drift = .standard) (g : Stream) :
    ((f.behaviour = .drift → Elementary.platform.Lawful) →
      f.Lands s.profile (f.noise .platform s g) (Fickle.sample c f.args s g).1) ∧
    ∀ e : Elementary, (f.behaviour = .drift → e.Lawful) →
      f.Lands s.profile (f.noise e s g) (e.sample c f.args s g).1 := by
  have hlands (e : Elementary) (he : f.behaviour = .drift → e.Lawful) :
      f.Lands s.profile (f.noise e s g) (e.sample c f.args s g).1 :=
    (steady (Args.check_eq_ok_iff.mp hargs).2 hs hdrift he g).lands h
  refine ⟨fun he => ?_, hlands⟩
  rw [← Elementary.sample_platform]
  exact hlands .platform he

/-- Five with the noise of a number and with a variance of its own, and a variable that has drifted
for one unit of age and idleness. -/
theorem noise_stays_finite_short_of_the_end_five :
    let s : Setting Binary64 := ⟨0.5, Personality.playful.profile, .greatest, .standard⟩
    let g := Stream.ofSeed 7
    let five : Fractional := float 5.0
    let wide : Fractional := ishValue 5.0 (some 2.0)
    let aged : Fractional := drift ⟨5.0, Duration.ofSecs 1, 1, Duration.ofSecs 30⟩
    s.profile.Sound ∧ s.drift = .standard ∧
      (Construct.fuzzyFloat.behaviour = five.behaviour ∧ five.args.check .fuzzyFloat = .ok () ∧
        five.Lands s.profile (five.noise .platform s g)
          (Fickle.sample .fuzzyFloat five.args s g).1) ∧
      (Construct.ishValue.behaviour = wide.behaviour ∧ wide.args.check .ishValue = .ok () ∧
        wide.Lands s.profile (wide.noise .platform s g)
          (Fickle.sample .ishValue wide.args s g).1) ∧
      (Construct.timeDrift.behaviour = aged.behaviour ∧ aged.args.check .timeDrift = .ok () ∧
        Elementary.precise.Lawful ∧
        aged.Lands s.profile (aged.noise .precise s g)
          (Elementary.precise.sample .timeDrift aged.args s g).1) := by
  intro s g five wide aged
  have hsound : s.profile.Sound := Personality.playful.sound_profile
  have hvariance : Scalar.isWidth (2.0 : Binary64) = true ∧ ¬ maxVariance < (2.0 : Binary64) := by
    decide +kernel
  have hfive : five.args.check .fuzzyFloat = .ok () :=
    Args.check_eq_ok_iff.mpr ⟨rfl, Args.flaw?_float_eq_none_iff.mpr (by decide +kernel)⟩
  have hwide : wide.args.check .ishValue = .ok () := by
    refine Args.check_eq_ok_iff.mpr ⟨rfl, Args.flaw?_ishValue_eq_none_iff.mpr
      ⟨by decide +kernel, fun w hw => ?_⟩⟩
    rwa [← Option.some_inj.mp hw]
  have haged : aged.args.check .timeDrift = .ok () :=
    Args.check_eq_ok_iff.mpr ⟨rfl, Args.flaw?_drift_eq_none_iff.mpr (by decide +kernel)⟩
  have hlawful := Elementary.lawful_precise
  refine ⟨hsound, rfl, ⟨rfl, hfive, ?_⟩, ⟨rfl, hwide, ?_⟩, rfl, haged, hlawful, ?_⟩
  · exact (noise_stays_finite_short_of_the_end rfl hfive hsound rfl g).1 nofun
  · exact (noise_stays_finite_short_of_the_end rfl hwide hsound rfl g).1 nofun
  · exact (noise_stays_finite_short_of_the_end rfl haged hsound rfl g).2 _ fun _ => hlawful

/-- The largest double is carried beyond the range. -/
theorem largest_number_becomes_infinite :
    (Personality.playful.profile : Profile Binary64).Sound ∧
      (Args.float (⟨0x7FEFFFFFFFFFFFFF⟩ : Binary64)).check .fuzzyFloat = .ok () ∧
      (let s : Setting Binary64 := ⟨Personality.playful.profile.effective .fuzzyFloat .least .calm,
        Personality.playful.profile, .least, .standard⟩
       (sample .fuzzyFloat (.float ⟨0x7FEFFFFFFFFFFFFF⟩) s (Stream.ofSeed 0)).1 =
        .float ⟨0x7FF0000000000000⟩) ∧
      Scalar.isFinite (⟨0x7FF0000000000000⟩ : Binary64) = false := by
  refine ⟨Personality.playful.sound_profile, Args.check_eq_ok_iff.mpr ⟨rfl, ?_⟩, ?_,
    by decide +kernel⟩
  · exact Args.flaw?_float_eq_none_iff.mpr (by decide +kernel)
  · decide +kernel

end Fractional

end Fickle

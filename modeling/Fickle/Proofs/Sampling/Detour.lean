import Fickle.Proofs.Binary64.Truncation
import Fickle.Proofs.Sampling.Fractional
import Fickle.Proofs.Session.Beginning

/-! # Integers with variance

An integer with variance is drawn as a double: it is rounded to one, the noise is added, the sum is
rounded and then cut back. Among integers that doubles hold exactly nothing is lost but what is cut
off. Beyond them both roundings show.
-/

namespace Fickle

open Binary64

/-! ## Roundings on the way -/

/-- The way of an integer: it becomes the double `x`, noise up to `spread` takes that to `q`, and
this is rounded to `y`. -/
structure Detour (value : Int64) (spread x q y : ℚ) : Prop where
  there : Faithful value.toInt x
  noise : |q - x| ≤ spread
  sum : Faithful q y

namespace Detour

variable {value : Int64} {spread x q y : ℚ}

theorem abs_sub_le_unit (h : Detour value spread x q y) : |x - value.toInt| ≤ 2 ^ 10 := by
  have hle := (abs_toInt_le value).trans_eq
    (by norm_num : (2 : ℚ) ^ 63 = 2 ^ 53 * 2 ^ (10 : Int))
  exact_mod_cast h.there.abs_sub_le_unit (by decide) hle

/-- Whole numbers that doubles hold are not crossed: only what is cut off is added. -/
theorem exact (h : Detour value spread x q y) (hsmall : |(value.toInt : ℚ)| + spread ≤ 2 ^ 53) :
    |(held (integral y) : ℚ) - value.toInt| ≤ spread + 1 := by
  have hspread := (abs_nonneg _).trans h.noise
  obtain ⟨hlow, hhigh⟩ := abs_le.mp (by linarith : |(value.toInt : ℚ)| ≤ 2 ^ 53)
  have hlow' : -2 ^ 53 ≤ value.toInt := by exact_mod_cast hlow
  have hhigh' : value.toInt ≤ 2 ^ 53 := by exact_mod_cast hhigh
  obtain rfl : x = value.toInt := (representable_intCast (by omega)).faithful.mp h.there
  have hq : |q| ≤ 2 ^ 53 :=
    calc |q| = |value.toInt + (q - value.toInt)| := by rw [add_sub_cancel]
      _ ≤ |(value.toInt : ℚ)| + |q - value.toInt| := abs_add_le _ _
      _ ≤ 2 ^ 53 := by linarith [h.noise]
  obtain ⟨hcut, hcut'⟩ := h.sum.integral_mem hq
  have hcut : (⌊q⌋ : ℚ) ≤ integral y := by exact_mod_cast hcut
  have hcut' : (integral y : ℚ) ≤ ⌈q⌉ := by exact_mod_cast hcut'
  have hfloor := Int.lt_floor_add_one q
  have hceil := Int.ceil_lt_add_one q
  obtain ⟨hdown, hup⟩ := abs_le.mp h.noise
  exact (abs_cast_held_sub_le value _).trans (abs_le.mpr ⟨by linarith, by linarith⟩)

/-- Each of the two roundings moves a number of 64 bits by no more than 1024. -/
theorem within (h : Detour value spread x q y) :
    |(held (integral y) : ℚ) - value.toInt| ≤ spread + 1 + 2048 := by
  obtain ⟨hthere, hthere'⟩ := abs_le.mp h.abs_sub_le_unit
  obtain ⟨hnoise, hnoise'⟩ := abs_le.mp h.noise
  obtain ⟨hlow, hhigh⟩ := abs_le.mp (abs_toInt_le value)
  by_cases hup : 2 ^ 63 < q
  · -- The sum is held at the upper end, which is nearer than the sum itself.
    have hy : ((2 ^ 63 : Int) : ℚ) ≤ y := by exact_mod_cast (h.sum _ representable_range).1 hup.le
    rw [held_of_ge (le_integral hy)]
    have hend : (value.toInt : ℚ) ≤ 2 ^ 63 - 1 := by
      exact_mod_cast Int.le_sub_one_of_lt value.toInt_lt
    push_cast
    exact abs_le.mpr ⟨by linarith, by linarith⟩
  by_cases hdown : q < -2 ^ 63
  · have hy : y ≤ ((-2 ^ 63 : Int) : ℚ) := by
      exact_mod_cast (h.sum _ representable_range.neg).2 hdown.le
    rw [held_of_le (integral_le hy)]
    push_cast
    exact abs_le.mpr ⟨by linarith, by linarith⟩
  · have hle : |q| ≤ 2 ^ 53 * 2 ^ (10 : Int) := by
      have hrange : |q| ≤ 2 ^ 63 := abs_le.mpr ⟨not_lt.mp hdown, not_lt.mp hup⟩
      exact hrange.trans_eq (by norm_num)
    have hsum := h.sum.abs_sub_le_unit (by decide) hle
    obtain ⟨hsum, hsum'⟩ := abs_le.mp hsum
    obtain ⟨hcut, hcut'⟩ := abs_le.mp (abs_integral_sub_le y)
    norm_num at hsum hsum'
    exact (abs_cast_held_sub_le value _).trans (abs_le.mpr ⟨by linarith, by linarith⟩)

/-! ## The call -/

/-- The spread of a misfire: twice the variance, widened by chaos. -/
def widened (variance : Binary64) (chaos : ChaosLevel) : Binary64 := 2.0 * variance * chaos.scale

section

variable {variance : Binary64} {w : ℚ}

theorem denotes_widened (hw : Denotes variance.unpacked w) (hw0 : 0 ≤ w) (hmax : w ≤ largest / 8)
    (chaos : ChaosLevel) :
    ∃ x, Denotes (widened variance chaos).unpacked x ∧ w ≤ x ∧ x ≤ 2 * (2 * w) ∧
      |x - 2 * w * (1 + chaos.share)| ≤ w / 2 ^ 49 + 2 ^ (-1074 : Int) := by
  obtain ⟨c, hc, hc1, hc2⟩ := chaos.spans_scale
  obtain ⟨x, hfaithful, hx, hx4⟩ := Fractional.denotes_widened hw hw0 hmax hc hc1 hc2
  have hwx : w ≤ x :=
    (hfaithful w (hw.representable (fits_unpacked _).isCanonical)).1 (by nlinarith)
  -- The scale is rounded once, and the product with it once more.
  have hrounding := hfaithful.error_le (by nlinarith : 0 ≤ 2 * w * c)
  have hscale : |2 * w * c - 2 * w * (1 + chaos.share)| ≤ 2 * w * 2 ^ (-51 : Int) := by
    rw [← mul_sub, abs_mul, abs_of_nonneg (by linarith)]
    exact mul_le_mul_of_nonneg_left (chaos.abs_scale_sub_le hc) (by linarith)
  refine ⟨x, hx, hwx, hx4, ?_⟩
  calc |x - 2 * w * (1 + chaos.share)|
    _ ≤ |x - 2 * w * c| + |2 * w * c - 2 * w * (1 + chaos.share)| := abs_sub_le _ _ _
    _ ≤ (2 * w * c / 2 ^ 52 + 2 ^ (-1074 : Int)) + 2 * w * 2 ^ (-51 : Int) :=
      add_le_add hrounding hscale
    _ ≤ w / 2 ^ 49 + 2 ^ (-1074 : Int) := by
      generalize (2 : ℚ) ^ (-1074 : Int) = least
      norm_num
      nlinarith

/-- Without misfire the spread is the variance, and a misfire only widens it. -/
theorem noise_le_widened {s : Setting Binary64} {x : ℚ} (hw : Denotes variance.unpacked w)
    (hw0 : 0 ≤ w) (hx : Denotes (widened variance s.chaos).unpacked x) (hwx : w ≤ x) (g : Stream)
    (v : Binary64) :
    ∃ o, Denotes ((Fractional.ishValue v (some variance)).noise .platform s g).unpacked o ∧
      |o| ≤ x := by
  obtain ⟨d, hd, hd0, hd1⟩ := Stream.spans_offset (Draws.unit g).2
  obtain ⟨b, hb, hb0, hbx⟩ : Spans 0 x (if (Draws.unit g).1 < s.probability then variance
      else widened variance s.chaos) := by
    split
    · exact ⟨w, hw, hw0, hwx⟩
    · exact ⟨x, hx, hw0.trans hwx, le_rfl⟩
  have hlargest := (le_abs_self x).trans (hx.abs_le_largest (fits_unpacked _))
  obtain ⟨o, -, ho, hox⟩ := (hd.mul hb).denotes
    (hx.representable (fits_unpacked _).isCanonical) (hlargest.trans_lt largest_lt_beyond)
    (Fractional.abs_mul_le hd0 hd1 hb0 hbx)
  exact ⟨o, ho, hox⟩

end

/-- The double that an integer with variance is drawn as. -/
def drawn (s : Setting Binary64) (g : Stream) (value : Int64) (variance : Binary64) : Binary64 :=
  Scalar.ofInt value.toInt +
    (Fractional.ishValue (Scalar.ofInt value.toInt) (some variance)).noise .platform s g

theorem play_ishValueInt {h : Host} (hlive : h.session.isReplaying = false) (site : Site)
    {value : Int64} {variance : Binary64}
    (hargs : (Args.ishValue (Scalar.ofInt value.toInt) (some variance)).check .ishValue = .ok ()) :
    ((Program.ishValueInt site value (some variance)).play h).1 =
      .ok (Scalar.trunc
        (drawn (h.session.setting .ishValue) h.session.stream value variance)) := by
  have hsample := Fractional.sample_eq (c := .ishValue)
    (f := .ishValue (Scalar.ofInt value.toInt) (some variance)) rfl .platform
    (h.session.setting .ishValue) h.session.stream
  rw [Elementary.sample_platform] at hsample
  have heval : ((Program.evaluate .ishValue site
      (.ishValue (Scalar.ofInt value.toInt) (some variance))).play h).1 =
        .ok (.float (drawn (h.session.setting .ishValue) h.session.stream value variance)) := by
    rw [Program.play_evaluate, Session.evaluate_of_not_replaying hlive, hargs]
    exact congrArg Except.ok hsample
  have hcall : ((Program.ishValue site (Scalar.ofInt value.toInt) (some variance)).play h).1 =
      .ok (drawn (h.session.setting .ishValue) h.session.stream value variance) := by
    unfold Program.ishValue Program.call
    rw [Program.play_bind_of_ok heval]
    rfl
  unfold Program.ishValueInt
  rw [Program.play_bind_of_ok hcall]
  rfl

/-- What an integer with variance comes to. -/
structure Near (value : Int64) (variance : Binary64) (chaos : ChaosLevel) (r : Int64) : Prop where
  /-- Up to two roundings, of at most 1024 each, the integer stays within the spread. -/
  within : |(r.toInt : ℚ) - value.toInt| ≤ (widened variance chaos).fraction + 1 + 2048
  /-- Only the cut is added where doubles hold all integers. -/
  exact : |(value.toInt : ℚ)| + (widened variance chaos).fraction ≤ 2 ^ 53 →
    |(r.toInt : ℚ) - value.toInt| ≤ (widened variance chaos).fraction + 1
  spread : |(widened variance chaos).fraction - 2 * variance.fraction * (1 + chaos.share)| ≤
    variance.fraction / 2 ^ 49 + 2 ^ (-1074 : Int)
  /-- Without variance the integer comes back as the double that it became. -/
  still : variance.fraction = 0 →
    (r.toInt : ℚ) = min (Scalar.ofInt value.toInt : Binary64).fraction (2 ^ 63 - 1)
  still_iff : variance.fraction = 0 →
    (r = value ↔ Representable value.toInt ∨ value = Int64.maxValue)

theorem toInt_eq_iff_of_min {value r : Int64} {x : ℚ} (hthere : Faithful value.toInt x)
    (hx : Representable x) (hr : (r.toInt : ℚ) = min x (2 ^ 63 - 1))
    (hend : value = Int64.maxValue → r = value) :
    r = value ↔ Representable value.toInt ∨ value = Int64.maxValue := by
  have hmax : (value.toInt : ℚ) ≤ 2 ^ 63 - 1 := by
    exact_mod_cast Int.le_sub_one_of_lt value.toInt_lt
  constructor
  · rintro rfl
    -- The result is a double, or it was held at the end of the range.
    rcases min_choice x (2 ^ 63 - 1) with hmin | hmin
    · rw [hmin] at hr
      exact .inl (hr ▸ hx)
    · rw [hmin] at hr
      have hr' : r.toInt = Int64.maxValue.toInt := by
        rw [maxValue_eq]
        exact_mod_cast hr
      exact .inr (Int64.toInt_inj.mp hr')
  · rintro (hvalue | hvalue)
    · rw [hvalue.faithful.mp hthere, min_eq_left hmax] at hr
      exact Int64.toInt_inj.mp (by exact_mod_cast hr)
    · exact hend hvalue

theorem two_pow_le_largest : (2 : ℚ) ^ 64 ≤ largest :=
  (pow_le_pow_right₀ one_le_two (by decide)).trans
    (le_mul_of_one_le_left (by positivity) (by norm_num))

theorem near_trunc_drawn {s : Setting Binary64} (g : Stream) (value : Int64) {variance : Binary64}
    {w : ℚ} (hw : Denotes variance.unpacked w) (hw0 : 0 ≤ w) (hmax : w ≤ largest / 8) :
    Near value variance s.chaos (Scalar.trunc (drawn s g value variance)) := by
  obtain ⟨x, hthere, hx, hrange⟩ := denotes_ofInt value
  obtain ⟨spread, hspread, hwide, hspread4, hscale⟩ := denotes_widened hw hw0 hmax s.chaos
  obtain ⟨o, ho, hos⟩ := noise_le_widened hw hw0 hspread hwide g (Scalar.ofInt value.toInt)
  have hsum : |x + o| ≤ largest := by
    have hlarge := two_pow_le_largest
    refine (abs_add_le x o).trans ?_
    norm_num at hrange hlarge
    linarith
  obtain ⟨y, hy, hyd, -⟩ := (hx.add ho).denotes representable_largest largest_lt_beyond hsum
  have hr : (Scalar.trunc (drawn s g value variance)).toInt = held (integral y) := hyd.toInt_trunc
  have hdetour : Detour value spread x (x + o) y := ⟨hthere, by rwa [add_sub_cancel_left], hy⟩
  have hrepresentable := hx.representable (fits_unpacked _).isCanonical
  -- Without variance the noise is zero, and nothing is rounded a second time.
  have hstill (hzero : variance.fraction = 0) : y = x := by
    rw [hw.fraction_eq] at hzero
    have ho0 : o = 0 := abs_eq_zero.mp (le_antisymm (by linarith) (abs_nonneg o))
    rw [ho0, add_zero] at hy
    exact hrepresentable.faithful.mp hy
  have hback (hzero : variance.fraction = 0) :
      ((Scalar.trunc (drawn s g value variance)).toInt : ℚ) = min x (2 ^ 63 - 1) := by
    rw [hr, hstill hzero]
    exact held_integral_of_faithful hthere hrepresentable
  refine ⟨?_, fun hsmall => ?_, ?_, fun hzero => ?_, fun hzero => ?_⟩
  · rw [hspread.fraction_eq, hr]
    exact hdetour.within
  · rw [hspread.fraction_eq] at hsmall ⊢
    rw [hr]
    exact hdetour.exact hsmall
  · rw [hspread.fraction_eq, hw.fraction_eq]
    exact hscale
  · rw [hx.fraction_eq]
    exact hback hzero
  · refine toInt_eq_iff_of_min hthere hrepresentable (hback hzero) ?_
    rintro rfl
    rw [← Int64.toInt_inj, hr, hstill hzero, ← hx.toInt_trunc, trunc_maxValue]

/-- An integer with an accepted variance stays within the spread of a misfire, but for the
roundings on its way. Without variance it is itself if a double holds it, and at the upper end of
the range. -/
theorem integer_stays_near {h : Host} (hlive : h.session.isReplaying = false) (site : Site)
    (value : Int64) (variance : Binary64)
    (hargs : (Args.ishValue (Scalar.ofInt value.toInt) (some variance)).check .ishValue = .ok ()) :
    ∃ r, ((Program.ishValueInt site value (some variance)).play h).1 = .ok r ∧
      Near value variance h.session.chaos r := by
  obtain ⟨hwidth, hmax⟩ :=
    (Args.flaw?_ishValue_eq_none_iff.mp (Args.check_eq_ok_iff.mp hargs).2).2 variance rfl
  obtain ⟨w, hw, hw0, hw8⟩ := Fractional.denotes_of_width hwidth hmax
  exact ⟨_, play_ishValueInt hlive site hargs,
    near_trunc_drawn (s := h.session.setting .ishValue) h.session.stream value hw hw0 hw8⟩

theorem check_ishValue_some {v variance : Binary64} (hv : Scalar.isFinite v = true)
    (hwidth : Scalar.isWidth variance = true ∧ ¬ maxVariance < variance) :
    (Args.ishValue v (some variance)).check .ishValue = .ok () := by
  refine Args.check_eq_ok_iff.mpr ⟨rfl, Args.flaw?_ishValue_eq_none_iff.mpr ⟨hv, fun w hw => ?_⟩⟩
  rwa [← Option.some_inj.mp hw]

/-- Five with a variance of two, under full chaos. -/
theorem integer_stays_near_five :
    let h := Host.ofSession (Session.opened Registry.builtin Personality.playful.profile .greatest
      .standard 7 false false) Clock.zero
    h.session.isReplaying = false ∧
      (Args.ishValue (Scalar.ofInt (5 : Int64).toInt : Binary64) (some 2.0)).check .ishValue =
        .ok () ∧
      ∃ r, ((Program.ishValueInt ⟨1⟩ 5 (some 2.0)).play h).1 = .ok r ∧ Near 5 2.0 .greatest r := by
  intro h
  have hargs : (Args.ishValue (Scalar.ofInt (5 : Int64).toInt : Binary64) (some 2.0)).check
      .ishValue = .ok () :=
    check_ishValue_some (by decide +kernel) (by decide +kernel)
  exact ⟨rfl, hargs, integer_stays_near (h := h) rfl ⟨1⟩ 5 2.0 hargs⟩

/-- Without variance the first integer that no double holds comes back as its neighbour, and one
near the upper end of the range comes back 511 lower. -/
theorem odd_integer_is_lost :
    let h := Host.ofSession (Session.opened Registry.builtin Personality.reliable.profile .least
      .standard 0 false false) Clock.zero
    let odd : Int64 := 9007199254740993
    let high : Int64 := 9223372036854775295
    h.session.profile.Sound ∧ h.session.isReplaying = false ∧
      (Args.ishValue (Scalar.ofInt odd.toInt : Binary64) (some 0.0)).check .ishValue = .ok () ∧
      (Args.ishValue (Scalar.ofInt high.toInt : Binary64) (some 0.0)).check .ishValue = .ok () ∧
      ((Program.ishValueInt ⟨1⟩ odd (some 0.0)).play h).1 = .ok 9007199254740992 ∧
      ((Program.ishValueInt ⟨1⟩ high (some 0.0)).play h).1 = .ok 9223372036854774784 ∧
      (0.0 : Binary64).fraction = 0 ∧ odd ≠ 9007199254740992 ∧
      high.toInt - (9223372036854774784 : Int64).toInt = 511 := by
  intro h odd high
  have hodd : (Args.ishValue (Scalar.ofInt odd.toInt : Binary64) (some 0.0)).check .ishValue =
      .ok () := check_ishValue_some (by decide +kernel) (by decide +kernel)
  have hhigh : (Args.ishValue (Scalar.ofInt high.toInt : Binary64) (some 0.0)).check .ishValue =
      .ok () := check_ishValue_some (by decide +kernel) (by decide +kernel)
  refine ⟨Personality.reliable.sound_profile, rfl, hodd, hhigh, ?_, ?_, denotes_zero.fraction_eq,
    by decide, by decide⟩
  · rw [play_ishValueInt (h := h) rfl ⟨1⟩ hodd]
    exact congrArg Except.ok (by decide +kernel)
  · rw [play_ishValueInt (h := h) rfl ⟨1⟩ hhigh]
    exact congrArg Except.ok (by decide +kernel)

end Detour

end Fickle

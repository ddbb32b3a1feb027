import Fickle.Proofs.Rate.Doubles
import Fickle.Proofs.Rate.Interval
import Fickle.Proofs.Rate.Verdict

/-! # Verdict and confidence tell the same story

A verdict asks for the quantile of the confidence, and the confidence that a report needs comes from
the distribution function. Both are approximations, so the two agree but for a margin.
-/

namespace Fickle

open Binary64

namespace Normal

variable {t : Exponentials} {c : Binary64} {a : ℚ}

/-! ## The critical value -/

/-- The probability to one side, which stays between one half and one. -/
theorem exists_side (hc : Denotes c.unpacked a) (h0 : 0 < a) (h1 : a ≤ 1 - 1 / 2 ^ 52) :
    ∃ b : ℚ, Denotes (1.0 - (1.0 - c) / 2.0).unpacked b ∧ 1 / 2 ≤ b ∧ b < 1 ∧
      |2 * (b : ℝ) - 1 - a| ≤ 2e-14 := by
  have hstep (n : ℕ) (hn : n ≤ 100) : Representable (1 / 2 ^ n) := representable_one_div (by omega)
  have hlast : Representable (1 - 1 / 2 ^ 53) := by
    have hmany := representable_natCast_mul (n := 2 ^ 53 - 1) (e := -53) (by norm_num) (by decide)
    norm_num at hmany ⊢
    exact hmany
  -- First the bounds, by powers of two that rounding does not cross, and then the error.
  obtain ⟨b, hb, hlow, hhigh⟩ := (denotes_one.sub hc).spans (hstep 52 (by norm_num))
    representable_one (by norm_num) (by norm_num) (by linarith) (by linarith)
  obtain ⟨d, hd, hlow', hhigh'⟩ := (hb.div denotes_two two_ne_zero).spans (hstep 53 (by norm_num))
    (hstep 1 (by norm_num)) (by norm_num) (by norm_num) (by linarith) (by linarith)
  obtain ⟨e, he, hlow'', hhigh''⟩ := (denotes_one.sub hd).spans (hstep 1 (by norm_num)) hlast
    (by norm_num) (by norm_num) (by linarith) (by linarith)
  have ha0 : (0 : ℝ) < a := by exact_mod_cast h0
  have ha1 : (a : ℝ) ≤ 1 := by
    have hle : a ≤ 1 := h1.trans (by norm_num)
    exact_mod_cast hle
  have hfirst := near_one.sub hc.near (m := 2) (by rw [abs_one, abs_of_pos ha0]; linarith)
    (by norm_num) (by norm_num)
  have hhalf := hfirst.div near_two (k := 1) (l := 2) (m := 2) (by norm_num) (by norm_num)
    (by rw [abs_of_nonneg (by linarith)]; linarith) (by norm_num) (by norm_num) (by norm_num)
  have hside := near_one.sub (hhalf.mono (e := 4e-15) (by norm_num)) (m := 2)
    (by
      rw [abs_one, abs_of_nonneg (by linarith)]
      norm_num
      linarith) (by norm_num) (by norm_num)
  obtain ⟨e', he', herror⟩ := hside
  obtain rfl := he.unique he'
  refine ⟨e, he, by simpa using hlow'', hhigh''.trans_lt (by norm_num), ?_⟩
  obtain ⟨hbelow, habove⟩ := abs_le.mp herror
  norm_num at hbelow habove
  rw [abs_le]
  norm_num
  constructor
  · linarith
  · linarith

theorem exists_criticalValue (ht : t.Accurate) (hc : Denotes c.unpacked a) (h0 : 0 < a)
    (h1 : a ≤ 1 - 1 / 2 ^ 52) : ∃ b, Denotes (@criticalValue Binary64 t.scalar c).unpacked b ∧
      0 ≤ b ∧ b ≤ 11 ∧ |share coarse b - a| ≤ 2.97e-7 := by
  obtain ⟨p, hp, hp0, hp1, hside⟩ := exists_side hc h0 h1
  obtain ⟨b, hb, hb0, hb1, hshare⟩ := exists_quantile ht hp hp0 hp1
  refine ⟨b, hb, hb0, hb1, (abs_sub_le _ _ _).trans ((add_le_add hshare hside).trans ?_)⟩
  norm_num

/-- A little more distance takes up little more of the distribution. -/
theorem share_le_of_le_add {x y : ℝ} (hx : 0 ≤ x) (hy : 0 ≤ y) (h : x ≤ y + 1e-11) :
    share coarse x ≤ share coarse y + 2e-11 := by
  rcases le_total x y with hle | hge
  · have hmono := monotoneOn_share_coarse hx hy hle
    norm_num
    linarith
  · have hstep := (abs_le.mp (abs_share_sub_share_le hy hx)).2
    rw [abs_of_nonneg (sub_nonneg.mpr hge)] at hstep
    norm_num at h ⊢
    linarith

end Normal

/-! ## The confidence that is needed -/

theorem Binary64.Near.clamp {x : Binary64} {r d : ℝ} (h : Near x r d) (h0 : 0 ≤ r) (h1 : r ≤ 1) :
    Near (Scalar.clamp 0.0 1.0 x) r d := by
  obtain ⟨a, ha, hle⟩ := h
  obtain ⟨hlow, hhigh⟩ := abs_le.mp hle
  unfold Scalar.clamp
  split
  · -- Holding it back brings the number no further from one that lies within.
    rename_i hneg
    have hneg := (Rat.cast_lt (K := ℝ)).mpr ((ha.lt_iff denotes_zero).mp hneg)
    push_cast at hneg
    refine ⟨0, denotes_zero, ?_⟩
    rw [Rat.cast_zero, zero_sub, abs_neg, abs_of_nonneg h0]
    linarith
  · split
    · rename_i hlarge
      have hlarge := (Rat.cast_lt (K := ℝ)).mpr ((denotes_one.lt_iff ha).mp hlarge)
      push_cast at hlarge
      refine ⟨1, denotes_one, ?_⟩
      rw [Rat.cast_one, abs_of_nonneg (by linarith)]
      linarith
    · exact ⟨a, ha, hle⟩

theorem confidenceNeeded_doubles (t : Exponentials) (e rate : Binary64) (n : ℕ) :
    @confidenceNeeded Binary64 t.scalar e rate n =
      let excess := Scalar.larger (Scalar.abs (rate - e) - 0.5 / RateInterval.trialCount n) 0.0
      let error := RateInterval.standardError e n
      if excess ≤ 0.0 ∧ 0.0 ≤ excess then 0.0
      else if error ≤ 0.0 ∧ 0.0 ≤ error then 1.0
      else Scalar.clamp 0.0 1.0 (2.0 * @Normal.cdf Binary64 t.scalar (excess / error) - 1.0) := rfl

namespace Measured

variable {t : Exponentials} {e rate : Binary64} {n : ℕ} {a h d s : ℚ}
  (m : Measured e rate n a h d s)

include m

theorem needed_of_le (hle : a ≤ h) : @confidenceNeeded Binary64 t.scalar e rate n = 0.0 := by
  have hexcess := m.excess.larger denotes_zero
  rw [max_eq_right (m.excess_nonpos hle)] at hexcess
  rw [confidenceNeeded_doubles]
  exact if_pos ⟨(hexcess.le_iff denotes_zero).mpr le_rfl, (denotes_zero.le_iff hexcess).mpr le_rfl⟩

theorem larger_excess (hlt : h < a) : Denotes (Scalar.larger
    (Scalar.abs (rate - e) - 0.5 / RateInterval.trialCount n) 0.0).unpacked d := by
  have hexcess := m.excess.larger denotes_zero
  rwa [max_eq_left (m.excess_pos hlt).le] at hexcess

theorem needed_of_sure (hlt : h < a) (hs : s = 0) :
    @confidenceNeeded Binary64 t.scalar e rate n = 1.0 := by
  have hexcess := m.larger_excess hlt
  have herror := hs ▸ m.error
  rw [confidenceNeeded_doubles]
  refine (if_neg ?_).trans (if_pos ?_)
  · rw [hexcess.le_iff denotes_zero]
    exact fun hzero => absurd hzero.1 (not_le.mpr (m.excess_pos hlt))
  · exact ⟨(herror.le_iff denotes_zero).mpr le_rfl, (denotes_zero.le_iff herror).mpr le_rfl⟩

theorem exists_needed (ht : t.Accurate) (hlt : h < a) (hs : 0 < s) :
    ∃ x g : ℚ, Faithful (d / s) x ∧ 0 ≤ x ∧
      Denotes (@confidenceNeeded Binary64 t.scalar e rate n).unpacked g ∧
      |(g : ℝ) - Normal.share Normal.coarse x| ≤ 1e-9 := by
  obtain ⟨-, hleast, -⟩ := m.spread.resolve_left hs.ne'
  have hexcess := m.larger_excess hlt
  have hd0 := m.excess_pos hlt
  have hd4 : d ≤ 4 := by
    refine (m.excess_faithful 4 (representable_natCast (n := 4) (by decide))).2 ?_
    linarith [m.distance_mem.2, m.half_mem.1]
  -- The error is no smaller than that of all the trials there can be.
  have hquotient : d / s ≤ 2 ^ 72 := by
    rw [div_le_iff₀ hs]
    norm_num at hleast ⊢
    linarith
  obtain ⟨x, hx, hxf⟩ := (hexcess.div m.error hs.ne').exists_denotes (by
    rw [abs_of_nonneg (by positivity)]
    exact hquotient.trans (by norm_num))
  have hx0 := hxf.nonneg (by positivity)
  have hx72 : x ≤ 2 ^ ((72 : ℕ) : ℤ) :=
    (hxf _ (representable_two_zpow (by decide))).2 (by rwa [zpow_natCast])
  have hx25 : (x : ℝ) ≤ 1e25 := by
    have hcast := (Rat.cast_le (K := ℝ)).mpr hx72
    push_cast at hcast
    norm_num at hcast ⊢
    linarith
  have hxr : (0 : ℝ) ≤ x := Rat.cast_nonneg.mpr hx0
  obtain ⟨g, hg, hshare⟩ := (Normal.near_share ht hx hx0 hx25).clamp
    (Normal.share_coarse_nonneg hxr) (Normal.share_coarse_le_one hxr)
  refine ⟨x, g, hxf, hx0, ?_, hshare⟩
  rw [confidenceNeeded_doubles]
  dsimp only
  rw [if_neg, if_neg]
  · exact hg
  · rw [m.error.le_iff denotes_zero]
    exact fun hzero => absurd hzero.1 (not_le.mpr hs)
  · rw [hexcess.le_iff denotes_zero]
    exact fun hzero => absurd hzero.1 (not_le.mpr hd0)

end Measured

/-! ## Accurate functions -/

namespace Exponentials

/-- Exponential and logarithm as they are, but for places that are cut off. -/
noncomputable def precise : Exponentials :=
  ⟨fun x => cut (Real.exp x.fraction), fun x => cut (Real.log x.fraction)⟩

theorem accurate_precise : precise.Accurate where
  exp x a hx ha := by
    show Near (cut (Real.exp x.fraction)) _ _
    rw [hx.fraction_eq]
    have hle : Real.exp a ≤ 1 := Real.exp_le_one_iff.mpr (by exact_mod_cast ha)
    refine near_cut ?_
    rw [abs_of_pos (Real.exp_pos _)]
    linarith
  log x a hx hpos hle := by
    show Near (cut (Real.log x.fraction)) _ _
    rw [hx.fraction_eq]
    have hposr : (0 : ℝ) < a := by exact_mod_cast hpos
    have hler : (a : ℝ) ≤ 1 := by
      have hle1 : a ≤ 1 := hle.trans (by norm_num)
      exact_mod_cast hle1
    -- Even the least double is not so small that its logarithm would be long.
    have hleast : Real.log ((2 : ℝ) ^ (-1074 : ℤ)) ≤ Real.log a := by
      obtain ⟨m, hm⟩ := (hx.representable x.fits_unpacked.isCanonical).units
      have hunit := (Rat.cast_le (K := ℝ)).mpr (unit_le_of_units hm hpos)
      rw [Rat.cast_zpow, Rat.cast_ofNat] at hunit
      exact Real.log_le_log (by positivity) hunit
    have htwo := Real.log_two_lt_d9
    rw [Real.log_zpow] at hleast
    refine near_cut (abs_le.mpr ⟨?_, ?_⟩)
    · push_cast at hleast
      linarith
    · linarith [Real.log_nonpos hposr.le hler]

end Exponentials

/-! ## Verdicts -/

/-- How far the two approximations may lead apart. -/
def margin : ℚ := 3 / 10 ^ 7

/-- The verdict of a report and the confidence that it needs tell the same story. -/
structure Agrees (r : Report Binary64) : Prop where
  judged : r.verdict ≠ .inconclusive
  finite : Scalar.isFinite r.needed = true
  /-- Unless the two confidences are next to each other. -/
  apart : margin < |r.needed.fraction - r.confidence.fraction| →
    (r.verdict = .pass ↔ r.needed ≤ r.confidence)
  /-- A sure rate is not left to the approximations. -/
  sure : r.expected.fraction = 0 ∨ r.expected.fraction = 1 →
    (r.verdict = .pass ↔ r.needed ≤ r.confidence)
  met : r.observed.fraction = r.expected.fraction → r.verdict = .pass ∧ r.needed = 0.0

section

variable {e c : Binary64} {trials : List Trial}

theorem spans_of_checkAssertion {budget : Budget} (h : checkAssertion e budget c = .ok ()) :
    Spans 0 1 e ∧ Spans 0 1 c ∧ (0.0 : Binary64) < c := by
  unfold checkAssertion at h
  split at h
  · cases h
  · rename_i hexpected
    split at h
    · cases h
    · rename_i hconfidence
      have hwithin : Scalar.within 0.0 1.0 e = true := by
        simp only [Bool.not_eq_true', Bool.not_eq_false, Bool.and_eq_true] at hexpected
        exact hexpected.2
      obtain ⟨hlow, hhigh⟩ := of_decide_eq_true hwithin
      have hbetween : (0.0 : Binary64) < c ∧ c < 1.0 := by simpa using hconfidence
      exact ⟨spans_of_le denotes_zero denotes_one hlow hhigh,
        spans_of_le denotes_zero denotes_one (Binary64.le_of_lt hbetween.1)
          (Binary64.le_of_lt hbetween.2), hbetween.1⟩

theorem spans_rate (hpos : 0 < trials.length) (hcounted : trials.length < UInt64.size - 1) :
    Spans 0 2 (Report.rate trials : Binary64) := by
  have hne : trials ≠ [] := List.ne_nil_of_length_pos hpos
  have hle : (successes trials : ℚ) ≤ trials.length := by exact_mod_cast successes_le trials
  obtain ⟨d, hd, hdn, hd1⟩ := RateInterval.exists_trialCount hpos hcounted
  obtain ⟨k, hk, hkf⟩ := (rounds_ofNat (successes trials)).exists_denotes (by
    rw [abs_of_nonneg (Nat.cast_nonneg _)]
    exact (hle.trans (cast_le_of_counted hcounted)).trans (by norm_num))
  have hk0 := hkf.nonneg (Nat.cast_nonneg _)
  have hkd : k ≤ 2 * d := by
    have hlow := (abs_le.mp hdn).1
    have hhigh := (abs_le.mp (hkf.error_le_div_add (Nat.cast_nonneg _))).2
    have hn1 : (1 : ℚ) ≤ trials.length := by exact_mod_cast hpos
    norm_num at hlow hhigh
    linarith
  have hrate : (Report.rate trials : Binary64) =
      Scalar.ofNat (successes trials) / RateInterval.trialCount trials.length := by
    unfold Report.rate RateInterval.trialCount
    rw [if_neg (by simpa using hne), max_eq_left hpos]
  rw [hrate]
  exact (hk.div hd (by linarith)).spans representable_zero representable_two (by norm_num)
    (by norm_num) (by positivity) ((div_le_iff₀ (by linarith)).mpr hkd)

end

/-- Two numbers that can only be on the wrong sides of each other when they are close. -/
theorem iff_le_of_apart {p : Prop} {x y d : ℚ} (hpass : p → x ≤ y + d) (hfail : ¬ p → y - d ≤ x)
    (hapart : d < |x - y|) : p ↔ x ≤ y := by
  constructor
  · intro hp
    by_contra hlt
    rw [abs_of_pos (sub_pos.mpr (not_le.mp hlt))] at hapart
    linarith [hpass hp]
  · intro hle
    by_contra hp
    rw [abs_of_nonpos (sub_nonpos.mpr hle)] at hapart
    linarith [hfail hp]

/-- Where there is a spread, what is needed lies next to the confidence or on its right side. -/
theorem Measured.needed_near {e rate : Binary64} {n : ℕ} {a h d s b w v x g c : ℚ}
    (m : Measured e rate n a h d s) (hs : 0 < s) (hlt : h < a) (h0 : 0 ≤ b) (h11 : b ≤ 11)
    (hw : Faithful (b * s) w) (hv : Faithful (w + h) v) (hx : Faithful (d / s) x) (hx0 : 0 ≤ x)
    (hz : |Normal.share Normal.coarse b - c| ≤ 2.97e-7)
    (hg : |(g : ℝ) - Normal.share Normal.coarse x| ≤ 1e-9) :
    (a ≤ v → g ≤ c + margin) ∧ (¬ a ≤ v → c - margin ≤ g) := by
  have hx0 : (0 : ℝ) ≤ x := Rat.cast_nonneg.mpr hx0
  have h0' : (0 : ℝ) ≤ b := Rat.cast_nonneg.mpr h0
  obtain ⟨hglow, hghigh⟩ := abs_le.mp hg
  obtain ⟨hzlow, hzhigh⟩ := abs_le.mp hz
  constructor
  · intro hle
    have hquotient := (Rat.cast_le (K := ℝ)).mpr (m.quotient_le hs h0 h11 hw hv hx hlt hle)
    push_cast at hquotient
    have hstep := Normal.share_le_of_le_add hx0 h0' hquotient
    rw [← Rat.cast_le (K := ℝ), margin]
    norm_num at hghigh hzhigh hstep ⊢
    linarith
  · intro hgt
    have hquotient := (Rat.cast_le (K := ℝ)).mpr
      (m.le_quotient hs h0 h11 hw hv hx hlt (not_le.mp hgt))
    push_cast at hquotient
    have hstep := Normal.share_le_of_le_add h0' hx0 (by linarith)
    rw [← Rat.cast_le (K := ℝ), margin]
    norm_num at hglow hzlow hstep ⊢
    linarith

/-- The verdict and the confidence that is needed are found by different approximations. They agree
but for a margin, with a sure rate always, and a rate that is met always passes. The one confidence
above the bound is left out: its quantile is taken at one. -/
theorem verdict_agrees (t : Exponentials) (ht : t.Accurate) (trials : List Trial) (e c : Binary64)
    (budget : Budget) (hchecked : checkAssertion e budget c = .ok ())
    (hbelow : c.fraction ≤ 1 - 1 / 2 ^ 52) (henough : (minTrials e).toNat ≤ trials.length)
    (hcounted : trials.length < UInt64.size - 1) : Agrees (t.judge trials e c) := by
  obtain ⟨⟨E, he, hE0, hE1⟩, ⟨C, hc, -, -⟩, hc0⟩ := spans_of_checkAssertion hchecked
  rw [hc.fraction_eq] at hbelow
  replace hc0 := (denotes_zero.lt_iff hc).mp hc0
  obtain ⟨F, hsides⟩ := exists_sides he hE0 hE1
  have hpos := hsides.trials_pos henough hcounted
  obtain ⟨R, hr, hR⟩ := spans_rate hpos hcounted
  obtain ⟨a, h, d, s, m⟩ := exists_measured hsides hr hR hpos henough hcounted
  obtain ⟨b, hz, hb0, hb11, hshare⟩ := Normal.exists_criticalValue ht hc hc0 hbelow
  obtain ⟨w, v, hw, hv, hcontains⟩ := m.exists_width hz hb0 hb11
  have hjudged : (t.judge trials e c).verdict ≠ .inconclusive :=
    mt (verdictOf_eq_inconclusive_iff (i := (t.judge trials e c).interval)).mp (not_lt.mpr henough)
  have hverdict : (t.judge trials e c).verdict = .pass ↔ a ≤ v :=
    (verdictOf_eq_pass_iff (i := (t.judge trials e c).interval) (not_lt.mpr henough)).trans hcontains
  have hmet (hlt : h < a) :
      (t.judge trials e c).observed.fraction ≠ (t.judge trials e c).expected.fraction :=
    fun hmet => (m.half_mem.1.trans hlt).ne' (m.met hmet)
  rcases le_or_gt a h with hle | hlt
  -- The distance is at most half a trial: everything passes, and nothing is needed.
  · have hpass := hverdict.mpr (hle.trans (m.half_le_width hb0 hw hv))
    have hneeded : (t.judge trials e c).needed = 0.0 := m.needed_of_le hle
    have hstory : (t.judge trials e c).verdict = .pass ↔ (t.judge trials e c).needed ≤ c := by
      rw [hneeded]
      exact iff_of_true hpass ((denotes_zero.le_iff hc).mpr hc0.le)
    refine ⟨hjudged, ?_, fun _ => hstory, fun _ => hstory, fun _ => ⟨hpass, hneeded⟩⟩
    rw [hneeded]
    exact isFinite_iff.mpr ⟨0, denotes_zero⟩
  rcases m.spread_nonneg.eq_or_lt with hzero | hs
  -- A sure rate that is missed: nothing passes, and no confidence is enough.
  · have hneeded : (t.judge trials e c).needed = 1.0 := m.needed_of_sure hlt hzero.symm
    have hstory : (t.judge trials e c).verdict = .pass ↔ (t.judge trials e c).needed ≤ c := by
      rw [hneeded, hverdict, m.width_of_sure hzero.symm hw hv, denotes_one.le_iff hc]
      exact iff_of_false (not_le.mpr hlt) (not_le.mpr (hbelow.trans_lt (by norm_num)))
    refine ⟨hjudged, ?_, fun _ => hstory, fun _ => hstory, fun h => absurd h (hmet hlt)⟩
    rw [hneeded]
    exact isFinite_iff.mpr ⟨1, denotes_one⟩
  · obtain ⟨x, g, hx, hx0, hg, hgx⟩ := m.exists_needed ht hlt hs
    have hg : Denotes (t.judge trials e c).needed.unpacked g := hg
    have hc : Denotes (t.judge trials e c).confidence.unpacked C := hc
    obtain ⟨hpass, hfail⟩ := m.needed_near hs hlt hb0 hb11 hw hv hx hx0 hshare hgx
    refine ⟨hjudged, isFinite_iff.mpr ⟨g, hg⟩, fun hapart => ?_,
      fun hsure => absurd (m.sure hsure) hs.ne', fun h => absurd h (hmet hlt)⟩
    rw [hg.fraction_eq, hc.fraction_eq] at hapart
    rw [hverdict, hg.le_iff hc]
    exact iff_le_of_apart hpass hfail hapart

/-- Seven of ten where half of them are expected. -/
theorem verdict_agrees_sevenOfTen :
    let trials : List Trial := (List.range 10).map fun i => ⟨i, decide (i < 7)⟩
    Exponentials.precise.Accurate ∧ checkAssertion 0.5 (.trials 10) 0.75 = .ok () ∧
      (0.75 : Binary64).fraction ≤ 1 - 1 / 2 ^ 52 ∧
      (minTrials (0.5 : Binary64)).toNat ≤ trials.length ∧ trials.length < UInt64.size - 1 ∧
      Agrees (Exponentials.precise.judge trials 0.5 0.75) := by
  intro trials
  have hchecked : checkAssertion 0.5 (.trials 10) 0.75 = .ok () := rfl
  have hbelow : (0.75 : Binary64).fraction ≤ 1 - 1 / 2 ^ 52 := by decide +kernel
  have henough : (minTrials (0.5 : Binary64)).toNat ≤ trials.length := by decide +kernel
  have hcounted : trials.length < UInt64.size - 1 := by decide
  exact ⟨Exponentials.accurate_precise, hchecked, hbelow, henough, hcounted,
    verdict_agrees _ Exponentials.accurate_precise trials 0.5 0.75 _ hchecked hbelow henough hcounted⟩

/-! ### Where the approximations stray -/

/-- As the approximation has it, too large a share lies within an eighth of the deviation. -/
theorem lt_share_coarse_eighth :
    994765 / 10 ^ 7 + 1 / 10 ^ 8 < Normal.share Normal.coarse (1 / 8) := by
  have hexp := Real.sum_le_exp_of_nonneg (x := 1 / 8 / Normal.root * (1 / 8 / Normal.root))
    (mul_self_nonneg _) 5
  have hneg := inv_anti₀ (by
    simp only [Finset.sum_range_succ, Finset.sum_range_zero, Nat.factorial]
    have hroot := Normal.root_pos
    positivity) hexp
  rw [← Real.exp_neg] at hneg
  have hpoly := (Normal.coarse_mem (div_nonneg (by norm_num : (0 : ℝ) ≤ 1 / 8) Normal.root_pos.le)).1
  have hshare := mul_le_mul_of_nonneg_left hneg hpoly
  unfold Normal.share Normal.beyond
  rw [← mul_assoc]
  refine lt_of_lt_of_le ?_ (sub_le_sub_left hshare 1)
  simp only [Normal.nearness, Normal.coarse, Normal.curb, Normal.root, Coeffs.eval_cons,
    Coeffs.eval_nil, Finset.sum_range_succ, Finset.sum_range_zero, Nat.factorial]
  norm_num

/-- One success more than half of the trials. -/
def oneMore : List Trial := (List.range 64).map fun i => ⟨i, decide (i < 33)⟩

/-- A confidence of not quite one tenth, 0.0994765 as a double. -/
def nearTenth : Binary64 := ⟨0x3FB9774ABA387592⟩

theorem denotes_nearTenth : Denotes nearTenth.unpacked (0x19774ABA387592 / 2 ^ 56) :=
  denotes_of_isWritten 0x19774ABA387592 (-56) rfl (by norm_num)

/-- Between the approximations a rate may pass that needs more confidence. -/
theorem needed_gt_of_pass : checkAssertion 0.5 (.trials 64) nearTenth = .ok () ∧
    (minTrials (0.5 : Binary64)).toNat ≤ oneMore.length ∧ (∃ t : Exponentials, t.Accurate) ∧
    ∀ t : Exponentials, t.Accurate → (t.judge oneMore 0.5 nearTenth).verdict = .pass ∧
      ¬ (t.judge oneMore 0.5 nearTenth).needed ≤ (t.judge oneMore 0.5 nearTenth).confidence := by
  have henough : (minTrials (0.5 : Binary64)).toNat ≤ oneMore.length := by decide +kernel
  refine ⟨rfl, henough, ⟨_, Exponentials.accurate_precise⟩, fun t ht => ⟨?_, ?_⟩⟩
  · have hlow : ¬ (1.0 - (1.0 - nearTenth) / 2.0 : Binary64) < 0.02425 := by decide +kernel
    have hhigh : (1.0 - (1.0 - nearTenth) / 2.0 : Binary64) ≤ 1.0 - 0.02425 := by decide +kernel
    have hz := Normal.quantile_centre t hlow hhigh
    have hcontains : (RateInterval.ofCriticalValue 0.5 oneMore.length (@Normal.quantile Binary64
        t.scalar (1.0 - (1.0 - nearTenth) / 2.0))).contains (Report.rate oneMore) = true := by
      rw [hz]
      decide +kernel
    exact (verdictOf_eq_pass_iff (i := (t.judge oneMore 0.5 nearTenth).interval)
      (not_lt.mpr henough)).mpr hcontains
  · have heighth : Denotes (0.125 : Binary64).unpacked (1 / 8) :=
      denotes_of_isWritten (2 ^ 52) (-55) rfl (by norm_num)
    have hshare := Normal.near_share ht heighth (by norm_num) (by norm_num)
    have hlarge := lt_share_coarse_eighth
    push_cast at hshare
    obtain ⟨g, hg, herror⟩ := hshare.clamp (Normal.share_coarse_nonneg (by norm_num))
      (Normal.share_coarse_le_one (by norm_num))
    have hneeded : (t.judge oneMore 0.5 nearTenth).needed =
        Scalar.clamp 0.0 1.0 (2.0 * @Normal.cdf Binary64 t.scalar 0.125 - 1.0) := by
      show @confidenceNeeded Binary64 t.scalar 0.5 (Report.rate oneMore) oneMore.length = _
      have hquotient : Scalar.larger (Scalar.abs (Report.rate oneMore - 0.5) -
          0.5 / RateInterval.trialCount oneMore.length) 0.0 /
            RateInterval.standardError 0.5 oneMore.length = (0.125 : Binary64) := by
        decide +kernel
      rw [confidenceNeeded_doubles]
      dsimp only
      rw [if_neg (by decide +kernel), if_neg (by decide +kernel), hquotient]
    rw [hneeded]
    show ¬ _ ≤ nearTenth
    rw [hg.le_iff denotes_nearTenth, not_le, ← Rat.cast_lt (K := ℝ)]
    have hlow := (abs_le.mp herror).1
    push_cast
    norm_num at hlarge hlow ⊢
    linarith

end Fickle

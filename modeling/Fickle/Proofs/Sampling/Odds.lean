import Fickle.Proofs.Sampling.Draw
import Fickle.Proofs.Args
import Fickle.Sampling

/-! # The odds of three states

Odds that are off are divided by their sum, and that makes them add up to one as far as rounding
allows. It takes that the sum is a fraction: odds that are accepted one by one can be too large
together, and divided by an infinite sum they vanish.
-/

namespace Fickle

open Binary64

/-! ## Sums of three -/

namespace Odds

/-- What the odds stand for, none of them negative. -/
structure Amounts (o : Odds Binary64) (a b c : ℚ) : Prop where
  positive : Denotes o.positive.unpacked a
  negative : Denotes o.negative.unpacked b
  neutral : Denotes o.neutral.unpacked c
  nonneg : 0 ≤ a ∧ 0 ≤ b ∧ 0 ≤ c

theorem exists_amounts {o : Odds Binary64} (h : ∀ v ∈ o.toList, Scalar.isWidth v = true) :
    ∃ a b c, o.Amounts a b c := by
  obtain ⟨a, ha, ha0⟩ := isWidth_iff.mp (h o.positive (by simp [toList]))
  obtain ⟨b, hb, hb0⟩ := isWidth_iff.mp (h o.negative (by simp [toList]))
  obtain ⟨c, hc, hc0⟩ := isWidth_iff.mp (h o.neutral (by simp [toList]))
  exact ⟨a, b, c, ha, hb, hc, ha0, hb0, hc0⟩

variable {o : Odds Binary64} {a b c : ℚ}

theorem Amounts.nonneg_of_mem (h : o.Amounts a b c) : ∀ v ∈ o.toList, (0.0 : Binary64) ≤ v := by
  have hmem (v : Binary64) : v ∈ o.toList ↔ v = o.positive ∨ v = o.negative ∨ v = o.neutral := by
    simp [toList]
  intro v hv
  rcases (hmem v).mp hv with rfl | rfl | rfl
  · exact nonneg_iff.mpr (.inl ⟨a, h.positive, h.nonneg.1⟩)
  · exact nonneg_iff.mpr (.inl ⟨b, h.negative, h.nonneg.2.1⟩)
  · exact nonneg_iff.mpr (.inl ⟨c, h.neutral, h.nonneg.2.2⟩)

theorem total_eq (o : Odds Binary64) :
    o.total = 0.0 + o.positive + o.negative + o.neutral := rfl

theorem Amounts.denotes_first (h : o.Amounts a b c) : Denotes (0.0 + o.positive).unpacked a := by
  have hround := denotes_zero.add h.positive
  rw [zero_add] at hround
  exact hround.denotes_self (h.positive.representable o.positive.fits_unpacked.isCanonical)
    ((h.positive.abs_le_largest o.positive.fits_unpacked).trans_lt largest_lt_beyond)

theorem Amounts.nonneg_total (h : o.Amounts a b c) : (0.0 : Binary64) ≤ o.total := by
  have hnonneg {x : Binary64} {q : ℚ} (hx : Denotes x.unpacked q) (hq : 0 ≤ q) :
      (0.0 : Binary64) ≤ x := nonneg_iff.mpr (.inl ⟨q, hx, hq⟩)
  exact nonneg_add (nonneg_add (hnonneg h.denotes_first h.nonneg.1)
    (hnonneg h.negative h.nonneg.2.1)) (hnonneg h.neutral h.nonneg.2.2)

/-- A sum that is a fraction is nearly the exact one, and no less than any of the odds. -/
theorem Amounts.total_near (h : o.Amounts a b c) {t : ℚ} (ht : Denotes o.total.unpacked t) :
    |t - (a + b + c)| ≤ (a + b + c) / 2 ^ 50 ∧ a ≤ t ∧ b ≤ t ∧ c ≤ t := by
  obtain ⟨ha, hb, hc⟩ := h.nonneg
  have hcanonical (x : Binary64) : IsCanonical x.unpacked := x.fits_unpacked.isCanonical
  have htwo := h.denotes_first.add h.negative
  rw [total_eq] at ht
  rcases (0.0 + o.positive + o.negative).denotes_or with ⟨s, hs⟩ | ⟨i, hs⟩ | hs
  · have hfirst := htwo.faithful hs
    have hsecond := (hs.add h.neutral).faithful ht
    -- Each odd is a whole number of units, and so the rounding of a sum is less than its last
    -- place.
    have hra := h.positive.representable (hcanonical _)
    have hrb := h.negative.representable (hcanonical _)
    have hrc := h.neutral.representable (hcanonical _)
    have hrs := hs.representable (hcanonical _)
    obtain ⟨n, hn⟩ := hra.units
    obtain ⟨m, hm⟩ := hrb.units
    obtain ⟨k, hk⟩ := hrc.units
    obtain ⟨l, hl⟩ := hrs.units
    have hs0 := hfirst.nonneg (add_nonneg ha hb)
    have herror := hfirst.error_of_units (add_nonneg ha hb) (n := n + m)
      (by rw [Int.cast_add, add_mul, ← hn, ← hm])
    have herror' := hsecond.error_of_units (add_nonneg hs0 hc) (n := l + k)
      (by rw [Int.cast_add, add_mul, ← hl, ← hk])
    -- Rounding does not cross a double, and the odds are doubles.
    have has : a ≤ s := (hfirst a hra).1 (by linarith)
    have hbs : b ≤ s := (hfirst b hrb).1 (by linarith)
    have hst : s ≤ t := (hsecond s hrs).1 (by linarith)
    have hct : c ≤ t := (hsecond c hrc).1 (by linarith)
    refine ⟨?_, has.trans hst, hbs.trans hst, hct⟩
    rw [abs_le] at herror herror' ⊢
    norm_num at herror herror' ⊢
    constructor <;> linarith
  · rw [h.neutral.infinity_add hs] at ht
    cases ht
  · rw [htwo.isNaN_eq_false] at hs
    cases hs

/-! ## Odds that are divided by their sum -/

/-- A share is rounded by no more than its places, or the least unit. -/
theorem denotes_share {x y : Binary64} {a t : ℚ} (hx : Denotes x.unpacked a)
    (hy : Denotes y.unpacked t) (ha : 0 ≤ a) (ht : 0 < t) (hat : a ≤ t) :
    ∃ r, Denotes (x / y).unpacked r ∧ 0 ≤ r ∧ r ≤ 1 ∧ |r - a / t| ≤ 1 / 2 ^ 50 := by
  have hshare : a / t ≤ 1 := (div_le_one ht).mpr hat
  have hshare0 : 0 ≤ a / t := div_nonneg ha ht.le
  have hround := hx.div hy ht.ne'
  obtain ⟨r, hr, hlow, hhigh⟩ := hround.spans representable_zero representable_one
    (by norm_num) (by norm_num) hshare0 hshare
  refine ⟨r, hr, hlow, hhigh, ?_⟩
  have hfaithful := hround.faithful hr
  rcases hshare0.eq_or_lt with hzero | hpos
  · rw [← hzero] at hfaithful ⊢
    rw [representable_zero.faithful.mp hfaithful, sub_self, abs_zero]
    norm_num
  · rcases hfaithful.error hpos with herror | ⟨-, herror⟩
    · refine herror.trans ?_
      norm_num
      linarith
    · -- A share close to zero is off by half the least unit, which is far less.
      have hunit : (2 : ℚ) ^ (-1074 : Int) ≤ 2 ^ (-50 : Int) :=
        zpow_le_zpow_right₀ one_le_two (by decide)
      refine (herror.trans hunit).trans ?_
      norm_num

/-- Small odds have a sum that is a fraction. -/
theorem Amounts.denotes_total (h : o.Amounts a b c) (ha : a ≤ 1) (hb : b ≤ 1) (hc : c ≤ 1) :
    ∃ t, Denotes o.total.unpacked t := by
  obtain ⟨ha0, hb0, hc0⟩ := h.nonneg
  have hthree : Representable 3 := representable_natCast (n := 3) (by decide)
  obtain ⟨s, hs, hlow, hhigh⟩ := (h.denotes_first.add h.negative).spans representable_zero
    representable_two (by norm_num) (by norm_num) (by linarith) (by linarith)
  obtain ⟨t, ht, -, -⟩ := (hs.add h.neutral).spans representable_zero hthree (by norm_num)
    (by norm_num) (by linarith) (by linarith)
  exact ⟨t, ht⟩

theorem spans_oddsSlack : Spans (1 / 2 ^ 7) 1 oddsSlack := by
  refine ⟨_, denotes_of_isWritten 5764607523034235 (-59) (by decide +kernel) rfl, ?_, ?_⟩ <;>
    norm_num

/-- Odds that a draw can be made with: none is negative, and their sum is close to one. -/
structure Normalized (o : Odds Binary64) : Prop where
  nonneg : ∀ v ∈ o.toList, (0.0 : Binary64) ≤ v
  finite : Scalar.isFinite o.total = true
  close : o.isOff = false

theorem isOff_eq_false_of_near {t : ℚ} (ht : Denotes o.total.unpacked t)
    (hnear : |t - 1| ≤ 1 / 2 ^ 7) : o.isOff = false := by
  obtain ⟨slack, hslack, hlow, -⟩ := spans_oddsSlack
  obtain ⟨r, -, hr, hle⟩ := (ht.sub denotes_one).denotes (representable_one_div (by decide))
    (lt_beyond (by norm_num)) hnear
  unfold isOff
  rw [decide_eq_false_iff_not, hslack.lt_iff hr.abs, not_lt]
  exact hle.trans hlow

theorem mem_scaled {t v : Binary64} : v ∈ (o.scaled t).toList ↔
    v = o.positive / t ∨ v = o.negative / t ∨ v = o.neutral / t := by
  simp [toList, scaled]

theorem Amounts.normalized_scaled (h : o.Amounts a b c) {t : ℚ} (ht : Denotes o.total.unpacked t)
    (hpos : 0 < t) : (o.scaled o.total).Normalized := by
  obtain ⟨hnear, hat, hbt, hct⟩ := h.total_near ht
  obtain ⟨ha, hb, hc⟩ := h.nonneg
  obtain ⟨a', ha', ha0, ha1, haerror⟩ := denotes_share h.positive ht ha hpos hat
  obtain ⟨b', hb', hb0, hb1, hberror⟩ := denotes_share h.negative ht hb hpos hbt
  obtain ⟨c', hc', hc0, hc1, hcerror⟩ := denotes_share h.neutral ht hc hpos hct
  have hscaled : (o.scaled o.total).Amounts a' b' c' := ⟨ha', hb', hc', ha0, hb0, hc0⟩
  obtain ⟨t', ht'⟩ := hscaled.denotes_total ha1 hb1 hc1
  obtain ⟨hnear', -, -, -⟩ := hscaled.total_near ht'
  refine ⟨hscaled.nonneg_of_mem, isFinite_iff.mpr ⟨t', ht'⟩, isOff_eq_false_of_near ht' ?_⟩
  -- The shares add up to nearly one, and so do their roundings.
  have hshares : |a / t + b / t + c / t - 1| ≤ 1 / 2 ^ 49 := by
    have hdiv : a / t + b / t + c / t - 1 = -(t - (a + b + c)) / t := by
      field_simp
      ring
    rw [hdiv, abs_div, abs_neg, abs_of_pos hpos, div_le_iff₀ hpos]
    refine hnear.trans ?_
    rw [abs_le] at hnear
    norm_num at hnear ⊢
    linarith
  rw [abs_le] at haerror hberror hcerror hnear' hshares ⊢
  norm_num at haerror hberror hcerror hnear' hshares ⊢
  constructor <;> linarith

theorem inForce_eq (o : Odds Binary64) (p : Binary64) :
    oddsInForce (some o) p = if o.isOff then o.scaled o.total else o := rfl

theorem Amounts.normalized_inForce (h : o.Amounts a b c) {t : ℚ} (ht : Denotes o.total.unpacked t)
    (hpos : 0 < t) (p : Binary64) : (oddsInForce (some o) p).Normalized := by
  rw [inForce_eq]
  split
  · exact h.normalized_scaled ht hpos
  · rename_i hoff
    exact ⟨h.nonneg_of_mem, isFinite_iff.mpr ⟨t, ht⟩, eq_false_of_ne_true hoff⟩

/-! ## Odds that are too large together -/

/-- Odds of which nothing is left: every draw comes out neutral. -/
structure Vanished (o : Odds Binary64) : Prop where
  zero : ∀ v ∈ o.toList, Denotes v.unpacked 0
  neutral : ∀ roll : Binary64, (0.0 : Binary64) ≤ roll → o.pick roll = 0

theorem pick_of_zero {roll : Binary64} (ha : Denotes o.positive.unpacked 0)
    (hb : Denotes o.negative.unpacked 0) (hroll : (0.0 : Binary64) ≤ roll) : o.pick roll = 0 := by
  have hsum : Denotes (o.positive + o.negative).unpacked 0 := by
    have hround := ha.add hb
    rw [add_zero] at hround
    exact hround.denotes_self representable_zero (abs_zero.trans_lt beyond_pos)
  have hnot {x : Binary64} (hx : Denotes x.unpacked 0) : ¬ roll < x := by
    rw [← le_iff_not_lt hx.isNaN_eq_false (isNaN_eq_false_of_ge hroll)]
    rcases nonneg_iff.mp hroll with ⟨r, hr, hr0⟩ | hinfinite
    · exact (hx.le_iff hr).mpr hr0
    · exact (hx.le_infinity_iff hinfinite).mpr rfl
  unfold pick
  rw [if_neg (hnot ha), if_neg (hnot hsum)]

theorem Amounts.vanished_scaled (h : o.Amounts a b c)
    (htotal : o.total.unpacked = .infinity .positive) : (o.scaled o.total).Vanished := by
  have ha := h.positive.div_infinity htotal
  have hb := h.negative.div_infinity htotal
  have hc := h.neutral.div_infinity htotal
  refine ⟨?_, fun roll hroll => pick_of_zero ha hb hroll⟩
  intro v hv
  rcases mem_scaled.mp hv with rfl | rfl | rfl
  · exact ha
  · exact hb
  · exact hc

theorem isOff_of_infinity (h : o.total.unpacked = .infinity .positive) : o.isOff = true := by
  obtain ⟨slack, hslack, -, -⟩ := spans_oddsSlack
  have habs := abs_infinity (denotes_one.infinity_sub h)
  unfold isOff
  rw [decide_eq_true_iff]
  by_contra hnot
  have hnan : (Scalar.abs (o.total - 1.0)).isNaN = false := by
    rw [← Bool.not_eq_true, isNaN_eq_true_iff, habs]
    nofun
  have hle := le_of_not_lt hslack.isNaN_eq_false hnan hnot
  rw [hslack.infinity_le_iff habs] at hle
  cases hle

theorem Amounts.total_eq_infinity (h : o.Amounts a b c)
    (hinfinite : Scalar.isFinite o.total = false) : o.total.unpacked = .infinity .positive := by
  rcases nonneg_iff.mp h.nonneg_total with ⟨t, ht, -⟩ | htotal
  · rw [isFinite_iff.mpr ⟨t, ht⟩] at hinfinite
    cases hinfinite
  · exact htotal

theorem Amounts.vanished_inForce (h : o.Amounts a b c)
    (hinfinite : Scalar.isFinite o.total = false) (p : Binary64) :
    (oddsInForce (some o) p).Vanished := by
  have htotal := h.total_eq_infinity hinfinite
  rw [inForce_eq, if_pos (isOff_of_infinity htotal)]
  exact h.vanished_scaled htotal

end Odds

/-- Odds that are accepted are normalized, unless their sum is too large for a double. Then nothing
is left of them, and the call comes out neutral whatever is drawn. -/
theorem odds_normalize_unless_their_sum_overflows {o : Odds Binary64}
    (h : (Args.binary (some o)).check .kindaBinary = .ok ()) (p : Binary64) :
    (Scalar.isFinite o.total = true → (oddsInForce (some o) p).Normalized) ∧
      (Scalar.isFinite o.total = false → (oddsInForce (some o) p).Vanished ∧
        ∀ (s : Setting Binary64) (g : Stream),
          (sample .kindaBinary (.binary (some o)) s g).1 = .ternary 0) := by
  obtain ⟨-, hflaw⟩ := Args.check_eq_ok_iff.mp h
  obtain ⟨hwidths, hsum⟩ := Args.flaw?_binary_eq_none_iff.mp hflaw
  obtain ⟨a, b, c, hamounts⟩ := Odds.exists_amounts hwidths
  constructor
  · intro hfinite
    obtain ⟨t, ht⟩ := isFinite_iff.mp hfinite
    rw [ht.le_iff denotes_zero, not_le] at hsum
    exact hamounts.normalized_inForce ht hsum p
  · intro hinfinite
    refine ⟨hamounts.vanished_inForce hinfinite p, fun s g => ?_⟩
    -- Against odds of zero every roll is too high.
    have hroll : (0.0 : Binary64) ≤ (Stream.unit g).1 := by
      obtain ⟨u, hu, hu0, -⟩ := g.spans_unit
      exact nonneg_iff.mpr (.inl ⟨u, hu, hu0⟩)
    show Outcome.ternary ((oddsInForce (some o) s.probability).pick (Stream.unit g).1) = _
    rw [(hamounts.vanished_inForce hinfinite _).neutral _ hroll]

/-- Odds that add up to four, and odds of which two are `1e308`. -/
theorem odds_normalize_unless_their_sum_overflows_twoHuge :
    (let o : Odds Binary64 := ⟨2.0, 1.0, 1.0⟩
     (Args.binary (some o)).check .kindaBinary = .ok () ∧ Scalar.isFinite o.total = true ∧
      (oddsInForce (some o) 0.5).Normalized) ∧
    (let o : Odds Binary64 := ⟨⟨0x7FE1CCF385EBC8A0⟩, ⟨0x7FE1CCF385EBC8A0⟩, 0.0⟩
     (Args.binary (some o)).check .kindaBinary = .ok () ∧ Scalar.isFinite o.total = false ∧
      (oddsInForce (some o) 0.5).Vanished ∧
      ∀ (s : Setting Binary64) (g : Stream),
        (sample .kindaBinary (.binary (some o)) s g).1 = .ternary 0) := by
  have haccepted {o : Odds Binary64} (h : (Args.binary (some o)).flaw?.isNone = true) :
      (Args.binary (some o)).check .kindaBinary = .ok () :=
    Args.check_eq_ok_iff.mpr ⟨rfl, Option.isNone_iff_eq_none.mp h⟩
  have hfour : (Args.binary (some (⟨2.0, 1.0, 1.0⟩ : Odds Binary64))).check .kindaBinary = .ok () :=
    haccepted (by decide +kernel)
  have hhuge : (Args.binary (some (⟨⟨0x7FE1CCF385EBC8A0⟩, ⟨0x7FE1CCF385EBC8A0⟩, 0.0⟩ :
      Odds Binary64))).check .kindaBinary = .ok () := haccepted (by decide +kernel)
  refine ⟨⟨hfour, by decide +kernel, ?_⟩, hhuge, by decide +kernel, ?_⟩
  · exact (odds_normalize_unless_their_sum_overflows hfour 0.5).1 (by decide +kernel)
  · exact (odds_normalize_unless_their_sum_overflows hhuge 0.5).2 (by decide +kernel)

end Fickle

import Fickle.Proofs.Exact
import Fickle.Proofs.Saturation
import Fickle.Rate.Assertion

/-! # What a verdict means

In exact arithmetic a verdict compares counts: the successes with the number of them that is
expected, give or take a multiple of its standard deviation and a half. The interval of a report is
the same comparison, made of rates.
-/

namespace Fickle

/-! ## Counts -/

theorem successes_le (trials : List Trial) : successes trials ≤ trials.length :=
  List.length_filter_le _ _

theorem successes_eq_length_iff (trials : List Trial) :
    successes trials = trials.length ↔ ∀ t ∈ trials, t.outcome = true :=
  List.length_filter_eq_length_iff

theorem successes_eq_zero_iff (trials : List Trial) :
    successes trials = 0 ↔ ∀ t ∈ trials, t.outcome = false := by
  unfold successes
  rw [List.length_eq_zero_iff, List.filter_eq_nil_iff]
  simp

/-! ## The choice of a verdict -/

section

variable {α : Type} [Scalar α] {i : RateInterval α} {n : ℕ} {rate : α}

theorem verdictOf_eq_inconclusive_iff :
    Report.verdictOf i n rate = .inconclusive ↔ n < (minTrials i.expected).toNat := by
  unfold Report.verdictOf
  split
  · exact iff_of_true rfl ‹_›
  · split
    · exact iff_of_false nofun ‹_›
    · exact iff_of_false nofun ‹_›

theorem verdictOf_eq_pass_iff (h : ¬ n < (minTrials i.expected).toNat) :
    Report.verdictOf i n rate = .pass ↔ i.contains rate = true := by
  unfold Report.verdictOf
  rw [if_neg h]
  cases i.contains rate
  · exact iff_of_false nofun nofun
  · exact iff_of_true rfl rfl

theorem verdictOf_eq_fail_iff (h : ¬ n < (minTrials i.expected).toNat) :
    Report.verdictOf i n rate = .fail ↔ i.contains rate ≠ true := by
  unfold Report.verdictOf
  rw [if_neg h]
  cases i.contains rate
  · exact iff_of_true rfl nofun
  · exact iff_of_false nofun (fun hne => hne rfl)

end

namespace Exact

variable {e z : ℝ} {n k : ℕ}

/-- The distance of a number of successes from the expected one that an interval allows. -/
noncomputable def allowance (e z : ℝ) (n : ℕ) : ℝ := z * √(n * e * (1 - e)) + 0.5

theorem allowance_eq (e z : ℝ) (n : ℕ) : allowance e z n = z * √(n * e * (1 - e)) + 1 / 2 := by
  unfold allowance
  norm_num

theorem trialCount_eq (hn : 0 < n) : (RateInterval.trialCount n : ℝ) = n := by
  show ((max n 1 : ℕ) : ℝ) = n
  rw [max_eq_left hn]

theorem standardError_eq (hn : 0 < n) (e : ℝ) :
    RateInterval.standardError e n = √(e * (1 - e) / n) := by
  rw [← trialCount_eq hn, ← one_eq]
  rfl

theorem mul_standardError (hn : 0 < n) (e : ℝ) :
    n * RateInterval.standardError e n = √(n * e * (1 - e)) := by
  have hpos : (0 : ℝ) < n := Nat.cast_pos.mpr hn
  rw [standardError_eq hn]
  calc (n : ℝ) * √(e * (1 - e) / n) = √(n ^ 2) * √(e * (1 - e) / n) := by
        rw [Real.sqrt_sq hpos.le]
    _ = √(n ^ 2 * (e * (1 - e) / n)) := (Real.sqrt_mul (by positivity) _).symm
    _ = √(n * e * (1 - e)) := by
        congr 1
        field_simp

theorem halfWidth_eq (hn : 0 < n) (e z : ℝ) :
    (RateInterval.ofCriticalValue e n z).halfWidth = allowance e z n / n := by
  have hpos : (0 : ℝ) < n := Nat.cast_pos.mpr hn
  show z * RateInterval.standardError e n + 0.5 / RateInterval.trialCount n = _
  rw [allowance_eq, trialCount_eq hn, ← mul_standardError hn]
  field_simp
  ring

theorem contains_ofCriticalValue_iff (hn : 0 < n) (e z : ℝ) (k : ℕ) :
    (RateInterval.ofCriticalValue e n z).contains (k / n) = true ↔
      |k - n * e| ≤ allowance e z n := by
  have hpos : (0 : ℝ) < n := Nat.cast_pos.mpr hn
  have hdistance : |(k : ℝ) - n * e| = |(k : ℝ) / n - e| * n := by
    rw [← abs_of_pos hpos, ← abs_mul, abs_of_pos hpos, sub_mul, div_mul_cancel₀ _ hpos.ne', mul_comm e]
  unfold RateInterval.contains
  rw [decide_eq_true_iff, halfWidth_eq hn, le_div_iff₀ hpos, hdistance]
  rfl

/-- The ends of an interval are cut to rates, which does not matter to rates. -/
theorem contains_iff_between (i : RateInterval ℝ) {rate : ℝ} (h0 : 0 ≤ rate) (h1 : rate ≤ 1) :
    i.contains rate = true ↔ i.lower ≤ rate ∧ rate ≤ i.upper := by
  unfold RateInterval.contains RateInterval.lower RateInterval.upper
  rw [decide_eq_true_iff, larger_eq, smaller_eq, zero_eq, one_eq, max_le_iff, le_min_iff]
  show |rate - i.expected| ≤ i.halfWidth ↔ _
  rw [abs_le]
  constructor
  · rintro ⟨hlow, hhigh⟩
    exact ⟨⟨by linarith, h0⟩, by linarith, h1⟩
  · rintro ⟨⟨hlow, -⟩, hhigh, -⟩
    exact ⟨by linarith, by linarith⟩

/-! ## Enough trials -/

theorem minTrials_of_tail_le (h : min e (1 - e) ≤ 0) : minTrials e = 1 := by
  unfold minTrials
  dsimp only
  rw [smaller_eq, one_eq, zero_eq, if_pos h]

/-- As far as trials are counted, there are enough of them as soon as five successes and five
failures are expected. -/
theorem lt_minTrials_iff (h0 : 0 < e) (h1 : e < 1) (hn : n < UInt64.size - 1) :
    n < (minTrials e).toNat ↔ n * e < 5 ∨ n * (1 - e) < 5 := by
  have htail : 0 < min e (1 - e) := lt_min h0 (by linarith)
  -- The least number is held at the end of the words, which no list of trials reaches.
  have hmin : (minTrials e).toNat = min (UInt64.size - 1) ⌈5 / min e (1 - e)⌉.toNat := by
    have hceil : minTrials e = UInt64.ofNatClamp ⌈5 / min e (1 - e)⌉.toNat := by
      unfold minTrials
      dsimp only
      rw [smaller_eq, one_eq, zero_eq, if_neg (not_le.mpr htail)]
      have hfive : (minExpectedCount : ℝ) = 5 := by
        unfold minExpectedCount
        norm_num
      rw [hfive]
      rfl
    rw [hceil]
    exact toNat_ofNatClamp _
  rw [hmin, lt_min_iff, and_iff_right hn, Int.lt_toNat, Int.lt_ceil, lt_div_iff₀ htail,
    Int.cast_natCast, mul_min_of_nonneg _ _ (Nat.cast_nonneg n), min_lt_iff]

theorem minTrials_pos (e : ℝ) : 0 < (minTrials e).toNat := by
  by_cases h : min e (1 - e) ≤ 0
  · rw [minTrials_of_tail_le h]
    exact Nat.one_pos
  · obtain ⟨h0, h1⟩ := lt_min_iff.mp (not_le.mp h)
    exact (lt_minTrials_iff h0 (by linarith) (by decide)).mpr (.inl (by norm_num))

/-! ## Verdicts -/

variable {trials : List Trial}

theorem length_pos (h : trials ≠ []) : 0 < trials.length := List.length_pos_of_ne_nil h

theorem rate_eq (h : trials ≠ []) :
    (Report.rate trials : ℝ) = successes trials / trials.length := by
  unfold Report.rate
  rw [if_neg (by simpa using h)]
  rfl

theorem contains_rate_iff (h : trials ≠ []) (e z : ℝ) :
    (RateInterval.ofCriticalValue e trials.length z).contains (Report.rate trials) = true ↔
      |successes trials - trials.length * e| ≤ allowance e z trials.length := by
  rw [rate_eq h]
  exact contains_ofCriticalValue_iff (length_pos h) e z _

theorem rate_mem (h : trials ≠ []) :
    0 ≤ (Report.rate trials : ℝ) ∧ (Report.rate trials : ℝ) ≤ 1 := by
  have hpos : (0 : ℝ) < trials.length := Nat.cast_pos.mpr (length_pos h)
  have hle : (successes trials : ℝ) ≤ trials.length := by exact_mod_cast successes_le trials
  rw [rate_eq h, div_le_one hpos]
  exact ⟨by positivity, hle⟩

/-- Where nothing is left to chance only the half is allowed, and counts are whole. -/
theorem allowance_of_sure (h : e = 0 ∨ e = 1) (z : ℝ) (n : ℕ) : allowance e z n = 1 / 2 := by
  rw [allowance_eq]
  rcases h with rfl | rfl <;> simp

theorem abs_sub_le_half_iff (k m : ℕ) : |(k : ℝ) - m| ≤ 1 / 2 ↔ k = m := by
  constructor
  · intro h
    have hlt : |((k - m : ℤ) : ℝ)| < 1 := by
      push_cast
      linarith
    have hzero : (k - m : ℤ) = 0 := Int.abs_lt_one_iff.mp (by exact_mod_cast hlt)
    omega
  · rintro rfl
    norm_num

/-- What a report says about its trials, when `e` is the expected rate and `z` the critical value. -/
structure Tells (trials : List Trial) (e z : ℝ) (r : Report ℝ) : Prop where
  none : trials = [] → r.verdict = .inconclusive
  observed : trials ≠ [] → r.observed = successes trials / trials.length
  few : 0 < e → e < 1 →
    (r.verdict = .inconclusive ↔ trials.length * e < 5 ∨ trials.length * (1 - e) < 5)
  pass : 0 < e → e < 1 → 5 ≤ trials.length * e → 5 ≤ trials.length * (1 - e) →
    (r.verdict = .pass ↔
      |successes trials - trials.length * e| ≤ z * √(trials.length * e * (1 - e)) + 1 / 2)
  fail : 0 < e → e < 1 → 5 ≤ trials.length * e → 5 ≤ trials.length * (1 - e) →
    (r.verdict = .fail ↔
      z * √(trials.length * e * (1 - e)) + 1 / 2 < |successes trials - trials.length * e|)
  /-- The interval that is printed is the one that decides. -/
  interval : trials ≠ [] →
    (|successes trials - trials.length * e| ≤ z * √(trials.length * e * (1 - e)) + 1 / 2 ↔
      r.interval.lower ≤ r.observed ∧ r.observed ≤ r.interval.upper)
  never : e = 0 → trials ≠ [] →
    (r.verdict = .pass ↔ ∀ t ∈ trials, t.outcome = false) ∧
      (r.verdict = .fail ↔ ¬ ∀ t ∈ trials, t.outcome = false)
  always : e = 1 → trials ≠ [] →
    (r.verdict = .pass ↔ ∀ t ∈ trials, t.outcome = true) ∧
      (r.verdict = .fail ↔ ¬ ∀ t ∈ trials, t.outcome = true)

theorem not_lt_minTrials_of_sure (he : e = 0 ∨ e = 1) (h : trials ≠ []) :
    ¬ trials.length < (minTrials e).toNat := by
  have htail : min e (1 - e) ≤ 0 := by rcases he with rfl | rfl <;> norm_num
  have hpos := length_pos h
  rw [minTrials_of_tail_le htail]
  exact not_lt.mpr hpos

/-- With a sure rate it is decided by all trials alike. -/
theorem contains_rate_iff_of_sure (he : e = 0 ∨ e = 1) (h : trials ≠ []) (z : ℝ) {m : ℕ}
    (hm : trials.length * e = m) :
    (RateInterval.ofCriticalValue e trials.length z).contains (Report.rate trials) = true ↔
      successes trials = m := by
  rw [contains_rate_iff h, allowance_of_sure he, hm]
  exact abs_sub_le_half_iff _ m

/-- The verdict compares the successes with the expected number of them as soon as there are enough
trials, and the interval of the report makes the same comparison. A sure rate asks for trials that
all go the same way. No list that fits into memory is too long for it. -/
theorem verdict_tells (trials : List Trial) (hcounted : trials.length < UInt64.size - 1)
    (e z confidence : ℝ) : Tells trials e z (Report.judgeBy z trials e confidence) := by
  set i := RateInterval.ofCriticalValue e trials.length z with hi
  have hexpected : i.expected = e := rfl
  have hverdict : (Report.judgeBy z trials e confidence).verdict =
      Report.verdictOf i trials.length (Report.rate trials) := rfl
  have henough (h0 : 0 < e) (h1 : e < 1) (h5 : 5 ≤ trials.length * e)
      (h5' : 5 ≤ trials.length * (1 - e)) : ¬ trials.length < (minTrials i.expected).toNat := by
    rw [hexpected, lt_minTrials_iff h0 h1 hcounted]
    exact not_or.mpr ⟨not_lt.mpr h5, not_lt.mpr h5'⟩
  have hsome (h5 : 5 ≤ trials.length * e) : trials ≠ [] := by
    rintro rfl
    norm_num at h5
  refine ⟨?_, rate_eq, fun h0 h1 => ?_, fun h0 h1 h5 h5' => ?_, fun h0 h1 h5 h5' => ?_,
    fun h => ?_, fun he h => ?_, fun he h => ?_⟩
  · rintro rfl
    rw [hverdict, verdictOf_eq_inconclusive_iff]
    exact minTrials_pos _
  · rw [hverdict, verdictOf_eq_inconclusive_iff, hexpected]
    exact lt_minTrials_iff h0 h1 hcounted
  · rw [hverdict, verdictOf_eq_pass_iff (henough h0 h1 h5 h5')]
    exact allowance_eq e z _ ▸ contains_rate_iff (hsome h5) e z
  · rw [hverdict, verdictOf_eq_fail_iff (henough h0 h1 h5 h5'), hi, Ne,
      contains_rate_iff (hsome h5) e z, not_le, allowance_eq]
  · obtain ⟨h0, h1⟩ := rate_mem h
    rw [← allowance_eq]
    exact (contains_rate_iff h e z).symm.trans (contains_iff_between i h0 h1)
  · have hm : trials.length * e = (0 : ℕ) := by rw [he, mul_zero, Nat.cast_zero]
    have hcontains := contains_rate_iff_of_sure (.inl he) h z hm
    have hnot := not_lt_minTrials_of_sure (.inl he) h
    rw [successes_eq_zero_iff] at hcontains
    exact ⟨(verdictOf_eq_pass_iff hnot).trans hcontains,
      (verdictOf_eq_fail_iff hnot).trans (not_congr hcontains)⟩
  · have hm : trials.length * e = (trials.length : ℕ) := by rw [he, mul_one]
    have hcontains := contains_rate_iff_of_sure (.inr he) h z hm
    have hnot := not_lt_minTrials_of_sure (.inr he) h
    rw [successes_eq_length_iff] at hcontains
    exact ⟨(verdictOf_eq_pass_iff hnot).trans hcontains,
      (verdictOf_eq_fail_iff hnot).trans (not_congr hcontains)⟩

/-- Seven of ten where five are expected. -/
theorem verdict_tells_sevenOfTen :
    let trials : List Trial := (List.range 10).map fun i => ⟨i, decide (i < 7)⟩
    trials.length < UInt64.size - 1 ∧
      (Report.judgeBy (2 : ℝ) trials (1 / 2) 0.95).verdict = .pass ∧
      (Report.judgeBy (1 / 2 : ℝ) trials (1 / 2) 0.95).verdict = .fail := by
  intro trials
  have hcounted : trials.length < UInt64.size - 1 := by decide
  have hlength : trials.length = 10 := by decide
  have hsuccesses : successes trials = 7 := by decide
  have hroot : √(10 * (1 / 2) * (1 - 1 / 2) : ℝ) = √(5 / 2) := by norm_num
  have hdistance : |(7 : ℝ) - 10 * (1 / 2)| = 2 := by norm_num
  have hlow : (1 : ℝ) ≤ √(5 / 2) := Real.one_le_sqrt.mpr (by norm_num)
  have hhigh : √(5 / 2 : ℝ) < 2 := (Real.sqrt_lt' (by norm_num)).mpr (by norm_num)
  have hpass := (verdict_tells trials hcounted (1 / 2) 2 0.95).pass
  have hfail := (verdict_tells trials hcounted (1 / 2) (1 / 2) 0.95).fail
  rw [hlength, hsuccesses, Nat.cast_ofNat, Nat.cast_ofNat, hroot, hdistance] at hpass hfail
  refine ⟨hcounted, (hpass ?_ ?_ ?_ ?_).mpr (by linarith), (hfail ?_ ?_ ?_ ?_).mpr (by linarith)⟩
  all_goals norm_num

end Exact

end Fickle

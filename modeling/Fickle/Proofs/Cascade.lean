import Mathlib.Data.List.Forall2
import Fickle.Proofs.Profile.Effective

/-! # Bad luck adds up

A history that is worse, entry by entry, never ends at a lower level. The level alone does not carry
this through a history, since the favorable run may be out of step, and bad luck erases it: a level
counts two favorable outcomes, of which the run has already seen some.
-/

namespace Fickle

/-- Favorable before neutral before unfavorable. -/
def Luck.badness : Luck → Nat
  | favorable => 0
  | neutral => 1
  | unfavorable => 2

/-- The second is at least as bad. -/
instance : LE Luck := ⟨fun a b => a.badness ≤ b.badness⟩

instance : DecidableLE Luck := fun a b => inferInstanceAs (Decidable (a.badness ≤ b.badness))

namespace Instability

variable {i j : Instability}

/-! ## One outcome -/

theorem level_record_unfavorable (i : Instability) :
    (i.record .unfavorable).level.toNat = min (i.level.toNat + 1) (UInt32.size - 1) := by
  show (UInt32.ofNatClamp (i.level.toNat + 1)).toNat = _
  rcases Nat.lt_or_ge (i.level.toNat + 1) UInt32.size with hlt | hge
  · rw [UInt32.toNat_ofNatClamp_of_lt hlt]
    exact (Nat.min_eq_left (Nat.le_of_lt_succ hlt)).symm
  · rw [UInt32.toNat_ofNatClamp_of_le hge]
    exact (Nat.min_eq_right ((Nat.sub_le _ _).trans hge)).symm

theorem run_record_unfavorable (i : Instability) : (i.record .unfavorable).run = 0 := rfl

theorem record_favorable (h : i.run < decayRun) :
    (i.run = 0 ∧ (i.record .favorable).level = i.level ∧ (i.record .favorable).run = 1) ∨
      (i.run = 1 ∧ (i.record .favorable).level.toNat = i.level.toNat - 1 ∧
        (i.record .favorable).run = 0) := by
  unfold decayRun at h
  rcases hrun : i.run with _ | _ | n
  · refine .inl ⟨rfl, ?_, ?_⟩ <;> simp [record, decayRun, hrun]
  · have hlt : i.level.toNat - 1 < UInt32.size := (Nat.sub_le _ _).trans_lt i.level.toNat_lt
    refine .inr ⟨rfl, ?_, ?_⟩
    · simpa [record, decayRun, hrun] using hlt
    · simp [record, decayRun, hrun]
  · omega

theorem record_neutral (i : Instability) : i.record .neutral = i := rfl

theorem run_record_lt (h : i.run < decayRun) (l : Luck) : (i.record l).run < decayRun := by
  cases l with
  | favorable =>
    rcases record_favorable h with ⟨-, -, hrun⟩ | ⟨-, -, hrun⟩ <;> rw [hrun] <;> decide
  | unfavorable => exact Nat.two_pos
  | neutral => exact h

theorem run_recordAll_lt (h : i.run < decayRun) (history : List Luck) :
    (i.recordAll history).run < decayRun := by
  induction history generalizing i with
  | nil => exact h
  | cons l history ih => exact ih (run_record_lt h l)

/-! ## Two histories -/

/-- The first is no worse off: it is calm, or what it still has to shed, counted in favorable
outcomes, is no more. -/
def NoWorse (i j : Instability) : Prop :=
  i.level.toNat = 0 ∨ 2 * i.level.toNat + j.run ≤ 2 * j.level.toNat + i.run

theorem NoWorse.refl (i : Instability) : i.NoWorse i := .inr le_rfl

/-- The run is too short to make up for a point. -/
theorem NoWorse.level_le (h : i.NoWorse j) (hi : i.run < decayRun) : i.level ≤ j.level := by
  rw [UInt32.le_iff_toNat_le]
  unfold decayRun at hi
  unfold NoWorse at h
  omega

/-- Luck that is no better leaves it no better off. -/
theorem NoWorse.record (h : i.NoWorse j) (hi : i.run < decayRun) (hj : j.run < decayRun)
    {l l' : Luck} (hle : l ≤ l') : (i.record l).NoWorse (j.record l') := by
  have hlevel := UInt32.le_iff_toNat_le.mp (h.level_le hi)
  have hmax : j.level.toNat < UInt32.size := j.level.toNat_lt
  unfold NoWorse at h ⊢
  cases l with
  | favorable =>
    cases l' with
    | favorable =>
      -- A point that is not there cannot be shed; where the second lacks it, so does the first.
      rcases record_favorable hi with ⟨hrun, hl, hr⟩ | ⟨hrun, hl, hr⟩ <;>
        rcases record_favorable hj with ⟨hrun', hl', hr'⟩ | ⟨hrun', hl', hr'⟩ <;>
        rw [hl, hl', hr, hr'] <;> omega
    | neutral =>
      rw [record_neutral]
      rcases record_favorable hi with ⟨hrun, hl, hr⟩ | ⟨hrun, hl, hr⟩ <;> rw [hl, hr] <;> omega
    | unfavorable =>
      rw [level_record_unfavorable, run_record_unfavorable]
      rcases record_favorable hi with ⟨hrun, hl, hr⟩ | ⟨hrun, hl, hr⟩ <;> rw [hl, hr] <;> omega
  | neutral =>
    rw [record_neutral]
    cases l' with
    | favorable => exact absurd hle (by decide)
    | neutral => exact h
    | unfavorable =>
      rw [level_record_unfavorable, run_record_unfavorable]
      omega
  | unfavorable =>
    cases l' with
    | favorable => exact absurd hle (by decide)
    | neutral => exact absurd hle (by decide)
    | unfavorable =>
      simp only [level_record_unfavorable, run_record_unfavorable]
      omega

theorem NoWorse.recordAll (h : i.NoWorse j) (hi : i.run < decayRun) (hj : j.run < decayRun)
    {good bad : List Luck} (hworse : List.Forall₂ (· ≤ ·) good bad) :
    (i.recordAll good).NoWorse (j.recordAll bad) := by
  induction hworse generalizing i j with
  | nil => exact h
  | cons hle _ ih => exact ih (h.record hi hj hle) (run_record_lt hi _) (run_record_lt hj _)

theorem level_recordAll_le (hi : i.run < decayRun) {good bad : List Luck}
    (hworse : List.Forall₂ (· ≤ ·) good bad) :
    (i.recordAll good).level ≤ (i.recordAll bad).level :=
  ((NoWorse.refl i).recordAll hi hi hworse).level_le (run_recordAll_lt hi good)

/-! ## Luck of one kind -/

theorem recordAll_filter_neutral (i : Instability) (history : List Luck) :
    i.recordAll (history.filter (· ≠ .neutral)) = i.recordAll history := by
  induction history generalizing i with
  | nil => rfl
  | cons l history ih =>
    cases l with
    | neutral => exact ih i
    | favorable => exact ih (i.record .favorable)
    | unfavorable => exact ih (i.record .unfavorable)

theorem level_favorable_of_calm (hi : i.run < decayRun) (hcalm : i.level = 0) (n : Nat) :
    (i.recordAll (List.replicate n .favorable)).level = 0 := by
  induction n generalizing i with
  | zero => exact hcalm
  | succ n ih =>
    refine ih (run_record_lt hi _) ?_
    rcases record_favorable hi with ⟨-, hlevel, -⟩ | ⟨-, hlevel, -⟩
    · rw [hlevel, hcalm]
    · rw [← UInt32.toNat_inj, hlevel, hcalm]
      rfl

theorem level_unfavorable_pos (n : Nat) :
    (i.recordAll (List.replicate (n + 1) .unfavorable)).level ≠ 0 := by
  have hstep (i : Instability) : (i.record .unfavorable).level ≠ 0 := by
    have hsize : 1 < UInt32.size := by decide
    rw [← UInt32.toNat_inj.ne, level_record_unfavorable]
    show min _ _ ≠ 0
    omega
  induction n generalizing i with
  | zero => exact hstep i
  | succ n ih => exact ih

/-- The worse history ends at a level at least as high, and with effective probabilities at most as
high. From a calm start, nothing but bad luck is strictly worse than nothing but good luck, as long
as the profile minds. Neutral outcomes do not count, and the run stays short. -/
theorem bad_luck_adds_up (hi : i.run < decayRun) :
    (∀ good bad, List.Forall₂ (· ≤ ·) good bad →
      (i.recordAll good).level ≤ (i.recordAll bad).level ∧
        ∀ (p : Profile ℝ), p.flaw? = none → ∀ c chaos,
          p.effective c chaos (i.recordAll bad) ≤ p.effective c chaos (i.recordAll good)) ∧
    (∀ (p : Profile ℝ), p.flaw? = none → 0 < p.volatility → ∀ c chaos n, 1 ≤ n →
      p.effective c chaos (calm.recordAll (List.replicate n .unfavorable)) <
        p.effective c chaos (calm.recordAll (List.replicate n .favorable))) ∧
    ∀ history, i.recordAll (history.filter (· ≠ .neutral)) = i.recordAll history ∧
      (i.recordAll history).run < decayRun := by
  refine ⟨fun good bad hworse => ?_, fun p hp hv c chaos n hn => ?_, fun history => ?_⟩
  · have hlevel := level_recordAll_le hi hworse
    exact ⟨hlevel, fun p hp c chaos => Profile.effective_antitone hp hlevel c chaos⟩
  · obtain ⟨n, rfl⟩ := Nat.exists_eq_add_of_le' hn
    have hcalm := level_favorable_of_calm (i := calm) (by decide) rfl (n + 1)
    rw [Profile.effective_of_level_eq_zero hp hcalm]
    exact Profile.effective_lt_of_level_pos hp hv (level_unfavorable_pos n) c chaos
  · exact ⟨recordAll_filter_neutral i history, run_recordAll_lt hi history⟩

/-- A worse history, at the end of which the favorable runs are out of step. -/
theorem bad_luck_adds_up_outOfStep :
    (⟨3, 0⟩ : Instability).run < decayRun ∧
    List.Forall₂ (· ≤ ·) [Luck.favorable, .favorable] [.unfavorable, .favorable] ∧
    (Personality.chaotic.profile : Profile ℝ).flaw? = none ∧
    0 < (Personality.chaotic.profile : Profile ℝ).volatility ∧
    (⟨3, 0⟩ : Instability).recordAll [.favorable, .favorable] = ⟨2, 0⟩ ∧
    (⟨3, 0⟩ : Instability).recordAll [.unfavorable, .favorable] = ⟨4, 1⟩ ∧
    Personality.chaotic.profile.effective .maybe .greatest ⟨4, 1⟩ ≤
      (Personality.chaotic.profile.effective .maybe .greatest ⟨2, 0⟩ : ℝ) ∧
    Personality.chaotic.profile.effective .maybe .least (calm.recordAll [.unfavorable]) <
      (Personality.chaotic.profile.effective .maybe .least (calm.recordAll [.favorable]) : ℝ) := by
  have hrun : (⟨3, 0⟩ : Instability).run < decayRun := by decide
  have hworse : List.Forall₂ (· ≤ ·) [Luck.favorable, .favorable] [.unfavorable, .favorable] := by
    decide
  have hprofile := Personality.chaotic.flaw?_profile
  have hvolatility : 0 < (Personality.chaotic.profile : Profile ℝ).volatility := by
    norm_num [Personality.profile]
  obtain ⟨hhistories, hstrict, -⟩ := bad_luck_adds_up hrun
  exact ⟨hrun, hworse, hprofile, hvolatility, by decide, by decide,
    (hhistories _ _ hworse).2 _ hprofile .maybe .greatest,
    hstrict _ hprofile hvolatility .maybe .least 1 le_rfl⟩

end Instability

end Fickle

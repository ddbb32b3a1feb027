import Fickle.Proofs.Tape
import Fickle.Proofs.Profile.Effective
import Fickle.Proofs.Sampling

/-! # A nominal draw is lucky

A draw below the probability is a nominal one. In exact arithmetic its outcome is what reliable
behaviour allows, so that it never counts against the session.
-/

namespace Fickle

/-! ## Drawing on -/

section

variable {α γ : Type} [Draws γ α]

/-- The places that drawing leads to from `g`. -/
inductive Draws.Leads (g : γ) : γ → Prop where
  | refl : Leads g g
  | unit {g' : γ} (h : Leads g g') : Leads g (Draws.unit g').2
  | upTo {g' : γ} (h : Leads g g') (bound : Int64) : Leads g (Draws.upTo bound g').2
  | coin {g' : γ} (h : Leads g g') : Leads g (Draws.coin g').2

/-- Every number that is drawn from `g` on lies in `[0, 1)`. -/
def Draws.Proper [Scalar α] (g : γ) : Prop :=
  ∀ g', Draws.Leads g g' → 0.0 ≤ (Draws.unit g').1 ∧ (Draws.unit g').1 < 1.0

end

theorem Tape.proper_of_forall {t : Tape} (h : ∀ n, 0 ≤ t n ∧ t n < 1) : Draws.Proper t := by
  intro t' hleads
  have hall : ∀ n, 0 ≤ t' n ∧ t' n < 1 := by
    induction hleads with
    | refl => exact h
    | unit _ ih => exact fun n => ih (n + 1)
    | upTo _ _ ih => exact fun n => ih (n + 1)
    | coin _ ih => exact fun n => ih (n + 1)
  rw [Exact.zero_eq, Exact.one_eq]
  exact hall 0

/-! ## Bands of noise -/

namespace Exact

theorem abs_moved_sub_le {v share width : ℝ} (hshare : |share| ≤ 1) (hwidth : 0 ≤ width) :
    |v + share * width - v| ≤ width := by
  rw [add_sub_cancel_left, abs_mul, abs_of_nonneg hwidth]
  exact mul_le_of_le_one_left hwidth hshare

theorem magnitude_nonneg (v : ℝ) : 0 ≤ magnitude v := by
  show 0 ≤ if |v| < 1.0 then 1.0 else if |v| ≤ |v| then |v| else 1.0
  rw [if_pos le_rfl, one_eq]
  split
  · exact zero_le_one
  · exact abs_nonneg v

theorem reliableNoise_nonneg : 0 ≤ (reliableNoise : ℝ) := by
  unfold reliableNoise
  norm_num [Personality.profile]

end Exact

theorem Draws.Proper.abs_offset_le {γ : Type} [Draws γ ℝ] {g : γ} (hg : Draws.Proper g) :
    |(Draws.offset (Draws.unit g).2).1| ≤ 1 := by
  have hnext := hg _ (.unit .refl)
  rw [Exact.zero_eq, Exact.one_eq] at hnext
  show |(Draws.unit (Draws.unit g).2).1 * 2.0 - 1.0| ≤ 1
  rw [Exact.two_eq, Exact.one_eq, abs_le]
  constructor <;> linarith

theorem Profile.ishVariance_nonneg {p : Profile ℝ} (h : p.flaw? = none) : 0 ≤ p.ishVariance := by
  obtain ⟨-, -, -, hwidths, -⟩ := flaw?_eq_none_iff.mp h
  exact Exact.isWidth_iff.mp (hwidths ("ish_variance", p.ishVariance) (by simp [widths]))

theorem Args.variance_nonneg {c : Construct} {v : ℝ} {variance : Option ℝ}
    (h : (Args.ishValue v variance).check c = .ok ()) {p : Profile ℝ} (hp : p.flaw? = none) :
    0 ≤ variance.getD p.ishVariance := by
  cases variance with
  | none => exact p.ishVariance_nonneg hp
  | some w =>
    by_contra hneg
    have hwidth : Scalar.isWidth w = false :=
      eq_false_of_ne_true fun hw => hneg (Exact.isWidth_iff.mp hw)
    have hflaw : (Args.ishValue v (some w)).flaw? = some .varianceNegative := by
      unfold flaw?
      dsimp only
      rw [hwidth]
      rfl
    unfold check at h
    rw [hflaw] at h
    split at h <;> cases h

/-! ## What the first draw decides -/

/-- What a nominal outcome counts for. A false condition has nothing to hope for. -/
def Construct.nominalLuck {α : Type} (c : Construct) (args : Args α) : Luck :=
  match c.behaviour, args with
  | .conditional, .condition false => .neutral
  | _, _ => .favorable

/-- The call asks for a truth value that only the first draw decides. -/
def Construct.PurelyBoolean {α : Type} (c : Construct) (args : Args α) : Prop :=
  match c.behaviour with
  | .conditional => args = .condition true
  | .gate => args = .unit
  | .flip => True
  | _ => False

/-- The construct draws its outcome around one nominal value. -/
def Construct.HasNominal (c : Construct) : Prop :=
  c ≠ .ishComparison ∧ c ≠ .kindaBinary ∧ c ≠ .timeDrift

theorem Construct.HasNominal.behaviour {c : Construct} (h : c.HasNominal) :
    c.behaviour ≠ .closeness ∧ c.behaviour ≠ .choice ∧ c.behaviour ≠ .drift := by
  obtain ⟨hish, hbinary, hdrift⟩ := h
  cases c <;> first | contradiction | exact ⟨nofun, nofun, nofun⟩

variable {γ : Type} [Draws γ ℝ] {c : Construct} {args : Args ℝ} {s : Setting ℝ} {g : γ}

theorem luck_sample_of_lt (hc : c.HasNominal) (hargs : args.check c = .ok ())
    (hprofile : s.profile.flaw? = none) (hg : Draws.Proper g)
    (hu : (Draws.unit g).1 < s.probability) :
    luck c args (sample c args s g).1 s.profile = c.nominalLuck args := by
  have hvariance : ∀ v variance, args = .ishValue v variance →
      0 ≤ variance.getD s.profile.ishVariance := by
    rintro v variance rfl
    exact Args.variance_nonneg hargs hprofile
  -- A nominal draw gives the nominal value, or one within the noise of reliable behaviour.
  have hfit := Args.fit_of_check hargs
  have hbehaviour := hc.behaviour
  have hoffset := hg.abs_offset_le
  unfold luck sample Construct.nominalLuck
  generalize c.behaviour = behaviour at hfit hbehaviour
  cases hfit with
  | conditional b =>
    dsimp only
    cases b
    · rfl
    · rw [decide_eq_true hu]
      rfl
  | gate =>
    dsimp only
    rw [decide_eq_true hu]
    rfl
  | flip b =>
    dsimp only
    rw [if_pos hu, beq_self_eq_true]
    rfl
  | integer _ | count _ =>
    dsimp only
    rw [if_pos hu]
    dsimp only
    rw [beq_self_eq_true]
    rfl
  | float v =>
    dsimp only
    have hclose := Exact.abs_moved_sub_le (v := v) hoffset
      (mul_nonneg Exact.reliableNoise_nonneg (Exact.magnitude_nonneg v))
    rw [if_pos hu, mul_assoc]
    exact congrArg Luck.ofBool (decide_eq_true hclose)
  | spread v variance =>
    dsimp only
    have hclose := Exact.abs_moved_sub_le (v := v) hoffset (hvariance v variance rfl)
    rw [if_pos hu]
    exact congrArg Luck.ofBool (decide_eq_true hclose)
  | closeness _ _ _ => exact absurd rfl hbehaviour.1
  | choice _ => exact absurd rfl hbehaviour.2.1
  | drift _ => exact absurd rfl hbehaviour.2.2

theorem luck_sample_of_le (hc : c.PurelyBoolean args) (hargs : args.check c = .ok ())
    (hu : s.probability ≤ (Draws.unit g).1) :
    luck c args (sample c args s g).1 s.profile = .unfavorable := by
  have hfit := Args.fit_of_check hargs
  have hmiss := not_lt.mpr hu
  unfold Construct.PurelyBoolean at hc
  unfold luck sample
  generalize c.behaviour = behaviour at hfit hc
  cases hfit with
  | conditional b =>
    cases hc
    dsimp only
    rw [decide_eq_false hmiss]
    rfl
  | gate =>
    dsimp only
    rw [decide_eq_false hmiss]
    rfl
  | flip b =>
    dsimp only
    rw [if_neg hmiss]
    cases b
    · rfl
    · rfl
  | integer _ | float _ | spread _ _ | closeness _ _ _ | count _ | drift _ | choice _ => cases hc

theorem Construct.nominalLuck_ne_unfavorable {α : Type} (c : Construct) (args : Args α) :
    c.nominalLuck args ≠ .unfavorable := by
  unfold nominalLuck
  split <;> nofun

/-- Sampling and luck agree on the nominal draw, whatever is drawn after it: it is never
unfavorable, and it is favorable where there is something to hope for. Where the first draw decides
all, one that is not nominal is unfavorable. -/
theorem luck_follows_first_draw (hc : c.HasNominal) (hargs : args.check c = .ok ())
    (hprofile : s.profile.flaw? = none) (hg : Draws.Proper g) :
    ((Draws.unit g).1 < s.probability →
      luck c args (sample c args s g).1 s.profile ≠ .unfavorable ∧
        luck c args (sample c args s g).1 s.profile = c.nominalLuck args) ∧
    (c.PurelyBoolean args → s.probability ≤ (Draws.unit g).1 →
      luck c args (sample c args s g).1 s.profile = .unfavorable) := by
  refine ⟨fun hu => ?_, fun hbool hu => luck_sample_of_le hbool hargs hu⟩
  have hluck := luck_sample_of_lt hc hargs hprofile hg hu
  exact ⟨hluck ▸ c.nominalLuck_ne_unfavorable args, hluck⟩

/-- A number near five, for the chaotic personality at full chaos, and a gate, on draws of one
half. -/
theorem luck_follows_first_draw_half :
    Construct.ishValue.HasNominal ∧ Construct.sortaPrint.HasNominal ∧
      (Args.ishValue (5.0 : ℝ) none).check .ishValue = .ok () ∧
      (Args.unit : Args ℝ).check .sortaPrint = .ok () ∧
      (Personality.chaotic.profile : Profile ℝ).flaw? = none ∧
      Draws.Proper (fun _ => 1 / 2 : Tape) ∧
      (let s : Setting ℝ := ⟨1, Personality.chaotic.profile, .greatest, .standard⟩
       luck .ishValue (.ishValue 5.0 none)
        (sample .ishValue (.ishValue 5.0 none) s (fun _ => 1 / 2 : Tape)).1 s.profile =
          .favorable) ∧
      (let s : Setting ℝ := ⟨0, Personality.chaotic.profile, .greatest, .standard⟩
       luck .sortaPrint .unit (sample .sortaPrint .unit s (fun _ => 1 / 2 : Tape)).1 s.profile =
          .unfavorable) := by
  have hnear : Construct.ishValue.HasNominal := ⟨nofun, nofun, nofun⟩
  have hgate : Construct.sortaPrint.HasNominal := ⟨nofun, nofun, nofun⟩
  have hprofile := Personality.chaotic.flaw?_profile
  have htape : Draws.Proper (fun _ => 1 / 2 : Tape) :=
    Tape.proper_of_forall fun _ => by constructor <;> norm_num
  have hhit : (Draws.unit (fun _ => 1 / 2 : Tape)).1 < 1 := by
    show (1 / 2 : ℝ) < 1
    norm_num
  have hmiss : 0 ≤ (Draws.unit (fun _ => 1 / 2 : Tape)).1 := by
    show (0 : ℝ) ≤ 1 / 2
    norm_num
  exact ⟨hnear, hgate, rfl, rfl, hprofile, htape,
    ((luck_follows_first_draw (s := ⟨1, Personality.chaotic.profile, .greatest, .standard⟩) hnear
      rfl hprofile htape).1 hhit).2,
    (luck_follows_first_draw (s := ⟨0, Personality.chaotic.profile, .greatest, .standard⟩) hgate
      rfl hprofile htape).2 rfl hmiss⟩

end Fickle

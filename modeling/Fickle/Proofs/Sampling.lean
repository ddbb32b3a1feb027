import Fickle.Args.Check
import Fickle.Sampling.Luck

/-! # What a construct yields

A call with good arguments yields an outcome of the form that belongs to its construct. What an
outcome counts for depends on the call only through what a replay knows too.
-/

namespace Fickle

variable {α : Type}

/-- The outcome has the form that belongs to the construct. -/
def Construct.Yields (c : Construct) (o : Outcome α) : Prop :=
  match c.behaviour with
  | .conditional | .gate | .flip | .closeness => ∃ b, o = .bool b
  | .integer => ∃ v, o = .int v
  | .float | .spread | .drift => ∃ v, o = .float v
  | .count => ∃ n, o = .count n
  | .choice => ∃ v, o = .ternary v ∧ -1 ≤ v ∧ v ≤ 1

theorem Construct.Yields.ternary {c : Construct} {o : Outcome α} (h : c.Yields o) (v : Int8)
    (hv : o = .ternary v) : -1 ≤ v ∧ v ≤ 1 := by
  subst hv
  unfold Construct.Yields at h
  split at h
  case h_10 =>
    obtain ⟨v', hv', hrange⟩ := h
    cases hv'
    exact hrange
  all_goals
    obtain ⟨x, hx⟩ := h
    cases hx

variable [Scalar α]

theorem Args.shape_of_check {c : Construct} {args : Args α} (h : args.check c = .ok ()) :
    args.shape = c.behaviour.shape := by
  unfold check at h
  split at h
  · cases h
  · rename_i hshape
    exact Decidable.not_not.mp hshape

/-- The arguments have the form that the behaviour asks for. -/
inductive Args.Fit : Behaviour → Args α → Prop where
  | conditional (b : Bool) : Fit .conditional (.condition b)
  | gate : Fit .gate .unit
  | flip (b : Bool) : Fit .flip (.condition b)
  | integer (v : Int64) : Fit .integer (.int v)
  | float (v : α) : Fit .float (.float v)
  | spread (v : α) (variance : Option α) : Fit .spread (.ishValue v variance)
  | closeness (left right : α) (tolerance : Option α) :
    Fit .closeness (.compare left right tolerance)
  | count (n : UInt64) : Fit .count (.count n)
  | drift (s : DriftSample α) : Fit .drift (.drift s)
  | choice (odds : Option (Odds α)) : Fit .choice (.binary odds)

theorem Args.fit_of_check {c : Construct} {args : Args α} (h : args.check c = .ok ()) :
    args.Fit c.behaviour := by
  have hshape := shape_of_check h
  cases hb : c.behaviour <;> rw [hb] at hshape <;> cases args <;> cases hshape <;> constructor

/-! ## Draws -/

section

variable {γ : Type} [Draws γ α]

/-- How a call with arguments that belong to it is drawn: its outcome, and the source after it. -/
inductive Drawn (s : Setting α) (g : γ) : Behaviour → Args α → Outcome α × γ → Prop where
  | conditional (b : Bool) : Drawn s g .conditional (.condition b)
    (.bool (b && decide ((Draws.unit g).1 < s.probability)), (Draws.unit g).2)
  | gate : Drawn s g .gate .unit
    (.bool (decide ((Draws.unit g).1 < s.probability)), (Draws.unit g).2)
  | flip (b : Bool) : Drawn s g .flip (.condition b)
    (.bool (if (Draws.unit g).1 < s.probability then b else !b), (Draws.unit g).2)
  | integer (v : Int64) (h : (Draws.unit g).1 < s.probability) :
    Drawn s g .integer (.int v) (.int v, (Draws.unit g).2)
  | fuzzyInteger (v : Int64) (h : ¬ (Draws.unit g).1 < s.probability) {d : Int64} {g' : γ}
    (hd : Draws.nonzero (intRadius s.profile s.chaos) (Draws.unit g).2 = (d, g')) :
    Drawn s g .integer (.int v) (.int (Int64.ofIntClamp (v.toInt + d.toInt)), g')
  | float (v : α) {d : α} {g' : γ} (hd : Draws.offset (Draws.unit g).2 = (d, g')) :
    Drawn s g .float (.float v)
      (.float (v + d * (if (Draws.unit g).1 < s.probability then reliableNoise
        else s.profile.floatNoise * s.chaos.scale) * magnitude v), g')
  | spread (v : α) (variance : Option α) {d : α} {g' : γ}
    (hd : Draws.offset (Draws.unit g).2 = (d, g')) :
    Drawn s g .spread (.ishValue v variance)
      (.float (v + d * (if (Draws.unit g).1 < s.probability
        then variance.getD s.profile.ishVariance
        else 2.0 * variance.getD s.profile.ishVariance * s.chaos.scale)), g')
  | closeness (left right : α) (tolerance : Option α) :
    Drawn s g .closeness (.compare left right tolerance)
      (.bool (decide ((Draws.unit g).1 < ishProbability (Scalar.abs (left - right))
        (tolerance.getD s.profile.defaultTolerance) s.probability)), (Draws.unit g).2)
  | count (n : UInt64) (h : (Draws.unit g).1 < s.probability) :
    Drawn s g .count (.count n) (.count n, (Draws.unit g).2)
  | fuzzyCount (n : UInt64) (h : ¬ (Draws.unit g).1 < s.probability) {d : Int64} {g' : γ}
    (hd : Draws.nonzero (repeatSpread n s.profile s.chaos) (Draws.unit g).2 = (d, g')) :
    Drawn s g .count (.count n) (.count (UInt64.ofNatClamp (n.toNat + d.toInt).toNat), g')
  | drift (sample : DriftSample α) : Drawn s g .drift (.drift sample)
    (.float (s.drift.value (driftStrength s.profile s.chaos) sample), g)
  | choice (odds : Option (Odds α)) : Drawn s g .choice (.binary odds)
    (.ternary ((oddsInForce odds s.probability).pick (Draws.unit g).1), (Draws.unit g).2)

/-- Good arguments never come to the arm for arguments that do not belong to their construct. -/
theorem drawn_of_check {c : Construct} {args : Args α} (h : args.check c = .ok ())
    (s : Setting α) (g : γ) : Drawn s g c.behaviour args (sample c args s g) := by
  have hfit := Args.fit_of_check h
  unfold sample
  generalize c.behaviour = behaviour at hfit
  cases hfit with
  | integer v =>
    dsimp only
    split
    · exact .integer v (by assumption)
    · exact .fuzzyInteger v (by assumption) rfl
  | count n =>
    dsimp only
    split
    · exact .count n (by assumption)
    · exact .fuzzyCount n (by assumption) rfl
  | conditional b => exact .conditional b
  | gate => exact .gate
  | flip b => exact .flip b
  | float v => exact .float v rfl
  | spread v variance => exact .spread v variance rfl
  | closeness left right tolerance => exact .closeness left right tolerance
  | drift sample => exact .drift sample
  | choice odds => exact .choice odds

end

theorem Odds.pick_mem (o : Odds α) (roll : α) : -1 ≤ o.pick roll ∧ o.pick roll ≤ 1 := by
  unfold pick
  split
  · decide
  · split
    · decide
    · decide

theorem yields_sample {γ : Type} [Draws γ α] {c : Construct} {args : Args α}
    (h : args.check c = .ok ()) (s : Setting α) (g : γ) : c.Yields (sample c args s g).1 := by
  have hdrawn := drawn_of_check h s g
  unfold Construct.Yields
  generalize c.behaviour = behaviour at hdrawn
  generalize sample c args s g = drawn at hdrawn
  cases hdrawn with
  | choice _ => exact ⟨_, rfl, Odds.pick_mem _ _⟩
  | _ => exact ⟨_, rfl⟩

/-! ## Calls that a replay cannot tell apart -/

/-- Two calls pass the same, except for the times in what a drifting variable knows. -/
inductive Args.Alike : Args α → Args α → Prop where
  | refl (args : Args α) : Alike args args
  | drift {s s' : DriftSample α} (h : s.nominal = s'.nominal) : Alike (.drift s) (.drift s')

theorem Args.Alike.check {args args' : Args α} (h : args.Alike args') (c : Construct) :
    args.check c = args'.check c := by
  cases h with
  | refl => rfl
  | @drift s s' h =>
    have hflaw : (Args.drift s).flaw? = (Args.drift s').flaw? := by
      show (if _ then _ else _) = if _ then _ else _
      rw [h]
    unfold Args.check
    rw [hflaw]
    rfl

theorem Args.Alike.luck {args args' : Args α} (h : args.Alike args') (c : Construct)
    (o : Outcome α) (profile : Profile α) : luck c args o profile = luck c args' o profile := by
  cases h with
  | refl => rfl
  | drift h =>
    unfold Fickle.luck
    cases c.behaviour <;> cases o <;> rfl

end Fickle

import Fickle.Proofs.Tape
import Fickle.Proofs.Profile.Effective
import Fickle.Proofs.Composition.Distribution
import Fickle.Proofs.Composition.Course

/-! # Predictions are exact

Without volatility every call has the probability that it has at the beginning, whatever was
answered before it. So in exact arithmetic, and with random draws, the probability that is predicted
for a composition is the one with which it holds.
-/

namespace Fickle

open MeasureTheory

/-! ## The probability of a call -/

namespace Exact

theorem mean_mem {p share : ℝ} (hp : p ∈ Set.Icc 0 1) (hshare : share ∈ Set.Icc 0 1) :
    p + (1 - 2 * p) * share ∈ Set.Icc 0 1 := by
  have hq := sub_nonneg.mpr hp.2
  have hrest := sub_nonneg.mpr hshare.2
  have hmean : p + (1 - 2 * p) * share = (1 - share) * p + share * (1 - p) := by ring
  have hother : 1 - (p + (1 - 2 * p) * share) = (1 - share) * (1 - p) + share * p := by ring
  constructor
  · rw [hmean]
    exact add_nonneg (mul_nonneg hrest hp.1) (mul_nonneg hshare.1 hq)
  · rw [← sub_nonneg, hother]
    exact add_nonneg (mul_nonneg hrest hq) (mul_nonneg hshare.1 hp.1)

theorem ishProbability_mem (difference tolerance : ℝ) {p : ℝ} (hp : p ∈ Set.Icc 0 1) :
    ishProbability difference tolerance p ∈ Set.Icc 0 1 := by
  have hq : 1 - p ∈ Set.Icc 0 1 := ⟨sub_nonneg.mpr hp.2, sub_le_self 1 hp.1⟩
  unfold ishProbability
  simp only [zero_eq, one_eq, two_eq]
  split
  · split
    · exact hp
    · exact hq
  split
  · exact hp
  split
  · exact hq
  · -- The draw falls into the boundary band.
    apply mean_mem hp
    constructor
    · exact div_nonneg (by linarith) (by linarith)
    · exact div_le_one_of_le₀ (by linarith) (by linarith)

end Exact

theorem Construct.behaviour_eq_flip_iff (c : Construct) :
    c.behaviour = .flip ↔ c = .fuzzyBool := by
  cases c <;> decide

/-- The numbers on which a call is answered with yes. -/
def Leaf.yes (l : Leaf ℝ) (s : Setting ℝ) : Set ℝ := {u | l.answer s u = true}

/-- The set of numbers can be measured, and that is its measure. -/
def Measures (A : Set ℝ) (p : ℝ) : Prop := MeasurableSet A ∧ uniform.real A = p

theorem measures_below {p : ℝ} (hp : p ∈ Set.Icc 0 1) :
    Measures {u : ℝ | decide (u < p) = true} p := by
  have hset : {u : ℝ | decide (u < p) = true} = Set.Iio p :=
    Set.ext fun _ => decide_eq_true_iff
  rw [hset]
  exact ⟨measurableSet_Iio, uniform_Iio hp.1 hp.2⟩

theorem Measures.compl {A : Set ℝ} {p : ℝ} (h : Measures A p) : Measures Aᶜ (1 - p) :=
  ⟨h.1.compl, by rw [probReal_compl_eq_one_sub h.1, h.2]⟩

theorem kept_eq {P : Prop} [Decidable P] (b : Bool) :
    (if P then b else !b) = (decide P == b) := by
  by_cases hP : P <;> cases b <;> simp [hP]

/-- A good call is answered with yes with the probability that predictions count on. -/
theorem Leaf.Good.measures_yes {γ : Type} [Draws γ ℝ] {l : Leaf ℝ} (h : l.Good) (r : Course ℝ γ) :
    Measures (l.yes (r.setting l.construct))
      (callProbability r.profile r.chaos r.instability l.construct l.args) := by
  obtain ⟨c, site, args⟩ := l
  have hfit := Args.fit_of_check h.check
  have hbool : c.behaviour.yieldsBool = true := h.yieldsBool
  have hbelow := measures_below (r.profile.effective_mem c r.chaos r.instability)
  have hflip := c.behaviour_eq_flip_iff
  dsimp only at hfit ⊢
  unfold yes answer callProbability Course.setting
  dsimp only
  generalize c.behaviour = behaviour at hfit hbool hflip
  cases hfit with
  | conditional b =>
    dsimp only
    rw [if_neg (mt hflip.mpr nofun)]
    cases b
    · simpa [Measures] using Exact.zero_eq.symm
    · exact hbelow
  | gate => exact hbelow
  | flip b =>
    dsimp only
    rw [if_pos (hflip.mp rfl)]
    simp only [kept_eq]
    cases b
    · rw [if_neg Bool.false_ne_true, Exact.one_eq]
      convert hbelow.compl using 1
      ext u
      simp
    · rw [if_pos rfl]
      simpa only [beq_true] using hbelow
  | closeness left right tolerance =>
    exact measures_below (Exact.ishProbability_mem _ _ (Profile.effective_mem _ _ _ _))
  | integer _ | float _ | spread _ _ | count _ | drift _ | choice _ => cases hbool

/-! ## The probability of a run -/

section

variable {γ : Type} [MeasurableSpace γ] [Draws γ ℝ] {μ : Measure γ}

/-- Calls under unchanging settings are answered independently of each other. -/
theorem Draws.Random.real_answers (hμ : Draws.Random μ) (setting : Construct → Setting ℝ)
    {ls : List (Leaf ℝ)} (hls : ∀ l ∈ ls, MeasurableSet (l.yes (setting l.construct)))
    (E : List Bool → Bool) :
    MeasurableSet {g : γ | E (Leaf.answers setting ls g) = true} ∧
      μ.real {g : γ | E (Leaf.answers setting ls g) = true} =
        chance (ls.map fun l => uniform.real (l.yes (setting l.construct))) E := by
  have := hμ.isProbabilityMeasure
  induction ls generalizing E with
  | nil =>
    have hset : {g : γ | E (Leaf.answers setting [] g) = true} = {_g | E [] = true} := rfl
    rw [hset, List.map_nil, chance]
    rcases E [] with _ | _
    · simp
    · simp
  | cons l ls ih =>
    obtain ⟨hl, hls⟩ := List.forall_mem_cons.mp hls
    obtain ⟨htrue, htrue'⟩ := ih hls fun bs => E (true :: bs)
    obtain ⟨hfalse, hfalse'⟩ := ih hls fun bs => E (false :: bs)
    -- The first draw decides how the first call is answered, and the others are as random after it.
    have hset : {g : γ | E (Leaf.answers setting (l :: ls) g) = true} = {g | Draws.unit g ∈
        l.yes (setting l.construct) ×ˢ {g | E (true :: Leaf.answers setting ls g) = true} ∪
          (l.yes (setting l.construct))ᶜ ×ˢ
            {g | E (false :: Leaf.answers setting ls g) = true}} := by
      ext g
      show E (l.answer (setting l.construct) (Draws.unit g).1 :: _) = true ↔
        (l.answer (setting l.construct) (Draws.unit g).1 = true ∧ _) ∨
          (¬ l.answer (setting l.construct) (Draws.unit g).1 = true ∧ _)
      rcases l.answer (setting l.construct) (Draws.unit g).1 with _ | _
      · simp
      · simp
    obtain ⟨hmeasurable, hreal⟩ := hμ.real_split hl htrue hfalse
    rw [hset, List.map_cons, chance, ← htrue', ← hfalse']
    exact ⟨hmeasurable, hreal⟩

namespace Course

/-- The probability of draws on which a call yields true. -/
noncomputable def yes (r : Course ℝ γ) (μ : Measure γ) (l : Leaf ℝ) : ℝ :=
  μ.real {g | (sample l.construct l.args (r.setting l.construct) g).1 = .bool true}

theorem yes_eq (hμ : Draws.Random μ) (r : Course ℝ γ) {l : Leaf ℝ} (hl : l.Good) :
    r.yes μ l = callProbability r.profile r.chaos r.instability l.construct l.args := by
  have := hμ.isProbabilityMeasure
  obtain ⟨hmeasurable, hreal⟩ := hl.measures_yes r
  have hset : {g : γ | (sample l.construct l.args (r.setting l.construct) g).1 = .bool true} =
      {g | Draws.unit g ∈ l.yes (r.setting l.construct) ×ˢ Set.univ ∪
        (l.yes (r.setting l.construct))ᶜ ×ˢ ∅} := by
    ext g
    simp [hl.sample_eq, Leaf.yes]
  obtain ⟨-, hsplit⟩ := hμ.real_split hmeasurable .univ .empty
  rw [yes, hset, hsplit, probReal_univ, measureReal_empty, mul_one, mul_zero, add_zero, hreal]

omit [MeasurableSpace γ] [Draws γ ℝ] in
theorem steady_of_volatility_eq_zero {r : Course ℝ γ} (hv : r.profile.volatility = 0) :
    r.Steady := by
  intro c i
  simp only [Profile.effective_eq, Profile.shift, hv, zero_mul, zero_div]

/-- The number `p` is predicted for a composition, and it is the probability with which the
composition holds. -/
structure Foretells (r : Course ℝ γ) (μ : Measure γ) (defs : Definitions ℝ) (name : String)
    (site : Site) (f : Formula (Leaf ℝ)) (p : ℝ) : Prop where
  inlines : (Expr.use name).Inlines defs site f
  predicts : r.predict defs name = .ok p
  mem : p ∈ Set.Icc 0 1
  /-- It sums up the truth assignments to the leaves with which the formula holds. -/
  sum : p = ∑ bs : Fin f.leaves.length → Bool with f.holds (List.ofFn bs) = true,
    ∏ j, weight (r.yes μ f.leaves[j]) (bs j)
  answers : ∀ g : γ, ∃ b, ((r.withDraws g).invoke defs name site).1 = .ok b
  measurable : MeasurableSet {g : γ | ((r.withDraws g).invoke defs name site).1 = .ok true}
  measure : μ {g : γ | ((r.withDraws g).invoke defs name site).1 = .ok true} = ENNReal.ofReal p

theorem Steady.foretells (hμ : Draws.Random μ) {r : Course ℝ γ} (hsteady : r.Steady)
    {defs : Definitions ℝ} {name : String} {site : Site} {f : Formula (Leaf ℝ)}
    (hdefs : defs.Declared) (hf : Expr.Expands Definitions.lookup defs (.use name) site f)
    (hproper : f.Proper) :
    r.Foretells μ defs name site f (f.likelihood fun l =>
      callProbability r.profile r.chaos r.instability l.construct l.args) := by
  have := hμ.isProbabilityMeasure
  have hgood := hproper.good
  have hyes (l : Leaf ℝ) (hl : l ∈ f.leaves) := (hgood l hl).measures_yes r
  obtain ⟨hmeasurable, hreal⟩ := hμ.real_answers r.setting (fun l hl => (hyes l hl).1) f.holds
  have hinvoke (g : γ) : ((r.withDraws g).invoke defs name site).1 =
      .ok (f.holds (Leaf.answers r.setting f.leaves g)) :=
    Steady.invoke_eq (r := r.withDraws g) hsteady hf hproper
  have hset : {g : γ | ((r.withDraws g).invoke defs name site).1 = .ok true} =
      {g | f.holds (Leaf.answers r.setting f.leaves g) = true} := by
    ext g
    simp [hinvoke]
  -- The likelihood of the formula is computed from the table, its measure from the draws.
  have hlikelihood : f.likelihood (fun l =>
      callProbability r.profile r.chaos r.instability l.construct l.args) =
        μ.real {g | f.holds (Leaf.answers r.setting f.leaves g) = true} := by
    rw [hreal, Formula.likelihood_eq, List.map_congr_left fun l hl => (hyes l hl).2]
  refine ⟨hdefs.inlines hf, hf.predict_eq _, ?_, ?_, fun g => ⟨_, hinvoke g⟩, ?_, ?_⟩
  · rw [hlikelihood]
    exact ⟨measureReal_nonneg, measureReal_le_one⟩
  · have hleaves : f.leaves.map (fun l =>
        callProbability r.profile r.chaos r.instability l.construct l.args) =
          List.ofFn fun j : Fin f.leaves.length => r.yes μ f.leaves[j] := by
      rw [List.map_congr_left fun l hl => (r.yes_eq hμ (hgood l hl)).symm]
      exact (List.ofFn_getElem_eq_map f.leaves _).symm
    rw [Formula.likelihood_eq, hleaves, chance_eq_sum]
  · rw [hset]
    exact hmeasurable
  · rw [hset, hlikelihood, ofReal_measureReal]

/-- In exact arithmetic, with random draws and without volatility, a declared composition holds
with the probability that is predicted for it. For the table of a gate that asks for `k` parts this
is so whatever the parts. A session outside a replay takes the same course on doubles. -/
theorem declared_is_foretold (hμ : Draws.Random μ) {defs : Definitions ℝ} (hdefs : defs.Declared)
    {name : String} (hname : defs.contains name = true) {r : Course ℝ γ}
    (hv : r.profile.volatility = 0) (site : Site) :
    (∃ f p, r.Foretells μ defs name site f p) ∧
    (∀ (ps : List ℝ) k, Scalar.sum ((holdCounts ps).drop k) =
      ∑ bs : Fin ps.length → Bool with k ≤ (List.ofFn bs).count true,
        ∏ j, weight ps[j] (bs j)) ∧
    ∀ (R : Compositions) n, R.Built → R.contains n = true → ∀ site h,
      h.session.isReplaying = false → R.TakesCourse n site h := by
  refine ⟨?_, fun ps k => ?_, fun R n hR hn site h hlive => hR.takesCourse hn site hlive⟩
  · obtain ⟨f, hf, hproper⟩ := hdefs.exists_expands (Expr.check_use_eq_ok_iff.mpr hname) site
    exact ⟨f, _, (steady_of_volatility_eq_zero hv).foretells hμ hdefs hf hproper⟩
  · have hps : (List.ofFn fun j : Fin ps.length => ps[j]) = ps := List.ofFn_getElem
    have hsum := chance_eq_sum (fun j : Fin ps.length => ps[j]) fun bs => k ≤ bs.count true
    rw [hps] at hsum
    simpa only [sum_drop_holdCounts, decide_eq_true_eq] using hsum

/-- Two of three parts, one of which is a negation. -/
noncomputable def most : Definitions ℝ :=
  [("most", .atLeast 2 [.call .maybe (.condition true), .call .fuzzyBool (.condition false),
    .not (.call .ishComparison (.compare 1 0 none))])]

theorem declared_most : most.Declared := .cons .nil rfl rfl

/-- The reliable personality at full chaos, with some instability that does not matter to it. -/
noncomputable def reliable : Course ℝ Tape :=
  ⟨Personality.reliable.profile, .greatest, .standard, .ofLevel 3, fun _ => 0⟩

theorem declared_is_foretold_most :
    Draws.Random Tape.measure ∧ most.Declared ∧ most.contains "most" = true ∧
      reliable.profile.volatility = 0 ∧
      ∃ f p, reliable.Foretells Tape.measure most "most" ⟨7⟩ f p :=
  ⟨Tape.random_measure, declared_most, rfl, Exact.zero_eq,
    (declared_is_foretold Tape.random_measure declared_most rfl (r := reliable) Exact.zero_eq
      ⟨7⟩).1⟩

end Course

end

end Fickle

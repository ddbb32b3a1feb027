import Mathlib.MeasureTheory.Measure.Lebesgue.Basic
import Mathlib.Probability.ProductMeasure
import Fickle.Proofs.Exact
import Fickle.Draws

/-! # Random draws of exact numbers

A source of draws is random when each number is uniform on `[0, 1)` and says nothing about the
draws after it. A tape of independent uniform numbers is such a source.
-/

namespace Fickle

open MeasureTheory

/-- The uniform distribution on `[0, 1)`. -/
noncomputable def uniform : Measure ℝ := volume.restrict (Set.Ico 0 1)

instance : IsProbabilityMeasure uniform := ⟨by simp [uniform]⟩

theorem uniform_Iio {p : ℝ} (h₀ : 0 ≤ p) (h₁ : p ≤ 1) : uniform.real (Set.Iio p) = p := by
  have hinter : Set.Iio p ∩ Set.Ico 0 1 = Set.Ico 0 p := by
    ext u
    simp only [Set.mem_inter_iff, Set.mem_Iio, Set.mem_Ico]
    constructor
    · exact fun h => ⟨h.2.1, h.1⟩
    · exact fun h => ⟨h.2, h.1, h.2.trans_le h₁⟩
  rw [uniform, measureReal_restrict_apply measurableSet_Iio, hinter, Real.volume_real_Ico,
    sub_zero, max_eq_left h₀]

/-- The first number drawn is uniform, and what is left to draw is as random as before, whatever
that number is. -/
structure Draws.Random {γ : Type} [MeasurableSpace γ] [Draws γ ℝ] (μ : Measure γ) : Prop where
  isProbabilityMeasure : IsProbabilityMeasure μ
  unit : MeasurePreserving (Draws.unit : γ → ℝ × γ) μ (uniform.prod μ)

/-- What the first number decides is independent of what is drawn after it. -/
theorem Draws.Random.real_split {γ : Type} [MeasurableSpace γ] [Draws γ ℝ] {μ : Measure γ}
    (hμ : Draws.Random μ) {A : Set ℝ} (hA : MeasurableSet A) {S T : Set γ}
    (hS : MeasurableSet S) (hT : MeasurableSet T) :
    MeasurableSet {g : γ | Draws.unit g ∈ A ×ˢ S ∪ Aᶜ ×ˢ T} ∧
      μ.real {g : γ | Draws.unit g ∈ A ×ˢ S ∪ Aᶜ ×ˢ T} =
        uniform.real A * μ.real S + (1 - uniform.real A) * μ.real T := by
  have := hμ.isProbabilityMeasure
  have hleft : MeasurableSet (A ×ˢ S) := hA.prod hS
  have hright : MeasurableSet (Aᶜ ×ˢ T) := hA.compl.prod hT
  have hdisjoint : Disjoint (A ×ˢ S) (Aᶜ ×ˢ T) :=
    Set.disjoint_prod.mpr (.inl disjoint_compl_right)
  have hdrawn : μ {g : γ | Draws.unit g ∈ A ×ˢ S ∪ Aᶜ ×ˢ T} =
      uniform.prod μ (A ×ˢ S ∪ Aᶜ ×ˢ T) :=
    hμ.unit.measure_preimage (hleft.union hright).nullMeasurableSet
  refine ⟨hμ.unit.measurable (hleft.union hright), ?_⟩
  rw [measureReal_def, hdrawn, ← measureReal_def, measureReal_union hdisjoint hright,
    measureReal_prod_prod, measureReal_prod_prod, probReal_compl_eq_one_sub hA]

/-- Sizes keep to their bounds, and a coin is fair, also after a size was drawn. -/
structure Draws.Unbiased {γ : Type} [MeasurableSpace γ] [Draws γ ℝ] (μ : Measure γ) : Prop
    extends Draws.Random μ where
  size : ∀ bound : Int64, 1 ≤ bound →
    ∀ᵐ g ∂μ, 1 ≤ (Draws.upTo bound g).1 ∧ (Draws.upTo bound g).1 ≤ bound
  rest : ∀ bound : Int64, 1 ≤ bound → MeasurePreserving (fun g => (Draws.upTo bound g).2) μ μ
  measurable_coin : MeasurableSet {g : γ | (Draws.coin g).1 = true}
  coin : μ.real {g : γ | (Draws.coin g).1 = true} = 1 / 2

/-- After a size was drawn, the coin falls on either side with the same probability. -/
theorem Draws.Unbiased.real_side {γ : Type} [MeasurableSpace γ] [Draws γ ℝ] {μ : Measure γ}
    (hμ : Draws.Unbiased μ) {bound : Int64} (hbound : 1 ≤ bound) (side : Bool) :
    MeasurableSet {g : γ | (Draws.coin (Draws.upTo bound g).2).1 = side} ∧
      μ.real {g : γ | (Draws.coin (Draws.upTo bound g).2).1 = side} = 1 / 2 := by
  have := hμ.isProbabilityMeasure
  have hheads := hμ.measurable_coin
  -- A fair coin has as much measure on the one side as on the other.
  have hside : MeasurableSet {g : γ | (Draws.coin g).1 = side} ∧
      μ.real {g : γ | (Draws.coin g).1 = side} = 1 / 2 := by
    cases side with
    | true => exact ⟨hheads, hμ.coin⟩
    | false =>
      have htails : {g : γ | (Draws.coin g).1 = false} = {g : γ | (Draws.coin g).1 = true}ᶜ := by
        ext g
        simp
      rw [htails]
      refine ⟨hheads.compl, ?_⟩
      rw [probReal_compl_eq_one_sub hheads, hμ.coin]
      norm_num
  have hrest := hμ.rest bound hbound
  exact ⟨hrest.measurable hside.1,
    (hrest.measureReal_preimage hside.1.nullMeasurableSet).trans hside.2⟩

/-! ## Tapes -/

/-- Numbers in the order in which they are drawn. -/
abbrev Tape : Type := ℕ → ℝ

namespace Tape

def rest (t : Tape) : Tape := fun n => t (n + 1)

noncomputable instance : Draws Tape ℝ where
  unit t := (t 0, t.rest)
  upTo bound t := (Int64.ofIntClamp (1 + ⌊t 0 * bound.toInt⌋), t.rest)
  coin t := (decide (0.5 ≤ t 0), t.rest)

/-- All numbers of the tape are uniform and independent of each other. -/
noncomputable def measure : Measure Tape := Measure.infinitePi fun _ : ℕ => uniform

instance : IsProbabilityMeasure measure := by
  unfold measure
  infer_instance

/-- The tape that begins with a number. -/
def cons (u : ℝ × Tape) : Tape := fun n => Nat.casesOn n u.1 u.2

theorem measurable_rest : Measurable rest :=
  measurable_pi_lambda _ fun n => measurable_pi_apply (n + 1)

theorem measurable_cons : Measurable cons := by
  apply measurable_pi_lambda
  rintro (_ | n)
  · exact measurable_fst
  · exact (measurable_pi_apply n).comp measurable_snd

/-- In a box of tapes the first number and the rest of the tape are free of each other. -/
theorem preimage_cons (n : ℕ) (A : ℕ → Set ℝ) :
    Set.preimage cons (Set.pi (Finset.range (n + 1)) A) =
      A 0 ×ˢ Set.pi (Finset.range n) (fun i => A (i + 1)) := by
  ext ⟨u, t⟩
  simp only [Set.mem_preimage, Set.mem_pi, Finset.coe_range, Set.mem_Iio, Set.mem_prod]
  constructor
  · exact fun h => ⟨h 0 n.succ_pos, fun i hi => h (i + 1) (Nat.succ_lt_succ hi)⟩
  · rintro ⟨h₀, hrest⟩ (_ | i) hi
    · exact h₀
    · exact hrest i (Nat.lt_of_succ_lt_succ hi)

theorem map_cons_pi {A : ℕ → Set ℝ} (hA : ∀ i, MeasurableSet (A i)) (n : ℕ) :
    (uniform.prod measure).map cons (Set.pi (Finset.range (n + 1)) A) =
      ∏ i ∈ Finset.range (n + 1), uniform (A i) := by
  rw [Measure.map_apply measurable_cons (.pi (Finset.countable_toSet _) fun i _ => hA i),
    preimage_cons, Measure.prod_prod, measure, Measure.infinitePi_pi _ fun i _ => hA (i + 1),
    Finset.prod_range_succ', mul_comm]

theorem map_cons : (uniform.prod measure).map cons = measure := by
  apply Measure.eq_infinitePi
  intro s A hA
  obtain ⟨n, hn⟩ := s.exists_nat_subset_range
  have hsub : s ⊆ Finset.range (n + 1) := hn.trans (Finset.range_mono n.le_succ)
  -- A box over any numbers is one over the first ones, where what is not in `s` is free.
  have hbox : Set.pi s A =
      Set.pi (Finset.range (n + 1)) fun i => if i ∈ s then A i else Set.univ := by
    ext t
    simp only [Set.mem_pi, Finset.mem_coe]
    constructor
    · intro h i _
      split
      · exact h i (by assumption)
      · trivial
    · intro h i hi
      simpa [hi] using h i (hsub hi)
  have hmeasurable (i : ℕ) : MeasurableSet (if i ∈ s then A i else Set.univ) := by
    split
    · exact hA i
    · exact .univ
  rw [hbox, map_cons_pi hmeasurable, ← Finset.prod_subset hsub]
  · exact Finset.prod_congr rfl fun i hi => by rw [if_pos hi]
  · exact fun i _ hi => by rw [if_neg hi, measure_univ]

theorem random_measure : Draws.Random measure where
  isProbabilityMeasure := inferInstance
  unit := by
    have hunit : Measurable (Draws.unit : Tape → ℝ × Tape) :=
      (measurable_pi_apply 0).prodMk measurable_rest
    have hinverse : (Draws.unit : Tape → ℝ × Tape) ∘ cons = id := rfl
    refine ⟨hunit, ?_⟩
    conv_lhs => rw [← map_cons]
    rw [Measure.map_map hunit measurable_cons, hinverse, Measure.map_id]

theorem measurePreserving_head : MeasurePreserving (fun t : Tape => t 0) measure uniform :=
  measurePreserving_fst.comp random_measure.unit

theorem measurePreserving_rest : MeasurePreserving rest measure measure :=
  measurePreserving_snd.comp random_measure.unit

/-- The whole part of a number below a bound, plus one. -/
theorem size_mem {bound : Int64} (hbound : 1 ≤ bound) {u : ℝ} (h₀ : 0 ≤ u) (h₁ : u < 1) :
    1 ≤ Int64.ofIntClamp (1 + ⌊u * bound.toInt⌋) ∧
      Int64.ofIntClamp (1 + ⌊u * bound.toInt⌋) ≤ bound := by
  have hone : 1 ≤ bound.toInt := Int64.le_iff_toInt_le.mp hbound
  have hbound' : (0 : ℝ) < bound.toInt := by exact_mod_cast hone
  have hlow : 0 ≤ ⌊u * bound.toInt⌋ := Int.floor_nonneg.mpr (mul_nonneg h₀ hbound'.le)
  have hhigh : ⌊u * bound.toInt⌋ < bound.toInt :=
    Int.floor_lt.mpr (mul_lt_of_lt_one_left hbound' h₁)
  have hmin : Int64.minValue.toInt ≤ 1 + ⌊u * bound.toInt⌋ :=
    le_trans (by decide) (Int.add_nonneg zero_le_one hlow)
  have hmax : 1 + ⌊u * bound.toInt⌋ ≤ Int64.maxValue.toInt := by
    have hle := bound.toInt_le
    omega
  rw [Int64.le_iff_toInt_le, Int64.le_iff_toInt_le, Int64.toInt_ofIntClamp hmin hmax,
    Int64.toInt_one]
  constructor <;> omega

theorem unbiased_measure : Draws.Unbiased measure where
  toRandom := random_measure
  size bound hbound := by
    have hhead : ∀ᵐ t : Tape ∂measure, t 0 ∈ Set.Ico (0 : ℝ) 1 :=
      measurePreserving_head.quasiMeasurePreserving.ae (ae_restrict_mem measurableSet_Ico)
    filter_upwards [hhead] with t ht
    exact size_mem hbound ht.1 ht.2
  rest _ _ := measurePreserving_rest
  measurable_coin := by
    have hset : {t : Tape | decide (0.5 ≤ t 0) = true} =
        Set.preimage (fun t : Tape => t 0) (Set.Ici 0.5) := by
      ext t
      simp
    exact hset ▸ measurableSet_Ici.preimage measurePreserving_head.measurable
  coin := by
    have hset : {t : Tape | decide (0.5 ≤ t 0) = true} =
        Set.preimage (fun t : Tape => t 0) (Set.Iio 0.5)ᶜ := by
      ext t
      simp
    show measure.real {t : Tape | decide (0.5 ≤ t 0) = true} = 1 / 2
    rw [hset, measurePreserving_head.measureReal_preimage measurableSet_Iio.compl.nullMeasurableSet,
      probReal_compl_eq_one_sub measurableSet_Iio, uniform_Iio (by norm_num) (by norm_num)]
    norm_num

end Tape

end Fickle

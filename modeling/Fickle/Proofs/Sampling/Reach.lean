import Fickle.Proofs.Sampling.Misfire

/-! # The noise of whole numbers keeps to its reach

Whatever a radius or a spread comes to when the chaos level scales it, it is a size that can be
drawn up to. So no offset overflows, and no outcome is further from the number than the reach, or
outside the range of its type.
-/

namespace Fickle.Whole

variable {α γ : Type} [Scalar α] [Draws γ α]

theorem behaviour_moved (w : Whole) (d : Int) : (w.moved d).behaviour = w.behaviour := by
  cases w <;> rfl

theorem moved_zero (w : Whole) : w.moved 0 = w := by
  have hmem := w.value_mem
  rw [moved_eq_iff_value, value_moved]
  omega

/-- Holding a number in its range brings it no further away. -/
theorem natAbs_moved_sub_le (w : Whole) (d : Int) :
    ((w.moved d).value - w.value).natAbs ≤ d.natAbs := by
  have hmem := w.value_mem
  rw [value_moved]
  omega

/-- The size that a misfire draws, before its direction. -/
def size (w : Whole) (s : Setting α) (g : γ) : Int64 :=
  (Draws.upTo (max (w.reach s) 1) (Draws.unit g).2).1

/-- What a call on a whole number adds to it, as an integer without bounds. -/
def noise (w : Whole) (s : Setting α) (g : γ) : Int :=
  if (Draws.unit g).1 < s.probability then 0 else w.offset s g

theorem sample_eq_moved {c : Construct} {w : Whole} (h : c.behaviour = w.behaviour)
    (s : Setting α) (g : γ) : (sample c w.args s g).1 = (w.moved (w.noise s g)).outcome := by
  rw [sample_eq h]
  unfold noise
  split
  · rw [moved_zero]
  · rfl

/-- How a call on a whole number keeps to its reach. -/
structure KeepsToReach (w : Whole) (c : Construct) (s : Setting α) (g : γ) : Prop where
  reach : 1 ≤ (w.reach s).toInt ∧ (w.reach s).toInt ≤ Int64.maxValue.toInt
  /-- The reach is the bound that sizes are drawn up to. -/
  bound : max (w.reach s) 1 = w.reach s
  size : 1 ≤ (w.size s g).toInt ∧ (w.size s g).toInt ≤ (w.reach s).toInt
  /-- The size can be negated. -/
  neg_size : (-w.size s g).toInt = -(w.size s g).toInt
  noise : w.noise s g = 0 ∨ (w.noise s g).natAbs = (w.size s g).toInt
  /-- Sums stop at the ends of the range, and what comes out is no further away than the reach. -/
  outcome : ∃ w' : Whole, (sample c w.args s g).1 = w'.outcome ∧ w'.behaviour = w.behaviour ∧
    w'.value = max w.least (min w.greatest (w.value + w.noise s g)) ∧
    (w'.value - w.value).natAbs ≤ (w.reach s).toInt ∧ w.least ≤ w'.value ∧ w'.value ≤ w.greatest

/-- A size that keeps to the reach is all that it takes. -/
theorem keepsToReach {c : Construct} {w : Whole} (h : c.behaviour = w.behaviour) {s : Setting α}
    {g : γ} (hg : Draws.SizeFits (w.reach s) (Draws.unit g).2) : w.KeepsToReach c s g := by
  have hone := w.one_le_reach s
  have hbound := Draws.max_one hone
  have hreach : 1 ≤ (w.reach s).toInt := Int64.le_iff_toInt_le.mp hone
  have hmax := (w.reach s).toInt_le
  have hsize : w.size s g = (Draws.upTo (w.reach s) (Draws.unit g).2).1 := by
    unfold size
    rw [hbound]
  have hlow : 1 ≤ (w.size s g).toInt := hsize ▸ Int64.le_iff_toInt_le.mp hg.1
  have hhigh : (w.size s g).toInt ≤ (w.reach s).toInt := hsize ▸ Int64.le_iff_toInt_le.mp hg.2
  -- The size is one at least, so its negative is no overflow either.
  have hneg : (-w.size s g).toInt = -(w.size s g).toInt := by
    have hlt := (w.size s g).toInt_lt
    rw [Int64.toInt_neg]
    exact Int.bmod_eq_of_le (by omega) (by omega)
  have hoffset : (w.offset s g).natAbs = (w.size s g).toInt := by
    have hnonzero := Draws.toInt_nonzero hone hg
    rw [← hsize] at hnonzero
    unfold offset
    rw [hnonzero]
    split <;> omega
  have hnoise : w.noise s g = 0 ∨ (w.noise s g).natAbs = (w.size s g).toInt := by
    unfold noise
    split
    · exact .inl rfl
    · exact .inr hoffset
  refine ⟨⟨hreach, hmax⟩, hbound, ⟨hlow, hhigh⟩, hneg, hnoise,
    w.moved (w.noise s g), sample_eq_moved h s g, w.behaviour_moved _, w.value_moved _, ?_, ?_⟩
  · have hnear := w.natAbs_moved_sub_le (w.noise s g)
    omega
  · rw [value_moved]
    have hends := w.least_lt_greatest
    omega

/-- The noise of a whole number neither overflows nor gets beyond its reach, for every number,
profile, chaos level and stream. It takes nothing of the arithmetic that scales the reach, and of
the draws only that a size keeps to the bound it is drawn up to. -/
theorem noise_keeps_to_reach {c : Construct} {w : Whole} (h : c.behaviour = w.behaviour) :
    (∀ (s : Setting Binary64) (g : Stream), w.KeepsToReach c s g) ∧
    ∀ {α γ : Type} [Scalar α] [Draws γ α] (s : Setting α) (g : γ),
      Draws.SizeFits (w.reach s) (Draws.unit g).2 → w.KeepsToReach c s g :=
  ⟨fun s _ => keepsToReach h (Stream.upTo_mem (w.one_le_reach s) _),
    fun _ _ hg => keepsToReach h hg⟩

/-- The greatest integer, under a profile with the greatest radius, and the greatest count. -/
theorem noise_keeps_to_reach_greatest :
    Construct.fuzzyReassign.behaviour = (int Int64.maxValue).behaviour ∧
      Construct.repeatCount.behaviour = (count (UInt64.ofNat (UInt64.size - 1))).behaviour ∧
      (let profile : Profile Binary64 :=
        { Personality.chaotic.profile with intFuzzRadius := Int64.maxValue }
       profile.Sound ∧
        (int Int64.maxValue).KeepsToReach .fuzzyReassign ⟨0.5, profile, .greatest, .standard⟩
          (Stream.ofSeed 7) ∧
        (count (UInt64.ofNat (UInt64.size - 1))).KeepsToReach .repeatCount
          ⟨0.5, profile, .greatest, .standard⟩ (Stream.ofSeed 7)) ∧
      (let s : Setting ℝ := ⟨0, Personality.chaotic.profile, .greatest, .standard⟩
       Draws.SizeFits ((int 5).reach s) (Draws.unit (fun _ => 0 : Tape)).2 ∧
        (int 5).KeepsToReach .fuzzyInt s (fun _ => 0 : Tape)) := by
  have hfits : Draws.SizeFits
      ((int 5).reach (⟨0, Personality.chaotic.profile, .greatest, .standard⟩ : Setting ℝ))
      (Draws.unit (fun _ => 0 : Tape)).2 :=
    Tape.size_mem (one_le_reach _ _) le_rfl zero_lt_one
  refine ⟨rfl, rfl, ⟨?_, (noise_keeps_to_reach rfl).1 _ _, (noise_keeps_to_reach rfl).1 _ _⟩,
    hfits, (noise_keeps_to_reach rfl).2 _ _ hfits⟩
  have hnone : ({ Personality.chaotic.profile with
      intFuzzRadius := Int64.maxValue } : Profile Binary64).flaw?.isNone = true := by
    decide +kernel
  exact Option.isNone_iff_eq_none.mp hnone

end Fickle.Whole

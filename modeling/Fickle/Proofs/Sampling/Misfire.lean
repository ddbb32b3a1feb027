import Fickle.Proofs.Tape
import Fickle.Proofs.Profile
import Fickle.Proofs.Saturation
import Fickle.Proofs.Stream
import Fickle.Sampling.Luck

/-! # Misfires of whole numbers

An integer or a count that misfires is moved by an offset, which is never zero, and then held in the
range of its type. So a misfire shows, except at an end of the range, where an offset that points
out of it is lost.
-/

namespace Fickle

open MeasureTheory

/-! ## Offsets -/

namespace Draws

theorem one_le_max (radius : Int64) : 1 ≤ max radius 1 := by
  show 1 ≤ if radius ≤ 1 then 1 else radius
  rw [Int64.le_iff_toInt_le]
  split
  · exact le_rfl
  · rename_i h
    rw [Int64.le_iff_toInt_le] at h
    omega

theorem max_one {radius : Int64} (h : 1 ≤ radius) : max radius 1 = radius := by
  show (if radius ≤ 1 then 1 else radius) = radius
  split
  · rename_i hle
    rw [Int64.le_iff_toInt_le] at h hle
    exact Int64.toInt_inj.mp (by omega)
  · rfl

variable {α γ : Type} [Draws γ α] {radius : Int64} {g : γ}

/-- The size that is drawn for an offset keeps to its bound. -/
def SizeFits (radius : Int64) (g : γ) : Prop :=
  1 ≤ (upTo radius g).1 ∧ (upTo radius g).1 ≤ radius

theorem toInt_nonzero (hradius : 1 ≤ radius) (h : SizeFits radius g) :
    (nonzero radius g).1.toInt =
      if (coin (upTo radius g).2).1 then (upTo radius g).1.toInt
      else -(upTo radius g).1.toInt := by
  have hsize := Int64.le_iff_toInt_le.mp h.1
  have hmax := (upTo radius g).1.toInt_lt
  rw [Int64.toInt_one] at hsize
  unfold nonzero
  rw [max_one hradius]
  dsimp only
  split
  · rfl
  · rw [Int64.toInt_neg]
    exact Int.bmod_eq_of_le (by omega) (by omega)

/-- An offset is not zero, and its size keeps to the radius. The coin tells its direction. -/
theorem nonzero_mem (hradius : 1 ≤ radius) (h : SizeFits radius g) :
    (nonzero radius g).1.toInt ≠ 0 ∧ ((nonzero radius g).1.toInt.natAbs : Int) ≤ radius.toInt ∧
      (0 < (nonzero radius g).1.toInt ↔ (coin (upTo radius g).2).1 = true) := by
  have hlow := Int64.le_iff_toInt_le.mp h.1
  have hhigh := Int64.le_iff_toInt_le.mp h.2
  rw [Int64.toInt_one] at hlow
  rw [toInt_nonzero hradius h]
  split
  · rename_i hcoin
    exact ⟨by omega, by omega, iff_of_true (by omega) hcoin⟩
  · rename_i hcoin
    exact ⟨by omega, by omega, iff_of_false (by omega) hcoin⟩

end Draws

/-! ## Whole numbers -/

/-- What a call hands in that a misfire moves. -/
inductive Whole where
  | int (v : Int64)
  | count (n : UInt64)
  deriving DecidableEq

namespace Whole

def behaviour : Whole → Behaviour
  | int _ => .integer
  | count _ => .count

def value : Whole → Int
  | int v => v.toInt
  | count n => n.toNat

def least : Whole → Int
  | int _ => Int64.minValue.toInt
  | count _ => 0

def greatest : Whole → Int
  | int _ => Int64.maxValue.toInt
  | count _ => UInt64.size - 1

/-- The number moved by `d` and held in the range of its type. -/
def moved (w : Whole) (d : Int) : Whole :=
  match w with
  | int v => .int (Int64.ofIntClamp (v.toInt + d))
  | count n => .count (UInt64.ofNatClamp (n.toNat + d).toNat)

/-- An offset that is lost: the number stands at an end of its range, and the offset points out. -/
def Blocks (w : Whole) (d : Int) : Prop :=
  w.value = w.least ∧ d < 0 ∨ w.value = w.greatest ∧ 0 < d

theorem value_mem (w : Whole) : w.least ≤ w.value ∧ w.value ≤ w.greatest := by
  cases w with
  | int v => exact ⟨v.minValue_le_toInt, v.toInt_le⟩
  | count n =>
    have hlt := n.toNat_lt
    unfold least value greatest UInt64.size
    constructor <;> dsimp only <;> omega

theorem least_lt_greatest (w : Whole) : w.least < w.greatest := by
  cases w with
  | int _ => exact (by decide : Int64.minValue.toInt < Int64.maxValue.toInt)
  | count _ => exact (by decide : (0 : Int) < UInt64.size - 1)

theorem value_moved (w : Whole) (d : Int) :
    (w.moved d).value = max w.least (min w.greatest (w.value + d)) := by
  cases w with
  | int v => exact toInt_ofIntClamp _
  | count n =>
    unfold moved value least greatest
    dsimp only
    rw [toNat_ofNatClamp]
    unfold UInt64.size
    omega

theorem moved_eq_iff_value (w : Whole) (d : Int) :
    w.moved d = w ↔ (w.moved d).value = w.value := by
  cases w with
  | int v => simp [moved, value, Int64.toInt_inj]
  | count n => simp [moved, value, UInt64.toNat_inj]

theorem moved_eq_iff (w : Whole) {d : Int} (hd : d ≠ 0) : w.moved d = w ↔ w.Blocks d := by
  have hmem := w.value_mem
  have hends := w.least_lt_greatest
  rw [moved_eq_iff_value, value_moved]
  unfold Blocks
  omega

/-! ## What a call draws -/

section

variable {α : Type}

def args : Whole → Args α
  | int v => .int v
  | count n => .count n

def outcome : Whole → Outcome α
  | int v => .int v
  | count n => .count n

theorem outcome_inj {w w' : Whole} : (w.outcome : Outcome α) = w'.outcome ↔ w = w' := by
  cases w <;> cases w' <;> simp [outcome]

variable [Scalar α]

/-- The largest offset of a misfire. -/
def reach (s : Setting α) : Whole → Int64
  | int _ => intRadius s.profile s.chaos
  | count n => repeatSpread n s.profile s.chaos

theorem one_le_reach (s : Setting α) (w : Whole) : 1 ≤ w.reach s := by
  cases w <;> exact Draws.one_le_max _

/-- The luck of a number that was moved is told by whether it is the nominal one. -/
theorem luck_moved {c : Construct} {w : Whole} (h : c.behaviour = w.behaviour) (d : Int)
    (profile : Profile α) :
    luck c w.args (w.moved d).outcome profile = .ofBool (decide (w.moved d = w)) := by
  unfold luck
  cases w <;> rw [h] <;> simp [args, moved, outcome, behaviour, beq_eq_decide]

theorem luck_outcome {c : Construct} {w : Whole} (h : c.behaviour = w.behaviour)
    (profile : Profile α) : luck c w.args w.outcome profile = .favorable := by
  unfold luck
  cases w <;> rw [h] <;> simp [args, outcome, behaviour, Luck.ofBool]

variable {γ : Type} [Draws γ α]

def offset (w : Whole) (s : Setting α) (g : γ) : Int :=
  (Draws.nonzero (w.reach s) (Draws.unit g).2).1.toInt

theorem offset_mem {w : Whole} {s : Setting α} {g : γ}
    (h : Draws.SizeFits (w.reach s) (Draws.unit g).2) :
    w.offset s g ≠ 0 ∧ (w.offset s g).natAbs ≤ (w.reach s).toInt ∧
      (0 < w.offset s g ↔
        (Draws.coin (Draws.upTo (w.reach s) (Draws.unit g).2).2).1 = true) :=
  Draws.nonzero_mem (w.one_le_reach s) h

theorem sample_eq {c : Construct} {w : Whole} (h : c.behaviour = w.behaviour) (s : Setting α)
    (g : γ) : (sample c w.args s g).1 =
      if (Draws.unit g).1 < s.probability then w.outcome else (w.moved (w.offset s g)).outcome := by
  unfold sample
  cases w <;> rw [h] <;> dsimp only [args, behaviour] <;> split <;> rfl

end

/-! ## Where a misfire hides -/

/-- How a call on a whole number comes out. -/
structure Shows (w : Whole) (c : Construct) (s : Setting Binary64) (g : Stream) : Prop where
  /-- Luck tells the nominal outcome from any other. -/
  luck : luck c w.args (sample c w.args s g).1 s.profile =
    .ofBool (decide ((sample c w.args s g).1 = w.outcome))
  hit : (Draws.unit g).1 < s.probability → (sample c w.args s g).1 = w.outcome
  miss : ¬ (Draws.unit g).1 < s.probability →
    (sample c w.args s g).1 = (w.moved (w.offset s g)).outcome
  /-- The offset is not zero, and not beyond the reach. -/
  offset : w.offset s g ≠ 0 ∧ (w.offset s g).natAbs ≤ (w.reach s).toInt
  /-- Only an offset that points out of the range is lost. -/
  lost : ¬ (Draws.unit g).1 < s.probability →
    ((sample c w.args s g).1 = w.outcome ↔ w.Blocks (w.offset s g))

theorem shows {c : Construct} {w : Whole} (h : c.behaviour = w.behaviour) (s : Setting Binary64)
    (g : Stream) : w.Shows c s g := by
  obtain ⟨hzero, hsize, -⟩ :=
    offset_mem (w := w) (g := g) (Stream.upTo_mem (w.one_le_reach s) (Draws.unit g).2)
  have hmiss (hu : ¬ (Draws.unit g).1 < s.probability) :
      (sample c w.args s g).1 = (w.moved (w.offset s g)).outcome := by
    rw [sample_eq h, if_neg hu]
  have hhit (hu : (Draws.unit g).1 < s.probability) :
      (sample c w.args s g).1 = w.outcome := by
    rw [sample_eq h, if_pos hu]
  refine ⟨?_, hhit, hmiss, ⟨hzero, hsize⟩, fun hu => ?_⟩
  · by_cases hu : (Draws.unit g).1 < s.probability
    · rw [hhit hu, luck_outcome h, decide_eq_true rfl]
      rfl
    · rw [hmiss hu, luck_moved h]
      simp only [outcome_inj]
  · rw [hmiss hu, outcome_inj, moved_eq_iff w hzero]

variable {γ : Type} [MeasurableSpace γ] [Draws γ ℝ] {μ : Measure γ}

/-- The draws of a misfire that lose its offset. At an end of the range they are half of all, and
elsewhere there are none. -/
theorem exists_lost (hμ : Draws.Unbiased μ) (w : Whole) (s : Setting ℝ) :
    ∃ T : Set γ, MeasurableSet T ∧
      μ.real T = (if w.value = w.least ∨ w.value = w.greatest then 1 / 2 else 0) ∧
      ∀ g, Draws.SizeFits (w.reach s) (Draws.unit g).2 →
        (w.Blocks (w.offset s g) ↔ (Draws.unit g).2 ∈ T) := by
  have hends := w.least_lt_greatest
  have hsides := hμ.real_side (w.one_le_reach s)
  unfold Blocks
  -- At the lower end only a step down is lost, at the upper end only a step up.
  by_cases hleast : w.value = w.least
  · refine ⟨_, (hsides false).1, by rw [if_pos (.inl hleast), (hsides false).2], fun g hg => ?_⟩
    obtain ⟨hzero, -, hcoin⟩ := offset_mem hg
    rw [Set.mem_ofPred_eq, ← Bool.not_eq_true, ← hcoin]
    omega
  by_cases hgreatest : w.value = w.greatest
  · refine ⟨_, (hsides true).1, by rw [if_pos (.inr hgreatest), (hsides true).2], fun g hg => ?_⟩
    obtain ⟨hzero, -, hcoin⟩ := offset_mem hg
    rw [Set.mem_ofPred_eq, ← hcoin]
    omega
  · refine ⟨∅, .empty, by simp [hleast, hgreatest], fun g _ => ?_⟩
    simp [hleast, hgreatest]

/-- With random draws the nominal outcome has its probability, and at an end of the range half of
the misfires as well. -/
theorem real_nominal (hμ : Draws.Unbiased μ) {c : Construct} {w : Whole}
    (h : c.behaviour = w.behaviour) {s : Setting ℝ} (hp : s.probability ∈ Set.Icc 0 1) :
    μ.real {g : γ | (sample c w.args s g).1 = w.outcome} =
      s.probability + (1 - s.probability) *
        if w.value = w.least ∨ w.value = w.greatest then 1 / 2 else 0 := by
  have := hμ.isProbabilityMeasure
  obtain ⟨T, hT, hreal, hlost⟩ := exists_lost hμ w s
  obtain ⟨-, hsplit⟩ := hμ.real_split (measurableSet_Iio (a := s.probability)) .univ hT
  have hfits : ∀ᵐ g ∂μ, Draws.SizeFits (w.reach s) (Draws.unit g).2 :=
    (measurePreserving_snd.comp hμ.unit).quasiMeasurePreserving.ae
      (hμ.size _ (w.one_le_reach s))
  -- The number comes out nominal by the first draw, or by an offset that is lost.
  have hset : {g : γ | (sample c w.args s g).1 = w.outcome} =ᵐ[μ]
      {g | Draws.unit g ∈ Set.Iio s.probability ×ˢ Set.univ ∪ (Set.Iio s.probability)ᶜ ×ˢ T} := by
    filter_upwards [hfits] with g hg
    apply propext
    show (sample c w.args s g).1 = w.outcome ↔
      Draws.unit g ∈ Set.Iio s.probability ×ˢ Set.univ ∪ (Set.Iio s.probability)ᶜ ×ˢ T
    rw [sample_eq h]
    by_cases hu : (Draws.unit g).1 < s.probability
    · simp [hu]
    · rw [if_neg hu, outcome_inj, moved_eq_iff w (offset_mem hg).1, hlost g hg]
      simp [hu, not_lt.mp hu]
  rw [measureReal_congr hset, hsplit, uniform_Iio hp.1 hp.2, probReal_univ, hreal, mul_one]

/-- A misfire of a whole number shows, and luck tells it, unless the number stands at an end of its
range and the offset points out of it. So the nominal outcome has exactly the probability of the
first draw everywhere but at the ends, where half of the misfires give it too. -/
theorem misfire_shows {c : Construct} {w : Whole} (h : c.behaviour = w.behaviour) :
    (∀ (s : Setting Binary64) (g : Stream), w.Shows c s g) ∧
    ∀ {γ : Type} [MeasurableSpace γ] [Draws γ ℝ] {μ : Measure γ}, Draws.Unbiased μ →
      ∀ s : Setting ℝ, s.probability ∈ Set.Icc 0 1 →
        μ.real {g : γ | (sample c w.args s g).1 = w.outcome} =
          if w.value = w.least ∨ w.value = w.greatest
          then s.probability + (1 - s.probability) / 2 else s.probability := by
  refine ⟨fun s g => shows h s g, fun hμ s hp => ?_⟩
  rw [real_nominal hμ h hp]
  split
  · rw [mul_one_div]
  · rw [mul_zero, add_zero]

/-- The integer five on a seeded stream, and with an even chance on a tape. -/
theorem misfire_shows_five :
    Construct.fuzzyInt.behaviour = (int 5).behaviour ∧ Draws.Unbiased Tape.measure ∧
      (int 5).Shows .fuzzyInt ⟨0.5, Personality.chaotic.profile, .greatest, .standard⟩
        (Stream.ofSeed 7) ∧
      (let s : Setting ℝ := ⟨1 / 2, Personality.chaotic.profile, .greatest, .standard⟩
       s.probability ∈ Set.Icc 0 1 ∧
        Tape.measure.real {t | (sample .fuzzyInt (int 5).args s t).1 = (int 5).outcome} =
          1 / 2) := by
  have hmem : (1 / 2 : ℝ) ∈ Set.Icc (0 : ℝ) 1 := by constructor <;> norm_num
  have hinside : ¬ ((int 5).value = (int 5).least ∨ (int 5).value = (int 5).greatest) :=
    (by decide : ¬ ((5 : Int64).toInt = Int64.minValue.toInt ∨
      (5 : Int64).toInt = Int64.maxValue.toInt))
  obtain ⟨hshows, hreal⟩ := misfire_shows (c := .fuzzyInt) (w := int 5) rfl
  refine ⟨rfl, Tape.unbiased_measure, hshows _ _, hmem, ?_⟩
  rw [hreal Tape.unbiased_measure _ hmem, if_neg hinside]

/-- A stream that is about to give the greatest number below one, the size one, and then this side
of the coin. -/
def aboutTo (side : Bool) : Stream :=
  ⟨(Stream.ofSeed 0).key, 1, [0xFFFFFFFF, 0xFFFFFFFF, 0, 0, if side then 0x80000000 else 0]⟩

theorem coin_aboutTo (bound : Int64) (side : Bool) :
    (Draws.coin (Draws.upTo bound (Draws.unit (aboutTo side)).2).2).1 = side := by
  show (Stream.coin (Stream.upTo bound ⟨(Stream.ofSeed 0).key, 1, 0 :: 0 :: _⟩).2).1 = side
  rw [Stream.upTo_of_zeros]
  cases side <;> rfl

/-- A misfire of the greatest integer or of the count zero can give the nominal outcome. -/
theorem misfire_hides_at_an_end :
    (Personality.playful.profile : Profile Binary64).Sound ∧
      (let s : Setting Binary64 := ⟨Personality.playful.profile.effective .fuzzyInt .least .calm,
        Personality.playful.profile, .least, .standard⟩
       ¬ (Draws.unit (aboutTo true)).1 < s.probability ∧
        (sample .fuzzyInt (.int Int64.maxValue) s (aboutTo true)).1 = .int Int64.maxValue ∧
        luck .fuzzyInt (.int Int64.maxValue) (.int Int64.maxValue) s.profile = .favorable) ∧
      (let s : Setting Binary64 := ⟨Personality.playful.profile.effective .repeatCount .least .calm,
        Personality.playful.profile, .least, .standard⟩
       ¬ (Draws.unit (aboutTo false)).1 < s.probability ∧
        (sample .repeatCount (.count 0) s (aboutTo false)).1 = .count 0 ∧
        luck .repeatCount (.count 0) (.count 0) s.profile = .favorable) := by
  refine ⟨Personality.playful.sound_profile, ⟨by decide +kernel, ?_, rfl⟩,
    ⟨by decide +kernel, ?_, rfl⟩⟩
  · apply ((shows (w := int Int64.maxValue) (c := .fuzzyInt) rfl _ _).lost (by decide +kernel)).mpr
    obtain ⟨-, -, hup⟩ := offset_mem (Stream.upTo_mem (one_le_reach _ _) _)
    exact .inr ⟨rfl, hup.mpr (coin_aboutTo _ true)⟩
  · apply ((shows (w := count 0) (c := .repeatCount) rfl _ _).lost (by decide +kernel)).mpr
    obtain ⟨hzero, -, hup⟩ := offset_mem (Stream.upTo_mem (one_le_reach _ _) _)
    have hdown := mt hup.mp (Bool.not_eq_true _ ▸ coin_aboutTo _ false)
    exact .inl ⟨rfl, lt_of_le_of_ne (not_lt.mp hdown) hzero⟩

end Whole

end Fickle

import Fickle.Proofs.Binary64.Arithmetic
import Fickle.Proofs.Saturation

/-! # Integers and doubles

An integer is rounded to a double, and a double is cut back to its integral part, which stops at
the ends of the range.
-/

open Float.Model Float.Model.UnpackedFloat

namespace Fickle.Binary64

/-! ## From integers -/

theorem rounds_neg {f : Float} {q : ℚ} (h : Rounds (ofFloat f) q) :
    Rounds (ofFloat f.neg) (-q) := by
  cases h with
  | finite hr hx => exact .finite hr.neg ((unpacked_neg f).symm ▸ hx.neg)
  | infinite s hr hlarge hx =>
    refine .infinite (-s) hr.neg ?_ ((unpacked_neg f).trans (congrArg UnpackedFloat.neg hx))
    cases s
    · exact hlarge
    · exact hlarge.trans (neg_neg _).ge

theorem rounds_ofInt (k : Int) : Rounds (Scalar.ofInt k : Binary64) k := by
  cases k with
  | ofNat n => exact rounds_ofNat n
  | negSucc n =>
    rw [Int.cast_negSucc]
    exact rounds_neg (rounds_ofNat (n + 1))

/-! ## To integers -/

/-- The integral part of a fraction. -/
def integral (q : ℚ) : Int := if 0 ≤ q then ⌊q⌋ else ⌈q⌉

theorem integral_intCast (n : Int) : integral n = n := by
  unfold integral
  rw [Int.floor_intCast, Int.ceil_intCast, ite_self]

/-- Cutting back to the integral part crosses no integer. -/
theorem le_integral {q : ℚ} {a : Int} (h : a ≤ q) : a ≤ integral q := by
  unfold integral
  split
  · exact Int.le_floor.mpr h
  · exact Int.le_ceil_iff.mpr (by linarith)

theorem integral_le {q : ℚ} {b : Int} (h : q ≤ b) : integral q ≤ b := by
  unfold integral
  split
  · exact Int.floor_le_iff.mpr (by linarith)
  · exact Int.ceil_le.mpr h

theorem abs_integral_sub_le (q : ℚ) : |(integral q : ℚ) - q| ≤ 1 := by
  have hfloor := Int.floor_le q
  have hfloor' := Int.lt_floor_add_one q
  have hceil := Int.le_ceil q
  have hceil' := Int.ceil_lt_add_one q
  unfold integral
  split
  · exact abs_le.mpr ⟨by linarith, by linarith⟩
  · exact abs_le.mpr ⟨by linarith, by linarith⟩

/-- Where doubles hold all integers, rounding and cutting stay between the integers around. -/
theorem Faithful.integral_mem {q y : ℚ} (h : Faithful q y) (hq : |q| ≤ 2 ^ 53) :
    ⌊q⌋ ≤ integral y ∧ integral y ≤ ⌈q⌉ := by
  obtain ⟨hlow, hhigh⟩ := abs_le.mp hq
  have hfloor : -2 ^ 53 ≤ ⌊q⌋ := Int.le_floor.mpr (by exact_mod_cast hlow)
  have hceil : ⌈q⌉ ≤ 2 ^ 53 := Int.ceil_le.mpr (by exact_mod_cast hhigh)
  have horder := Int.floor_le_ceil q
  exact ⟨le_integral ((h ⌊q⌋ (representable_intCast (by omega))).1 (Int.floor_le q)),
    integral_le ((h ⌈q⌉ (representable_intCast (by omega))).2 (Int.le_ceil q))⟩

theorem floor_eq_of_cuts {em : ExtendedMantissa} {x : ℚ} (h : Cuts em x) :
    ⌊x⌋ = em.mantissa :=
  Int.floor_eq_iff.mpr ⟨h.le, h.lt⟩

theorem roundToInt_eq (s : Sign) {m : Nat} (hm : 0 < m) (e : Int) :
    roundToInt s m e = integral (signed s (m * 2 ^ e)) := by
  have hpos := mantissa_mul_pos hm e
  -- Shifted left as far as the exponent goes up, and right as far as it goes down.
  have hvalue : (((m <<< (e - 0).toNat : Nat) : ℚ) / 2 ^ (0 - (e - (e - 0).toNat)).toNat) =
      m * 2 ^ e := by
    rw [Nat.shiftLeft_eq, Nat.cast_mul, Nat.cast_pow, Nat.cast_ofNat, mul_div_assoc,
      ← zpow_natCast, ← zpow_natCast, ← zpow_sub₀ two_ne_zero]
    congr 2
    omega
  have hcuts := (cuts_exact (m <<< (e - 0).toNat)).shiftRight (0 - (e - (e - 0).toNat)).toNat
  rw [hvalue] at hcuts
  have hround : roundToInt s m e = s.apply ⌊(m : ℚ) * 2 ^ e⌋ :=
    congrArg s.apply (floor_eq_of_cuts hcuts).symm
  rw [hround]
  unfold integral
  cases s with
  | positive => exact (if_pos hpos.le).symm
  | negative =>
    rw [signed, if_neg (by linarith), Int.ceil_neg]
    rfl

/-- An integer held in the range of 64 bits. -/
def held (k : Int) : Int := max Int64.minValue.toInt (min Int64.maxValue.toInt k)

theorem minValue_eq : Int64.minValue.toInt = -2 ^ 63 := rfl

theorem maxValue_eq : Int64.maxValue.toInt = 2 ^ 63 - 1 := rfl

/-- Nothing in the range is further from the integer when it is held there. -/
theorem abs_held_sub_le (value : Int64) (k : Int) : |held k - value.toInt| ≤ |k - value.toInt| := by
  have hlow := value.le_toInt
  have hhigh := value.toInt_lt
  have hle := le_abs_self (k - value.toInt)
  have hle' := neg_abs_le (k - value.toInt)
  have hpos := abs_nonneg (k - value.toInt)
  unfold held
  rw [minValue_eq, maxValue_eq]
  exact abs_le.mpr ⟨by omega, by omega⟩

theorem held_of_ge {k : Int} (h : 2 ^ 63 ≤ k) : held k = 2 ^ 63 - 1 := by
  unfold held
  rw [minValue_eq, maxValue_eq]
  omega

theorem held_of_le {k : Int} (h : k ≤ -2 ^ 63) : held k = -2 ^ 63 := by
  unfold held
  rw [minValue_eq, maxValue_eq]
  omega

/-- A number is cut back to its integral part, which is held in the range. -/
theorem Denotes.toInt_trunc {x : Binary64} {a : ℚ} (h : Denotes x.unpacked a) :
    (Scalar.trunc x).toInt = held (integral a) := by
  have hint : x.unpacked.toInt Int64.minValue.toInt Int64.maxValue.toInt = integral a := by
    generalize x.unpacked = u at h
    cases h with
    | zero s => exact (integral_intCast 0).symm
    | finite s m e hm => exact roundToInt_eq s hm e
  unfold held
  rw [← hint, ← toInt_ofIntClamp]
  rfl

/-! ## There and back -/

theorem abs_toInt_le (value : Int64) : |(value.toInt : ℚ)| ≤ 2 ^ 63 := by
  have hlow : (-2 ^ 63 : ℚ) ≤ value.toInt := by exact_mod_cast value.le_toInt
  have hhigh : (value.toInt : ℚ) ≤ 2 ^ 63 := by exact_mod_cast value.toInt_lt.le
  exact abs_le.mpr ⟨hlow, hhigh⟩

theorem representable_range : Representable (2 ^ 63) :=
  zpow_natCast (2 : ℚ) 63 ▸ representable_two_zpow (by decide)

theorem denotes_ofInt (value : Int64) :
    ∃ x, Faithful value.toInt x ∧ Denotes (Scalar.ofInt value.toInt : Binary64).unpacked x ∧
      |x| ≤ 2 ^ 63 :=
  (rounds_ofInt value.toInt).denotes representable_range (lt_beyond (by norm_num))
    (abs_toInt_le value)

theorem abs_cast_held_sub_le (value : Int64) (k : Int) :
    |(held k : ℚ) - value.toInt| ≤ |(k : ℚ) - value.toInt| := by
  exact_mod_cast abs_held_sub_le value k

/-- From `2 ^ 53` on doubles are integers. -/
theorem Representable.exists_int {c : ℚ} (h : Representable c) (hc : 2 ^ 53 ≤ |c|) :
    ∃ n : Int, c = n := by
  obtain ⟨n, e, hn, -, rfl⟩ := h
  have he : 0 ≤ e := by
    by_contra hneg
    have hlow := le_of_exponent_lt hn (not_le.mp hneg)
    have hlow' := le_of_exponent_lt (n := -n) (by omega) (not_le.mp hneg)
    have hle : |(n : ℚ) * 2 ^ e| ≤ 2 ^ 52 * 2 ^ (0 : Int) := by
      rw [abs_le]
      push_cast at hlow'
      constructor <;> linarith
    norm_num at hle hc
    linarith
  obtain ⟨k, rfl⟩ := Int.eq_ofNat_of_zero_le he
  exact ⟨n * 2 ^ k, by push_cast; rw [zpow_natCast]⟩

theorem exists_int_of_faithful {k : Int} {x : ℚ} (h : Faithful k x) (hx : Representable x) :
    ∃ n : Int, x = n := by
  have hpow : Representable (2 ^ 53) := zpow_natCast (2 : ℚ) 53 ▸ representable_two_zpow (by decide)
  by_cases hup : (2 : ℚ) ^ 53 ≤ k
  · exact hx.exists_int (((h _ hpow).1 hup).trans (le_abs_self x))
  by_cases hdown : (k : ℚ) ≤ -2 ^ 53
  · exact hx.exists_int ((le_neg.mp ((h _ hpow.neg).2 hdown)).trans (neg_le_abs x))
  · have hlow : -2 ^ 53 < k := by exact_mod_cast not_le.mp hdown
    have hhigh : k < 2 ^ 53 := by exact_mod_cast not_le.mp hup
    exact ⟨k, (representable_intCast (by omega)).faithful.mp h⟩

theorem held_integral_of_faithful {value : Int64} {x : ℚ} (h : Faithful value.toInt x)
    (hx : Representable x) : (held (integral x) : ℚ) = min x (2 ^ 63 - 1) := by
  obtain ⟨n, rfl⟩ := exists_int_of_faithful h hx
  have hlow : -2 ^ 63 ≤ n := by
    exact_mod_cast (h _ representable_range.neg).1 (abs_le.mp (abs_toInt_le value)).1
  have hheld : held n = min n (2 ^ 63 - 1) := by
    unfold held
    rw [minValue_eq, maxValue_eq]
    omega
  rw [integral_intCast, hheld]
  norm_num

theorem trunc_maxValue :
    Scalar.trunc (Scalar.ofInt Int64.maxValue.toInt : Binary64) = Int64.maxValue := rfl

/-! ## Up to whole numbers -/

theorem toNat_toUInt64 (x : Binary64) : x.toFloat.toUInt64.toNat =
    min (UInt64.size - 1) (x.unpacked.toInt 0 (UInt64.size - 1)).toNat :=
  toNat_ofNatClamp _

theorem toNat_toUInt64_le_ceil (x : Binary64) :
    x.toFloat.toUInt64.toNat ≤ (Scalar.ceil x).toNat := by
  show _ ≤ (ceil x.toFloat).toNat
  unfold ceil
  dsimp only
  split
  · rename_i h
    have hroom := h.2
    have hsize : UInt64.size = 2 ^ 64 := rfl
    have hone : (1 : UInt64).toNat = 1 := rfl
    rw [UInt64.toNat_add, Nat.mod_eq_of_lt (by omega)]
    exact Nat.le_add_right _ _
  · exact le_rfl

/-- What is cut up to a count that is not the last one is hardly more than it. -/
theorem Rounds.exists_of_ceil_le {x : Binary64} {q : ℚ} (h : Rounds x q) (hq : 0 ≤ q) {n : Nat}
    (hn : n < UInt64.size - 1) (hle : (Scalar.ceil x).toNat ≤ n) :
    ∃ r, Denotes x.unpacked r ∧ Faithful q r ∧ r < n + 1 := by
  have hwhole := (x.toNat_toUInt64_le_ceil).trans hle
  rw [toNat_toUInt64] at hwhole
  cases h with
  | @infinite r s hr hlarge hx =>
    have hr0 := hr.nonneg hq
    cases s with
    | negative => exact absurd (hlarge.trans (neg_nonpos.mpr hr0)) (not_le.mpr beyond_pos)
    | positive =>
      have hlast : (UnpackedFloat.infinity .positive).toInt 0 (UInt64.size - 1) =
          UInt64.size - 1 := rfl
      rw [hx, hlast] at hwhole
      omega
  | @finite r hr hx =>
    refine ⟨r, hx, hr, ?_⟩
    have hr0 := hr.nonneg hq
    have hint : x.unpacked.toInt 0 (UInt64.size - 1) = ⌊r⌋ := by
      have hintegral : integral r = ⌊r⌋ := if_pos hr0
      rw [← hintegral]
      generalize x.unpacked = u at hx
      cases hx with
      | zero s => exact (integral_intCast 0).symm
      | finite s m e hm => exact roundToInt_eq s hm e
    rw [hint] at hwhole
    have hfloor : ⌊r⌋ ≤ n := by omega
    have hlt := Int.lt_floor_add_one r
    have hcast : (⌊r⌋ : ℚ) ≤ n := by exact_mod_cast hfloor
    linarith

end Fickle.Binary64

import Fickle.Stream

/-! # Sizes drawn from the stream

A word is scaled down to a range by the high half of a product, which is always below the range. So
a size lies within its bound, however many words are passed over.
-/

namespace Fickle.Stream

/-! ## Below a range -/

theorem high_product_lt (w : UInt64) {range : UInt64} (h : 0 < range.toNat) :
    (UInt64.ofNat (w.toNat * range.toNat / 2 ^ 64)).toNat < range.toNat := by
  have hhigh : w.toNat * range.toNat / 2 ^ 64 < range.toNat :=
    Nat.div_lt_of_lt_mul (Nat.mul_lt_mul_of_pos_right w.toNat_lt h)
  rw [UInt64.toNat_ofNat', Nat.mod_eq_of_lt (Nat.lt_trans hhigh range.toNat_lt)]
  exact hhigh

theorem below_lt {range : UInt64} (h : 0 < range.toNat) (zone : UInt64) (tries : Nat)
    (s : Stream) : (below range zone tries s).1.toNat < range.toNat := by
  induction tries generalizing s with
  | zero => exact high_product_lt _ h
  | succ n ih =>
    unfold below
    dsimp only
    split
    · exact high_product_lt _ h
    · exact ih _

/-! ## Up to a bound -/

theorem toInt_toInt64 {k : UInt64} (h : k.toNat < 2 ^ 63) : k.toInt64.toInt = k.toNat := by
  have hsmall : 2 * k.toBitVec.toNat < 2 ^ 64 := by
    rw [UInt64.toNat_toBitVec]
    omega
  rw [← Int64.toInt_toBitVec, UInt64.toBitVec_toInt64, BitVec.toInt_eq_toNat_of_lt hsmall,
    UInt64.toNat_toBitVec]

theorem toNat_toUInt64 {bound : Int64} (h : 1 ≤ bound) :
    (bound.toUInt64.toNat : Int) = bound.toInt := by
  have hone := Int64.le_iff_toInt_le.mp h
  have hnonneg : (0 : Int64) ≤ bound := Int64.le_iff_toInt_le.mpr (Int.le_trans (by decide) hone)
  rw [Int64.toNat_toUInt64_of_le hnonneg]
  exact Int.toNat_of_nonneg (Int64.le_iff_toInt_le.mp hnonneg)

theorem upTo_mem {bound : Int64} (h : 1 ≤ bound) (s : Stream) :
    1 ≤ (upTo bound s).1 ∧ (upTo bound s).1 ≤ bound := by
  have hone : 1 ≤ bound.toInt := Int64.le_iff_toInt_le.mp h
  have hmax := bound.toInt_lt
  have hrange := toNat_toUInt64 h
  have hpos : 0 < bound.toUInt64.toNat := by omega
  have hlt := below_lt hpos ((bound.toUInt64 <<< (63 - bound.toUInt64.log2)) - 1) 1024 s
  unfold upTo
  dsimp only
  generalize (below bound.toUInt64 _ 1024 s).1 = k at hlt ⊢
  have hk : k.toInt64.toInt = k.toNat := toInt_toInt64 (by omega)
  have hsum : (1 + k.toInt64).toInt = 1 + k.toNat := by
    rw [Int64.toInt_add, hk, Int64.toInt_one]
    exact Int.bmod_eq_of_le (by omega) (by omega)
  constructor
  · rw [Int64.le_iff_toInt_le, hsum, Int64.toInt_one]
    omega
  · rw [Int64.le_iff_toInt_le, hsum]
    omega

/-- A word of zeros is scaled down to zero, and never passed over. -/
theorem below_of_zeros (range zone : UInt64) (tries : Nat) (key : Vector UInt32 8) (block : UInt64)
    (rest : List UInt32) :
    below range zone tries ⟨key, block, 0 :: 0 :: rest⟩ = (0, ⟨key, block, rest⟩) := by
  have hword : word64 ⟨key, block, 0 :: 0 :: rest⟩ = (0, ⟨key, block, rest⟩) := rfl
  cases tries with
  | zero => simp [below, hword]
  | succ n => simp [below, hword]

theorem upTo_of_zeros (bound : Int64) (key : Vector UInt32 8) (block : UInt64)
    (rest : List UInt32) :
    upTo bound ⟨key, block, 0 :: 0 :: rest⟩ = (1, ⟨key, block, rest⟩) := by
  unfold upTo
  dsimp only
  rw [below_of_zeros]
  rfl

end Fickle.Stream

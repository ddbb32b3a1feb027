import Fickle.Proofs.Binary64.Arithmetic
import Fickle.Chaos
import Fickle.Stream

/-! # Draws and scales as fractions

A draw of the stream is a whole number of units of `2 ^ -53` below one, so it stands for that
fraction exactly, and so does an offset made of it.
-/

namespace Fickle

open Binary64

/-! ## Draws -/

namespace Stream

theorem denotes_unitStep : Denotes unitStep.unpacked (2 ^ (-53 : Int)) :=
  denotes_of_isWritten (2 ^ 52) (-105) rfl (by norm_num)

theorem denotes_unit (s : Stream) :
    ∃ n : Nat, n < 2 ^ 53 ∧ Denotes (unit s).1.unpacked (n * 2 ^ (-53 : Int)) := by
  have hlt : (s.word64.1 >>> 11).toNat < 2 ^ 53 := by
    have hword := s.word64.1.toNat_lt
    rw [UInt64.toNat_shiftRight, Nat.shiftRight_eq_div_pow]
    exact Nat.div_lt_of_lt_mul hword
  refine ⟨(s.word64.1 >>> 11).toNat, hlt, ?_⟩
  show Denotes (Scalar.ofNat (s.word64.1 >>> 11).toNat * unitStep).unpacked _
  generalize (s.word64.1 >>> 11).toNat = n at hlt
  have hn : (n : ℚ) ≤ 2 ^ 53 := by exact_mod_cast hlt.le
  refine ((denotes_ofNat hlt.le).mul denotes_unitStep).denotes_self
    (representable_natCast_mul hlt.le (by decide)) (lt_beyond ?_)
  rw [abs_of_nonneg (mul_nonneg (Nat.cast_nonneg n) (two_zpow_pos _).le)]
  calc (n : ℚ) * 2 ^ (-53 : Int) ≤ 2 ^ 53 * 2 ^ (-53 : Int) :=
        mul_le_mul_of_nonneg_right hn (two_zpow_pos _).le
    _ ≤ 2 ^ 100 := by norm_num

end Stream

theorem Stream.spans_unit (s : Stream) : Spans 0 1 (unit s).1 := by
  obtain ⟨n, hlt, hunit⟩ := s.denotes_unit
  have hn : (n : ℚ) ≤ 2 ^ 53 := by exact_mod_cast hlt.le
  have hpos := two_zpow_pos (-53)
  refine ⟨_, hunit, mul_nonneg (Nat.cast_nonneg n) hpos.le, ?_⟩
  calc (n : ℚ) * 2 ^ (-53 : Int) ≤ 2 ^ 53 * 2 ^ (-53 : Int) :=
        mul_le_mul_of_nonneg_right hn hpos.le
    _ = 1 := by norm_num

theorem Stream.spans_offset (s : Stream) : Spans (-1) 1 (Draws.offset s).1 := by
  obtain ⟨u, hunit, hlow, hhigh⟩ := s.spans_unit
  obtain ⟨v, hdouble, hlow', hhigh'⟩ : Spans 0 2 ((unit s).1 * 2.0) :=
    (hunit.mul denotes_two).spans representable_zero representable_two (by norm_num) (by norm_num)
      (by linarith) (by linarith)
  exact (hdouble.sub denotes_one).spans representable_one.neg representable_one (by norm_num)
    (by norm_num) (by linarith) (by linarith)

/-! ## Chaos -/

theorem denotes_nine : Denotes (9.0 : Binary64).unpacked 9 :=
  denotes_of_isWritten (9 * 2 ^ 49) (-49) rfl (by norm_num)

/-- The intensity as a fraction, not rounded. -/
def ChaosLevel.share (c : ChaosLevel) : ℚ := (c.val.toNat - 1 : Nat) / 9

theorem ChaosLevel.share_mem (c : ChaosLevel) : 0 ≤ c.share ∧ c.share ≤ 1 := by
  have hval : c.val.toNat ≤ 10 := UInt8.le_iff_toNat_le.mp c.le_ten
  have hcount : ((c.val.toNat - 1 : Nat) : ℚ) ≤ 9 := by
    exact_mod_cast (by omega : c.val.toNat - 1 ≤ 9)
  exact ⟨div_nonneg (Nat.cast_nonneg _) (by norm_num), (div_le_one (by norm_num)).mpr hcount⟩

theorem ChaosLevel.rounds_intensity (c : ChaosLevel) : Rounds (c.intensity : Binary64) c.share := by
  have hval : c.val.toNat ≤ 10 := UInt8.le_iff_toNat_le.mp c.le_ten
  exact (denotes_ofNat (n := c.val.toNat - 1) (by omega)).div denotes_nine (by norm_num)

theorem ChaosLevel.spans_intensity (c : ChaosLevel) : Spans 0 1 (c.intensity : Binary64) :=
  c.rounds_intensity.spans representable_zero representable_one (by norm_num) (by norm_num)
    c.share_mem.1 c.share_mem.2

theorem ChaosLevel.spans_scale (c : ChaosLevel) : Spans 1 2 (c.scale : Binary64) := by
  obtain ⟨i, hintensity, hlow, hhigh⟩ := c.spans_intensity
  exact (denotes_one.add hintensity).spans representable_one representable_two (by norm_num) (by norm_num)
    (by linarith) (by linarith)

/-- Two roundings lie between a scale and what it should be. -/
theorem ChaosLevel.abs_scale_sub_le (c : ChaosLevel) {s : ℚ}
    (hs : Denotes (c.scale : Binary64).unpacked s) : |s - (1 + c.share)| ≤ 2 ^ (-51 : Int) := by
  obtain ⟨i, hi, hlow, hhigh⟩ := c.spans_intensity
  obtain ⟨hshare, hshare'⟩ := c.share_mem
  have hfirst := (c.rounds_intensity.faithful hi).abs_sub_le_unit (e := -53) (by decide)
    (by rw [abs_of_nonneg hshare]; norm_num; exact hshare')
  have hsecond := ((denotes_one.add hi).faithful hs).abs_sub_le_unit (e := -52) (by decide)
    (by rw [abs_of_nonneg (by linarith)]; norm_num; linarith)
  norm_num at hfirst hsecond ⊢
  rw [abs_le] at hfirst hsecond ⊢
  constructor <;> linarith

end Fickle

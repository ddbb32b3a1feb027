import Mathlib.Data.Finite.Defs
import Mathlib.Data.Fintype.EquivFin

/-! # Mixing that loses nothing

A word is mixed by steps that each can be undone: a product with a word that has an inverse, a sum,
a word put over itself at a distance, and a rotation.
-/

namespace Fickle.Word

theorem bijective_add_right (c : UInt64) : Function.Bijective fun x => x + c :=
  Function.bijective_iff_has_inverse.mpr ⟨fun x => x - c,
    fun x => UInt64.add_sub_cancel x c, fun x => UInt64.sub_add_cancel x c⟩

theorem bijective_add_left (c : UInt64) : Function.Bijective fun x => c + x := by
  have hcomm : (fun x => c + x) = fun x => x + c := funext fun x => UInt64.add_comm c x
  rw [hcomm]
  exact bijective_add_right c

theorem bijective_mul_right {c d : UInt64} (h : c * d = 1) : Function.Bijective fun x => x * c := by
  have h' : d * c = 1 := (UInt64.mul_comm d c).trans h
  refine Function.bijective_iff_has_inverse.mpr ⟨fun x => x * d, fun x => ?_, fun x => ?_⟩
  · show x * c * d = x
    rw [UInt64.mul_assoc, h, UInt64.mul_one]
  · show x * d * c = x
    rw [UInt64.mul_assoc, h', UInt64.mul_one]

/-- The bits of a word that is put over itself, `k` places down, give it back from the top. -/
theorem eq_of_xor_shiftRight_eq {w k : Nat} (hk : 0 < k) {x y : BitVec w}
    (h : x ^^^ x >>> k = y ^^^ y >>> k) : x = y := by
  have hbit (n i : Nat) (hn : w ≤ i + n) : x.getLsbD i = y.getLsbD i := by
    induction n generalizing i with
    | zero => rw [BitVec.getLsbD_of_ge x i hn, BitVec.getLsbD_of_ge y i hn]
    | succ n ih =>
      have habove := ih (k + i) (by omega)
      have hsum := congrArg (fun z => z.getLsbD i) h
      simp only [BitVec.getLsbD_xor, BitVec.getLsbD_ushiftRight, habove] at hsum
      exact Bool.xor_left_inj.mp hsum
  exact BitVec.eq_of_getLsbD_eq fun i _ => hbit w i (Nat.le_add_left w i)

theorem bijective_xor_shiftRight {k : UInt64} (hk : k % 64 ≠ 0) :
    Function.Bijective fun x : UInt64 => x ^^^ x >>> k := by
  have : Finite UInt64 := Finite.of_injective UInt64.toFin fun _ _ => UInt64.toFin_inj.mp
  refine Finite.injective_iff_bijective.mp fun x y h => UInt64.toBitVec_inj.mp ?_
  have hpos : 0 < (k.toBitVec % 64).toNat := by
    refine Nat.pos_of_ne_zero fun hzero => hk (UInt64.toBitVec_inj.mp ?_)
    exact BitVec.eq_of_toNat_eq hzero
  have hbits := congrArg UInt64.toBitVec h
  exact eq_of_xor_shiftRight_eq hpos hbits

/-- Where a rotation takes a bit. -/
theorem getLsbD_rotateLeft_add {w k i : Nat} (hk : k < w) (hi : i < w) (x : BitVec w) :
    (x.rotateLeft k).getLsbD ((i + k) % w) = x.getLsbD i := by
  rw [BitVec.getLsbD_rotateLeft, Nat.mod_eq_of_lt hk]
  by_cases hlow : i + k < w
  · have hkept : ¬ i + k < k := by omega
    rw [Nat.mod_eq_of_lt hlow]
    simp [hkept, hlow]
  · have hplace : (i + k) % w = i + k - w := by
      rw [Nat.mod_eq_sub_mod (by omega), Nat.mod_eq_of_lt (by omega)]
    have hwrapped : i + k - w < k := by omega
    have hback : w - k + (i + k - w) = i := by omega
    rw [hplace]
    simp [hwrapped, hback]

theorem eq_of_rotateLeft_eq {w k : Nat} (hk : k < w) {x y : BitVec w}
    (h : x.rotateLeft k = y.rotateLeft k) : x = y := by
  refine BitVec.eq_of_getLsbD_eq fun i hi => ?_
  rw [← getLsbD_rotateLeft_add hk hi x, h, getLsbD_rotateLeft_add hk hi y]

end Fickle.Word

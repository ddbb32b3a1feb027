import Mathlib.Tactic.NormNum
import Fickle.Proofs.Binary64.Rounding

/-! # Arithmetic on doubles

An operation on doubles gives what its exact result is rounded to, or an infinity where that is too
large. So bounds on exact results are bounds on doubles, and errors stay small beside the numbers.
-/

open Float.Model Float.Model.UnpackedFloat

namespace Fickle.Binary64

/-! ## Rounded doubles -/

/-- The largest fraction that a double stands for. -/
def largest : ℚ := (2 ^ 53 - 1) * 2 ^ 971

/-- The least fraction that is too large however it is rounded. -/
def beyond : ℚ := 2 ^ 53 * 2 ^ 971

theorem largest_pos : 0 < largest :=
  mul_pos (by norm_num) (pow_pos two_pos 971)

theorem largest_lt_beyond : largest < beyond :=
  mul_lt_mul_of_pos_right (by norm_num) (pow_pos two_pos 971)

theorem beyond_pos : 0 < beyond := largest_pos.trans largest_lt_beyond

theorem lt_beyond {q : ℚ} (h : q ≤ 2 ^ 100) : q < beyond := by
  have hpow : (2 : ℚ) ^ 100 < 2 ^ (53 + 971) := pow_lt_pow_right₀ one_lt_two (by decide)
  rw [pow_add] at hpow
  exact h.trans_lt hpow

theorem representable_largest : Representable largest := by
  refine ⟨2 ^ 53 - 1, 971, by decide, by decide, ?_⟩
  rw [Int.cast_sub, Int.cast_pow, Int.cast_ofNat, Int.cast_one]
  rfl

theorem representable_beyond : Representable beyond := by
  refine ⟨2 ^ 53, 971, by decide, by decide, ?_⟩
  rw [Int.cast_pow, Int.cast_ofNat]
  rfl

/-- A double holds nothing beyond the largest one. -/
theorem Denotes.abs_le_largest {u : UnpackedFloat} {a : ℚ} (h : Denotes u a) (hu : Fits u) :
    |a| ≤ largest := by
  cases h with
  | zero s =>
    rw [abs_zero]
    exact largest_pos.le
  | finite s m e hm =>
    obtain ⟨⟨hlt, -, -⟩, he⟩ := hu
    have hm' : (m : ℚ) ≤ 2 ^ 53 - 1 := by
      rw [le_sub_iff_add_le]
      exact_mod_cast hlt
    have he' : (2 : ℚ) ^ e ≤ 2 ^ (971 : Int) := zpow_le_zpow_right₀ one_le_two he
    rw [abs_signed, abs_of_pos (mantissa_mul_pos hm e)]
    exact mul_le_mul hm' he' (two_zpow_pos e).le (by norm_num)

/-- A double that an exact result is rounded to. -/
inductive Rounds (x : Binary64) (q : ℚ) : Prop
  | finite {r : ℚ} (h : Faithful q r) (hx : Denotes x.unpacked r)
  | infinite {r : ℚ} (s : Sign) (h : Faithful q r) (hlarge : beyond ≤ signed s r)
    (hx : x.unpacked = .infinity s)

theorem Rounded.pack {u : UnpackedFloat} {q : ℚ} (h : Rounded u q) :
    Rounds (ofFloat ⟨Float.Model.pack u⟩) q := by
  obtain ⟨hu, r, hr, hvalue⟩ := h
  cases hvalue with
  | zero s =>
    refine .finite hr ?_
    have hfits : Fits (.zero s) := trivial
    rw [unpacked_pack, unpack_pack hfits]
    exact .zero s
  | finite s m e hm =>
    by_cases he : e ≤ 971
    · have hfits : Fits (.finite s m e hm) := ⟨hu, he⟩
      refine .finite hr ?_
      rw [unpacked_pack, unpack_pack hfits]
      exact .finite s m e hm
    · refine .infinite s hr ?_ ?_
      · have hm' : (2 : ℚ) ^ 52 ≤ m := by
          exact_mod_cast hu.full.resolve_right (by omega)
        have he' : (2 : ℚ) * 2 ^ 971 ≤ 2 ^ e := by
          rw [← pow_succ', ← zpow_natCast]
          exact zpow_le_zpow_right₀ one_le_two (by omega)
        rw [signed_signed]
        calc beyond = 2 ^ 52 * (2 * 2 ^ 971) := by
              rw [← mul_assoc, ← pow_succ]
              rfl
          _ ≤ m * 2 ^ e := mul_le_mul hm' he' (by positivity) (Nat.cast_nonneg m)
      · rw [unpacked_pack, unpack_pack_of_large (by omega)]

theorem unpacked_sub_eq_add_neg (u v : UnpackedFloat) :
    UnpackedFloat.sub Format.binary64 u v = UnpackedFloat.add Format.binary64 u v.neg := by
  cases u with
  | notANumber => rfl
  | infinity s => cases v <;> rfl
  | zero s => cases v <;> rfl
  | finite s m e hm =>
    cases v with
    | notANumber => rfl
    | infinity s' => rfl
    | zero s' => rfl
    | finite s' m' e' hm' =>
      have hsign (k : Int) : (-s').apply k = -s'.apply k := by
        cases s'
        · exact (Int.neg_neg k).symm
        · rfl
      show normalize _ (_ - _) _ _ = normalize _ (_ + (-s').apply _) _ _
      rw [hsign, Int.sub_eq_add_neg]

protected theorem sub_eq_add_neg (x y : Binary64) : x - y = x + -y := by
  show ofFloat ⟨Float.Model.pack (UnpackedFloat.sub _ x.unpacked y.unpacked)⟩ =
    ofFloat ⟨Float.Model.pack (UnpackedFloat.add _ x.unpacked (-y).unpacked)⟩
  rw [unpacked_negate, unpacked_sub_eq_add_neg]

section

variable {x y : Binary64} {a b q : ℚ}

theorem Denotes.add (hx : Denotes x.unpacked a) (hy : Denotes y.unpacked b) :
    Rounds (x + y) (a + b) :=
  (rounded_add x.fits_unpacked.isCanonical y.fits_unpacked.isCanonical hx hy).pack

theorem Denotes.sub (hx : Denotes x.unpacked a) (hy : Denotes y.unpacked b) :
    Rounds (x - y) (a - b) := by
  rw [Binary64.sub_eq_add_neg, sub_eq_add_neg]
  exact hx.add hy.negate

theorem Denotes.mul (hx : Denotes x.unpacked a) (hy : Denotes y.unpacked b) :
    Rounds (x * y) (a * b) :=
  (rounded_mul x.fits_unpacked.isCanonical y.fits_unpacked.isCanonical hx hy).pack

theorem Denotes.div (hx : Denotes x.unpacked a) (hy : Denotes y.unpacked b) (hb : b ≠ 0) :
    Rounds (x / y) (a / b) :=
  (rounded_div x.fits_unpacked.isCanonical y.fits_unpacked.isCanonical hx hy hb).pack

theorem Rounds.isNaN_eq_false (h : Rounds x q) : x.isNaN = false := by
  rw [← Bool.not_eq_true, isNaN_eq_true_iff]
  intro hx
  cases h with
  | finite h hfinite =>
    rw [hx] at hfinite
    cases hfinite
  | infinite s h hlarge hinfinite =>
    rw [hx] at hinfinite
    cases hinfinite

theorem Rounds.faithful {r : ℚ} (h : Rounds x q) (hx : Denotes x.unpacked r) : Faithful q r := by
  cases h with
  | finite hr hx' => exact hx'.unique hx ▸ hr
  | infinite s hr hlarge hx' =>
    rw [hx'] at hx
    cases hx

/-- What is within the range of doubles stays there. -/
theorem Rounds.denotes {c : ℚ} (h : Rounds x q) (hc : Representable c) (hlt : c < beyond)
    (hq : |q| ≤ c) : ∃ r, Faithful q r ∧ Denotes x.unpacked r ∧ |r| ≤ c := by
  cases h with
  | finite hr hx => exact ⟨_, hr, hx, hr.keeps_bound hc hq⟩
  | infinite s hr hlarge hx =>
    have hle := hr.keeps_bound hc hq
    exact absurd hlt (not_lt.mpr ((hlarge.trans (le_abs_signed s _)).trans hle))

theorem Rounds.exists_denotes (h : Rounds x q) (hq : |q| ≤ 2 ^ 100) :
    ∃ r, Denotes x.unpacked r ∧ Faithful q r := by
  have hlimit : Representable (2 ^ 100) := by
    rw [← zpow_natCast]
    exact representable_two_zpow (by decide)
  obtain ⟨r, hr, hx, -⟩ := h.denotes hlimit (lt_beyond le_rfl) hq
  exact ⟨r, hx, hr⟩

/-- What a double holds exactly is not rounded. -/
theorem Rounds.denotes_self (h : Rounds x q) (hq : Representable q) (hlt : |q| < beyond) :
    Denotes x.unpacked q := by
  obtain ⟨r, hr, hx, -⟩ := h.denotes hq.abs hlt le_rfl
  rwa [hq.faithful.mp hr] at hx

/-- What is far enough beyond the range of doubles becomes infinite. -/
theorem Rounds.infinite_of_le (h : Rounds x q) (s : Sign) (hq : beyond ≤ signed s q) :
    x.unpacked = .infinity s := by
  have hpos := beyond_pos
  have hfaithful {r : ℚ} (hr : Faithful q r) : beyond ≤ signed s r :=
    ((hr.signed s) _ representable_beyond).1 hq
  cases h with
  | finite hr hx =>
    have hle := (le_abs_signed s _).trans (hx.abs_le_largest x.fits_unpacked)
    exact absurd ((hfaithful hr).trans hle) (not_le.mpr largest_lt_beyond)
  | infinite s' hr hlarge hx =>
    rw [hx]
    have hsame := hfaithful hr
    -- An infinity of the other sign would be on the other side of zero.
    cases s <;> cases s' <;> simp only [signed] at hsame hlarge
    · rfl
    · linarith
    · linarith
    · rfl

end

/-! ## Constants and counts -/

/-- Whether a number is written as `k` units of `2 ^ e`. -/
def isWritten (k e : Int) : UnpackedFloat → Bool
  | .zero _ => k == 0
  | .finite s m e' _ => s.apply m == k && e' == e
  | .infinity _ | .notANumber => false

theorem denotes_of_isWritten {u : UnpackedFloat} {q : ℚ} (k e : Int)
    (h : isWritten k e u = true) (hq : (k : ℚ) * 2 ^ e = q) : Denotes u q := by
  subst hq
  cases u with
  | zero s =>
    obtain rfl : k = 0 := beq_iff_eq.mp h
    rw [Int.cast_zero, zero_mul]
    exact .zero s
  | finite s m e' hm =>
    obtain ⟨hk, he⟩ := (Bool.and_eq_true_iff).mp h
    obtain rfl := beq_iff_eq.mp hk
    obtain rfl := beq_iff_eq.mp he
    rw [← signed_natCast, ← signed_mul]
    exact .finite s m e' hm
  | infinity s => cases h
  | notANumber => cases h

theorem denotes_zero : Denotes (0.0 : Binary64).unpacked 0 :=
  denotes_of_isWritten 0 0 rfl (by norm_num)

theorem denotes_half : Denotes (0.5 : Binary64).unpacked (1 / 2) :=
  denotes_of_isWritten (2 ^ 52) (-53) rfl (by norm_num)

theorem denotes_one : Denotes (1.0 : Binary64).unpacked 1 :=
  denotes_of_isWritten (2 ^ 52) (-52) rfl (by norm_num)

theorem denotes_two : Denotes (2.0 : Binary64).unpacked 2 :=
  denotes_of_isWritten (2 ^ 52) (-51) rfl (by norm_num)

theorem rounds_toFloat (w : UInt64) : Rounds (ofFloat w.toFloat) w.toNat := by
  have h := rounded_normalize w.toNat 0
  rw [zpow_zero, mul_one, Int.cast_natCast] at h
  exact h.pack

/-- A whole number is first written with more places than it needs. -/
theorem rounded_ofScientific {n : Nat} (h : 0 < n) :
    Rounded (UnpackedFloat.ofScientific Format.binary64 n 0) n := by
  have hlarge : ¬ (0 : Int) > 2 ^ Format.binary64.exponentBits := by decide
  have hsmall : ¬ (0 : Int) < -(2 ^ Format.binary64.exponentBits + (n.log2 : Int)) := by
    have hpos : (0 : Int) < 2 ^ Format.binary64.exponentBits := by decide
    omega
  -- Said of any two numbers, so that the product is not computed.
  have hmul (m m' : Nat) (e e' : Int) (hm : 0 < m) (hm' : 0 < m') :
      UnpackedFloat.mul Format.binary64 (.finite .positive m e hm) (.finite .positive m' e' hm') =
        roundWithAccuracy Format.binary64 .positive (m * m') (e + e') .exact := rfl
  have hten : 10 ^ (0 : Int).toNat = 1 := rfl
  have hexponent : -((Format.binary64.mantissaBits : Nat) : Int) + 0 = -53 := rfl
  have hplaces : 2 ^ 52 ≤ n <<< Format.binary64.mantissaBits := by
    show 2 ^ 52 ≤ n <<< 53
    rw [Nat.shiftLeft_eq]
    omega
  have hvalue : ((n <<< Format.binary64.mantissaBits : Nat) : ℚ) * 2 ^ (-53 : Int) = n := by
    show ((n <<< 53 : Nat) : ℚ) * 2 ^ (-53 : Int) = n
    rw [Nat.shiftLeft_eq, Nat.cast_mul, mul_assoc]
    norm_num
  have hround := rounded_roundWithAccuracy .positive (e := -53)
    (cuts_exact (n <<< Format.binary64.mantissaBits)) (.inl (le_log2_of_two_pow_le hplaces))
  rw [hvalue] at hround
  unfold UnpackedFloat.ofScientific
  rw [dif_neg h.ne', if_neg hlarge, if_neg hsmall, if_pos (Int.le_refl 0), hmul, hten, hexponent,
    Nat.mul_one]
  exact hround

theorem rounds_ofNat (n : Nat) : Rounds (Scalar.ofNat n : Binary64) n := by
  show Rounds (ofFloat (Float.ofScientific n false 0)) n
  unfold Float.ofScientific
  split
  · rename_i h
    -- Up to `2 ^ 53` a count is converted as a word, and then multiplied by one.
    have hword : n.toUInt64.toNat = n := Nat.mod_eq_of_lt (Nat.lt_trans h.1 (by decide))
    have hvalue : Denotes n.toUInt64.toFloat.toModel.unpack n := by
      have hround := rounds_toFloat n.toUInt64
      rw [hword] at hround
      have hbound : |(n : ℚ)| ≤ 2 ^ 53 := by
        rw [Nat.abs_cast]
        exact_mod_cast h.1.le
      have hexact := hround.denotes_self (representable_natCast h.1.le)
        (lt_beyond (hbound.trans (by norm_num)))
      rwa [unpacked_ofFloat] at hexact
    have hone : Denotes (Float.ofBits 0x3FF0000000000000).toModel.unpack 1 :=
      denotes_of_isWritten (2 ^ 52) (-52) rfl (by norm_num)
    have hround := rounded_mul (fits_unpack _).isCanonical (fits_unpack _).isCanonical hvalue hone
    rw [mul_one] at hround
    exact hround.pack
  · rename_i h
    exact (rounded_ofScientific (by omega)).pack

theorem denotes_ofNat {n : Nat} (h : n ≤ 2 ^ 53) : Denotes (Scalar.ofNat n : Binary64).unpacked n := by
  have hn : |(n : ℚ)| ≤ 2 ^ 53 := by
    rw [Nat.abs_cast]
    exact_mod_cast h
  exact (rounds_ofNat n).denotes_self (representable_natCast h)
    (lt_beyond (hn.trans (by norm_num)))

theorem isWidth_iff {x : Binary64} :
    Scalar.isWidth x = true ↔ ∃ a, Denotes x.unpacked a ∧ 0 ≤ a := by
  unfold Scalar.isWidth
  rw [Bool.and_eq_true_iff, isFinite_iff, Bool.not_eq_true', decide_eq_false_iff_not]
  constructor
  · rintro ⟨⟨a, hx⟩, hneg⟩
    rw [hx.lt_iff denotes_zero, not_lt] at hneg
    exact ⟨a, hx, hneg⟩
  · rintro ⟨a, hx, ha⟩
    refine ⟨⟨a, hx⟩, ?_⟩
    rwa [hx.lt_iff denotes_zero, not_lt]

/-! ## Doubles in an interval -/

/-- The double stands for a fraction from `lo` to `hi`. -/
def Spans (lo hi : ℚ) (x : Binary64) : Prop := ∃ a, Denotes x.unpacked a ∧ lo ≤ a ∧ a ≤ hi

theorem Spans.mono {lo hi lo' hi' : ℚ} {x : Binary64} (h : Spans lo hi x) (hlo : lo' ≤ lo)
    (hhi : hi ≤ hi') : Spans lo' hi' x := by
  obtain ⟨a, hx, hle, hge⟩ := h
  exact ⟨a, hx, hlo.trans hle, hge.trans hhi⟩

theorem Rounds.spans {x : Binary64} {lo hi q : ℚ} (h : Rounds x q) (hlo : Representable lo)
    (hhi : Representable hi) (hlow : -2 ^ 100 ≤ lo) (hhigh : hi ≤ 2 ^ 100) (hle : lo ≤ q)
    (hge : q ≤ hi) : Spans lo hi x := by
  cases h with
  | finite hr hx => exact ⟨_, hx, (hr lo hlo).1 hle, (hr hi hhi).2 hge⟩
  | infinite s hr hlarge hx =>
    have hle' := hlow.trans ((hr lo hlo).1 hle)
    have hge' := ((hr hi hhi).2 hge).trans hhigh
    have hlimit := lt_beyond (le_refl ((2 : ℚ) ^ 100))
    cases s
    · exact absurd (hlarge.trans (neg_le.mp hle')) (not_le.mpr hlimit)
    · exact absurd (hlarge.trans hge') (not_le.mpr hlimit)

/-! ## Infinities -/

section

variable {x y : Binary64} {a b : ℚ} {s : Sign}

theorem Denotes.le_infinity_iff (hx : Denotes x.unpacked a) (hy : y.unpacked = .infinity s) :
    x ≤ y ↔ s = .positive := by
  rw [Binary64.le_iff]
  show x.unpacked.le y.unpacked = true ↔ _
  rw [hy]
  generalize x.unpacked = u at hx
  cases hx <;> cases s
  · exact iff_of_false nofun nofun
  · exact iff_of_true rfl rfl
  · exact iff_of_false nofun nofun
  · exact iff_of_true rfl rfl

theorem Denotes.infinity_le_iff (hy : Denotes y.unpacked b) (hx : x.unpacked = .infinity s) :
    x ≤ y ↔ s = .negative := by
  rw [Binary64.le_iff]
  show x.unpacked.le y.unpacked = true ↔ _
  rw [hx]
  generalize y.unpacked = v at hy
  cases hy <;> cases s
  · exact iff_of_true rfl rfl
  · exact iff_of_false nofun nofun
  · exact iff_of_true rfl rfl
  · exact iff_of_false nofun nofun

theorem denotes_or (x : Binary64) :
    (∃ a, Denotes x.unpacked a) ∨ (∃ s, x.unpacked = .infinity s) ∨ x.isNaN = true := by
  cases hx : x.unpacked with
  | zero s => exact .inl ⟨_, .zero s⟩
  | finite s m e hm => exact .inl ⟨_, .finite s m e hm⟩
  | infinity s => exact .inr (.inl ⟨s, rfl⟩)
  | notANumber => exact .inr (.inr (isNaN_eq_true_iff.mpr hx))

theorem isNaN_eq_false_of_ge (h : x ≤ y) : y.isNaN = false := by
  rw [Binary64.le_iff] at h
  rw [← Bool.not_eq_true, isNaN_eq_true_iff]
  intro hy
  have hle : x.unpacked.le y.unpacked = true := h
  rw [hy] at hle
  cases hx : x.unpacked <;> rw [hx] at hle <;> cases hle

/-- What lies between two fractions is one. -/
theorem spans_of_le {lo hi : Binary64} (hlo : Denotes lo.unpacked a) (hhi : Denotes hi.unpacked b)
    (hle : lo ≤ x) (hge : x ≤ hi) : Spans a b x := by
  rcases x.denotes_or with ⟨c, hx⟩ | ⟨s, hx⟩ | hx
  · exact ⟨c, hx, (hlo.le_iff hx).mp hle, (hx.le_iff hhi).mp hge⟩
  · rw [hlo.le_infinity_iff hx] at hle
    rw [hhi.infinity_le_iff hx, hle] at hge
    cases hge
  · rw [isNaN_eq_false_of_le hge] at hx
    cases hx

theorem nonneg_iff : (0.0 : Binary64) ≤ x ↔
    (∃ a, Denotes x.unpacked a ∧ 0 ≤ a) ∨ x.unpacked = .infinity .positive := by
  constructor
  · intro h
    rcases x.denotes_or with ⟨a, hx⟩ | ⟨s, hx⟩ | hx
    · exact .inl ⟨a, hx, (denotes_zero.le_iff hx).mp h⟩
    · rw [denotes_zero.le_infinity_iff hx] at h
      exact .inr (h ▸ hx)
    · rw [isNaN_eq_false_of_ge h] at hx
      cases hx
  · rintro (⟨a, hx, ha⟩ | hx)
    · exact (denotes_zero.le_iff hx).mpr ha
    · exact (denotes_zero.le_infinity_iff hx).mpr rfl

theorem Rounds.nonneg {q : ℚ} (h : Rounds x q) (hq : 0 ≤ q) : (0.0 : Binary64) ≤ x := by
  rw [nonneg_iff]
  cases h with
  | finite hr hx => exact .inl ⟨_, hx, hr.nonneg hq⟩
  | infinite s hr hlarge hx =>
    have hr0 := hr.nonneg hq
    have hpos := beyond_pos
    cases s
    · exact absurd (hlarge.trans (neg_nonpos.mpr hr0)) (not_le.mpr hpos)
    · exact .inr hx

theorem unpacked_eq_infinity {u : UnpackedFloat} (h : u = .infinity s) :
    (ofFloat ⟨Float.Model.pack u⟩).unpacked = .infinity s := by
  have hfits : Fits (.infinity s) := trivial
  rw [h, unpacked_pack, unpack_pack hfits]

theorem Denotes.add_infinity (hx : Denotes x.unpacked a) (hy : y.unpacked = .infinity s) :
    (x + y).unpacked = .infinity s := by
  refine unpacked_eq_infinity (u := UnpackedFloat.add Format.binary64 x.unpacked y.unpacked) ?_
  rw [hy]
  generalize x.unpacked = u at hx
  cases hx <;> rfl

theorem Denotes.infinity_add (hy : Denotes y.unpacked b) (hx : x.unpacked = .infinity s) :
    (x + y).unpacked = .infinity s := by
  refine unpacked_eq_infinity (u := UnpackedFloat.add Format.binary64 x.unpacked y.unpacked) ?_
  rw [hx]
  generalize y.unpacked = v at hy
  cases hy <;> rfl

theorem Denotes.infinity_sub (hy : Denotes y.unpacked b) (hx : x.unpacked = .infinity s) :
    (x - y).unpacked = .infinity s := by
  rw [Binary64.sub_eq_add_neg]
  exact hy.negate.infinity_add hx

theorem abs_infinity (hx : x.unpacked = .infinity s) :
    (Scalar.abs x).unpacked = .infinity .positive := by
  refine unpacked_eq_infinity (u := x.unpacked.abs) ?_
  rw [hx]
  rfl

theorem Denotes.div_infinity (hx : Denotes x.unpacked a) (hy : y.unpacked = .infinity s) :
    Denotes (x / y).unpacked 0 := by
  have hdiv : ∃ s', UnpackedFloat.div Format.binary64 x.unpacked y.unpacked = .zero s' := by
    rw [hy]
    generalize x.unpacked = u at hx
    cases hx <;> exact ⟨_, rfl⟩
  obtain ⟨s', hdiv⟩ := hdiv
  have hfits : Fits (.zero s') := trivial
  show Denotes (ofFloat ⟨Float.Model.pack (UnpackedFloat.div Format.binary64 x.unpacked
    y.unpacked)⟩).unpacked 0
  rw [hdiv, unpacked_pack, unpack_pack hfits]
  exact .zero s'

theorem nonneg_add (hx : (0.0 : Binary64) ≤ x) (hy : (0.0 : Binary64) ≤ y) :
    (0.0 : Binary64) ≤ x + y := by
  rcases nonneg_iff.mp hx with ⟨a, hx, ha⟩ | hx
  · rcases nonneg_iff.mp hy with ⟨b, hy, hb⟩ | hy
    · exact (hx.add hy).nonneg (add_nonneg ha hb)
    · exact nonneg_iff.mpr (.inr (hx.add_infinity hy))
  · rcases nonneg_iff.mp hy with ⟨b, hy, hb⟩ | hy
    · exact nonneg_iff.mpr (.inr (hy.infinity_add hx))
    · refine nonneg_iff.mpr (.inr (unpacked_eq_infinity
        (u := UnpackedFloat.add Format.binary64 x.unpacked y.unpacked) ?_))
      rw [hx, hy]
      rfl

/-- An infinity times zero is no number. -/
theorem Denotes.mul_infinity (hx : Denotes x.unpacked a) (ha : 0 ≤ a)
    (hy : y.unpacked = .infinity .positive) :
    (x * y).unpacked = .infinity .positive ∨ a = 0 ∧ (x * y).isNaN = true := by
  generalize hu : x.unpacked = u at hx
  cases hx with
  | zero s =>
    refine .inr ⟨rfl, isNaN_eq_true_iff.mpr ?_⟩
    have hfits : Fits .notANumber := trivial
    refine (unpacked_pack (UnpackedFloat.mul Format.binary64 x.unpacked y.unpacked)).trans ?_
    rw [hu, hy]
    exact unpack_pack hfits
  | finite s m e hm =>
    refine .inl (unpacked_eq_infinity
      (u := UnpackedFloat.mul Format.binary64 x.unpacked y.unpacked) ?_)
    rw [hu, hy]
    cases s
    · exact absurd (mantissa_mul_pos hm e) (not_lt.mpr (neg_nonneg.mp ha))
    · rfl

theorem sign_mul_comm (s s' : Sign) : s * s' = s' * s := by
  cases s <;> cases s' <;> rfl

theorem unpacked_mul_comm (u v : UnpackedFloat) :
    UnpackedFloat.mul Format.binary64 u v = UnpackedFloat.mul Format.binary64 v u := by
  cases u with
  | notANumber => cases v <;> rfl
  | infinity s => cases v <;> first | rfl | exact congrArg _ (sign_mul_comm _ _)
  | zero s => cases v <;> first | rfl | exact congrArg _ (sign_mul_comm _ _)
  | finite s m e hm =>
    cases v with
    | notANumber => rfl
    | infinity s' => exact congrArg _ (sign_mul_comm _ _)
    | zero s' => exact congrArg _ (sign_mul_comm _ _)
    | finite s' m' e' hm' =>
      show roundWithAccuracy _ (s * s') (m * m') (e + e') _ =
        roundWithAccuracy _ (s' * s) (m' * m) (e' + e) _
      rw [sign_mul_comm, Nat.mul_comm, Int.add_comm]

protected theorem mul_comm (x y : Binary64) : x * y = y * x :=
  congrArg (fun u => ofFloat ⟨Float.Model.pack u⟩) (unpacked_mul_comm x.unpacked y.unpacked)

theorem nonneg_mul_of_pos (hx : Denotes x.unpacked a) (ha : 0 < a) (hy : (0.0 : Binary64) ≤ y) :
    (0.0 : Binary64) ≤ x * y := by
  rcases nonneg_iff.mp hy with ⟨b, hy, hb⟩ | hy
  · exact (hx.mul hy).nonneg (mul_nonneg ha.le hb)
  · exact nonneg_iff.mpr (.inr ((hx.mul_infinity ha.le hy).resolve_right fun h => ha.ne' h.1))

/-- A product of numbers that are not negative is none either, if it is a number. -/
theorem nonneg_mul (hx : (0.0 : Binary64) ≤ x) (hy : (0.0 : Binary64) ≤ y) :
    (0.0 : Binary64) ≤ x * y ∨ (x * y).isNaN = true := by
  have hside {x y : Binary64} {a : ℚ} (hx : Denotes x.unpacked a) (ha : 0 ≤ a)
      (hy : y.unpacked = .infinity .positive) :
      (0.0 : Binary64) ≤ x * y ∨ (x * y).isNaN = true :=
    (hx.mul_infinity ha hy).imp (fun h => nonneg_iff.mpr (.inr h)) And.right
  rcases nonneg_iff.mp hx with ⟨a, hx, ha⟩ | hx
  · rcases nonneg_iff.mp hy with ⟨b, hy, hb⟩ | hy
    · exact .inl ((hx.mul hy).nonneg (mul_nonneg ha hb))
    · exact hside hx ha hy
  · rcases nonneg_iff.mp hy with ⟨b, hy, hb⟩ | hy
    · rw [Binary64.mul_comm]
      exact hside hy hb hx
    · refine .inl (nonneg_iff.mpr (.inr (unpacked_eq_infinity
        (u := UnpackedFloat.mul Format.binary64 x.unpacked y.unpacked) ?_)))
      rw [hx, hy]
      rfl

/-! ## The larger and the smaller one -/

theorem nonneg_larger (x : Binary64) : (0.0 : Binary64) ≤ Scalar.larger x 0.0 := by
  have hzero : (0.0 : Binary64) ≤ 0.0 := (denotes_zero.le_iff denotes_zero).mpr le_rfl
  unfold Scalar.larger
  split
  · exact hzero
  · rename_i hneg
    split
    · rename_i hnumber
      exact (le_iff_not_lt denotes_zero.isNaN_eq_false (isNaN_eq_false_of_le hnumber)).mpr hneg
    · exact hzero

theorem Denotes.larger (hx : Denotes x.unpacked a) (hy : Denotes y.unpacked b) :
    Denotes (Scalar.larger x y).unpacked (max a b) := by
  unfold Scalar.larger
  split
  · rename_i hlt
    rwa [max_eq_right ((hx.lt_iff hy).mp hlt).le]
  · rename_i hlt
    rw [if_pos ((hx.le_iff hx).mpr le_rfl), max_eq_left]
    · exact hx
    · exact not_lt.mp (mt (hx.lt_iff hy).mpr hlt)

theorem Denotes.smaller (hx : Denotes x.unpacked a) (hy : Denotes y.unpacked b) :
    Denotes (Scalar.smaller x y).unpacked (min a b) := by
  unfold Scalar.smaller
  split
  · rename_i hlt
    rwa [min_eq_right ((hy.lt_iff hx).mp hlt).le]
  · rename_i hlt
    rw [if_pos ((hx.le_iff hx).mpr le_rfl), min_eq_left]
    · exact hx
    · exact not_lt.mp (mt (hy.lt_iff hx).mpr hlt)

/-- What is cut to a bound lies between zero and the bound, if it is not negative or no number. -/
theorem spans_smaller (hy : Denotes y.unpacked b) (hb : 0 ≤ b)
    (hx : (0.0 : Binary64) ≤ x ∨ x.isNaN = true) : Spans 0 b (Scalar.smaller x y) := by
  have hbound : Spans 0 b y := ⟨b, hy, hb, le_rfl⟩
  unfold Scalar.smaller
  split
  · exact hbound
  · rename_i hlt
    split
    · rename_i hnumber
      have hnan := isNaN_eq_false_of_le hnumber
      have hnonneg : (0.0 : Binary64) ≤ x := hx.resolve_right (by rw [hnan]; exact nofun)
      exact spans_of_le denotes_zero hy hnonneg ((le_iff_not_lt hnan hy.isNaN_eq_false).mpr hlt)
    · exact hbound

end

end Fickle.Binary64

import Fickle.Decimal.Layout
import Fickle.Proofs.Binary64.Value
import Fickle.Proofs.Json.Lexer

/-! # Finite numbers are written as numerals

The digits that are chosen for a number never begin with a zero, and wherever the point is put among
them, or an exponent after them, the result is a numeral of the document.
-/

namespace Fickle

namespace Decimal

open Json (Whole Exponent Tail Unsigned)
open Text (isDigit_of_mem_toDigits)

/-! ## Digits -/

theorem head?_toDigits {n : Nat} (hn : n ≠ 0) : (Nat.toDigits 10 n).head? ≠ some '0' := by
  induction n using Nat.strongRecOn with
  | ind n ih =>
    rcases Nat.lt_or_ge n 10 with hlt | hge
    · rw [Nat.toDigits_of_lt_base hlt]
      have hall : ∀ n < 10, n ≠ 0 → [Nat.digitChar n].head? ≠ some '0' := by decide
      exact hall n hlt hn
    · have hfront := ih (n / 10) (by omega) (by omega)
      have hne : Nat.toDigits 10 (n / 10) ≠ [] := Nat.toDigits_ne_nil
      obtain ⟨c, cs, hcs⟩ := List.exists_cons_of_ne_nil hne
      rw [hcs] at hfront
      rw [Nat.toDigits_of_base_le (by decide) hge, hcs]
      exact hfront

theorem whole_toDigits (n : Nat) : Whole (Nat.toDigits 10 n) where
  digits := isDigit_of_mem_toDigits
  nonempty := Nat.toDigits_ne_nil
  leading := by
    intro h
    have hn : n = 0 := Decidable.not_not.mp fun hn => head?_toDigits hn h
    rw [hn, Nat.toDigits_zero]
    rfl

theorem tail_zero : Tail ['.', '0'] :=
  .fraction ['0'] (List.cons_ne_nil _ _) (List.all_eq_true.mp rfl) (.inl rfl)

theorem Digits.digits_strip_ne_zero {d : Digits} (h : d.digits ≠ 0) : d.strip.digits ≠ 0 := by
  fun_induction Digits.strip d with
  | case1 d hd ih => exact ih (by dsimp only; omega)
  | case2 => exact h

theorem Magnitude.digits_ne_zero_of_onGrid {x : Magnitude} {tie : Tie} {e : Int} {d : Digits}
    (h : x.onGrid tie e = some d) : d.digits ≠ 0 := by
  -- Rounding up never gives zero, and rounding down only where it stays above zero.
  have hup : (⟨x.quotient e + 1, e⟩ : Digits).digits ≠ 0 := Nat.succ_ne_zero _
  unfold onGrid at h
  dsimp only at h
  split at h
  · rename_i hdown _
    have hbelow : x.quotient e ≠ 0 := by
      rintro hzero
      rw [hzero] at hdown
      cases hdown
    split at h
    · cases h
      exact hup
    · cases h
      exact hbelow
    · split at h <;> cases h
      · exact hup
      · split
        · exact hbelow
        · exact hup
  · rename_i hdown _
    cases h
    rintro hzero
    rw [show x.quotient e = 0 from hzero] at hdown
    cases hdown
  · cases h
    exact hup
  · cases h

theorem Magnitude.digits_shortest_ne_zero {x : Magnitude} (h : x.significand ≠ 0) (tie : Tie) :
    (x.shortest tie).digits ≠ 0 := by
  apply Digits.digits_strip_ne_zero
  cases hgrid : (List.range 17).findSome? fun n : Nat => x.onGrid tie (x.scale - 1 - n) with
  | none =>
    simp [exact, h]
  | some d =>
    obtain ⟨n, -, hn⟩ := List.exists_of_findSome?_eq_some hgrid
    exact digits_ne_zero_of_onGrid hn

/-! ## Layouts -/

theorem isDigit_of_mem_append_zeros {ds : List Char} (h : ∀ c ∈ ds, c.isDigit = true) (n : Nat) :
    (∀ c ∈ ds ++ List.replicate n '0', c.isDigit = true) ∧
      ∀ c ∈ List.replicate n '0' ++ ds, c.isDigit = true := by
  have hzeros : ∀ c ∈ List.replicate n '0', c.isDigit = true := by
    intro c hc
    rw [List.eq_of_mem_replicate hc]
    rfl
  exact ⟨List.forall_mem_append.mpr ⟨h, hzeros⟩, List.forall_mem_append.mpr ⟨hzeros, h⟩⟩

/-- The digits of a number with the point put anywhere. -/
theorem unsigned_pointed {digits : String} (h : Whole digits.toList)
    (hleading : digits.toList.head? ≠ some '0') (e : Int) :
    Unsigned (pointed digits e true).toList := by
  unfold pointed
  dsimp only
  split
  · -- The point stands before all the digits, after all of them, or among them.
    have hfraction := (isDigit_of_mem_append_zeros h.digits (-e - 1).toNat).2
    refine ⟨['0'], _, whole_toDigits 0,
      .fraction _ (by simp [h.nonempty]) hfraction (.inl rfl), ?_⟩
    simp
  split
  · refine ⟨digits.toList ++ List.replicate (e + 1 - digits.length).toNat '0', _,
      ⟨(isDigit_of_mem_append_zeros h.digits _).1, by simp [h.nonempty], ?_⟩,
      tail_zero, ?_⟩
    · obtain ⟨c, cs, hcs⟩ := List.exists_cons_of_ne_nil h.nonempty
      rw [hcs] at hleading ⊢
      exact fun hzero => absurd hzero hleading
    · simp
  · rename_i hneg hlong
    have hlength : digits.toList.length = digits.length := String.length_toList
    refine ⟨digits.toList.take (e + 1).toNat, _, ⟨?_, ?_, ?_⟩,
      .fraction (digits.toList.drop (e + 1).toNat) ?_ ?_ (.inl rfl), ?_⟩
    · exact fun c hc => h.digits c (List.mem_of_mem_take hc)
    · simp [h.nonempty]
      omega
    · rw [List.head?_take, if_neg (by omega)]
      exact fun hzero => absurd hzero hleading
    · simp
      omega
    · exact fun c hc => h.digits c (List.mem_of_mem_drop hc)
    · simp

/-- The digits of a number with an exponent after them. -/
theorem unsigned_scientific {digits : String} (h : Whole digits.toList) (e : Int) :
    Unsigned (scientific digits e true).toList := by
  have hexponent : Exponent ('e' :: (if e < 0 then '-' else '+') :: Nat.toDigits 10 e.natAbs) := by
    refine .inr ⟨_, _, rfl, ?_, Nat.toDigits_ne_nil, isDigit_of_mem_toDigits⟩
    split
    · exact .inr rfl
    · exact .inl rfl
  unfold scientific
  dsimp only
  split
  · rename_i c d ds hds
    rw [hds] at h
    refine ⟨[c], _, ⟨?_, by simp, fun _ => rfl⟩,
      .fraction (d :: ds) (by simp) ?_ hexponent, ?_⟩
    · simpa using h.digits c List.mem_cons_self
    · exact fun x hx => h.digits x (List.mem_cons_of_mem _ hx)
    · split <;> simp
  · refine ⟨digits.toList, _, h, .exponent hexponent, ?_⟩
    split <;> simp

/-- A finite number is written as a numeral, with a sign or without. -/
theorem exists_unsigned_render {x : Binary64} (hx : Scalar.isFinite x = true) :
    ∃ cs, Unsigned cs ∧ ((Layout.document.render x).toList = cs ∨
      (Layout.document.render x).toList = '-' :: cs) := by
  have hsign (text : String) : ((if x.isNegative then "-" else "") ++ text).toList = text.toList ∨
      ((if x.isNegative then "-" else "") ++ text).toList = '-' :: text.toList := by
    cases x.isNegative
    · exact .inl (by simp)
    · exact .inr (by simp)
  unfold Layout.render
  rw [if_neg (Bool.eq_false_iff.mp (Binary64.denotes_fraction hx).isNaN_eq_false)]
  dsimp only
  rw [if_neg (by simp [hx])]
  split
  · exact ⟨['0', '.', '0'], ⟨['0'], _, whole_toDigits 0, tail_zero, rfl⟩, hsign "0.0"⟩
  · rename_i hzero
    have hdigits := Magnitude.digits_shortest_ne_zero hzero Layout.document.tie
    generalize (Magnitude.ofBits x.bits).shortest Layout.document.tie = d at hdigits ⊢
    have hwhole : Whole (toString d.digits).toList := by simpa using whole_toDigits _
    have hleading : (toString d.digits).toList.head? ≠ some '0' := by
      simpa using head?_toDigits hdigits
    generalize toString d.digits = digits at hwhole hleading ⊢
    generalize d.exponent + digits.length - 1 = e
    -- Either way of writing the digits gives a numeral.
    have hbody : Unsigned (if Layout.document.positional e then
        pointed digits e Layout.document.pointZero
        else scientific digits e Layout.document.plus).toList := by
      split
      · exact unsigned_pointed hwhole hleading e
      · exact unsigned_scientific hwhole e
    exact ⟨_, hbody, hsign _⟩

/-- A finite number by itself is one word of a document. -/
theorem exists_tokens?_render {x : Binary64} (hx : Scalar.isFinite x = true) :
    ∃ n, Json.tokens? (Layout.document.render x).toList = some [.number n] := by
  obtain ⟨cs, hcs, hrender | hrender⟩ := exists_unsigned_render hx
  · rw [hrender]
    exact (Json.exists_tokens?_of_unsigned hcs).1
  · rw [hrender]
    exact (Json.exists_tokens?_of_unsigned hcs).2

end Decimal

end Fickle

import Fickle.Json.Lexer
import Fickle.Proofs.Text

/-! # Words stay words

A document is put together from parts. What the lexer makes of a part does not change when more
follows, unless that begins with a character that would make the last word longer.
-/

namespace Fickle.Json

open Text (takeWhile_append_of_head dropWhile_append_of_head takeWhile_append_of_all
  dropWhile_append_of_all takeWhile_of_all dropWhile_of_all)

/-! ## One word -/

theorem takeText_append {cs left : List Char} {items : List Item}
    (h : takeText cs = some (items, left)) (rest : List Char) :
    takeText (cs ++ rest) = some (items, left ++ rest) := by
  fun_induction takeText cs generalizing items left with
  | case1 => cases h
  | case2 r =>
    cases h
    rfl
  | case3 a b c d r ih =>
    simp only [Option.bind_eq_bind, Option.bind_eq_some_iff] at h
    obtain ⟨n, hn, ⟨items', r'⟩, hr, ⟨⟩⟩ := h
    simp [takeText, hn, ih hr]
  | case4 e r _ ih =>
    simp only [Option.bind_eq_bind, Option.bind_eq_some_iff] at h
    obtain ⟨c, hc, ⟨items', r'⟩, hr, ⟨⟩⟩ := h
    -- The escape of a unit comes first in the lexer, and `u` is no short escape.
    have he : e ≠ 'u' := by
      rintro rfl
      cases hc
    rw [List.cons_append, List.cons_append, takeText]
    · simp [hc, ih hr]
    · rintro _ _ _ _ _ rfl
      exact absurd rfl he
  | case5 => cases h
  | case6 c r hquote _ _ hplain ih =>
    simp only [Option.bind_eq_bind, Option.bind_eq_some_iff] at h
    obtain ⟨⟨items', r'⟩, hr, ⟨⟩⟩ := h
    have hc : c ≠ '\\' := fun hc => hplain (.inr hc)
    rw [List.cons_append, takeText]
    · simp [hplain, ih hr]
    · exact hquote
    · rintro _ _ _ _ _ rfl
      exact absurd rfl hc
    · rintro _ _ rfl
      exact absurd rfl hc

/-- Nothing in front of these characters is made longer by them. -/
def Apart : List Char → Prop
  | [] => True
  | c :: _ => isNumeralChar c = false ∧ isWordChar c = false

theorem apart_cons {c : Char} (hnumeral : isNumeralChar c = false) (hword : isWordChar c = false)
    (cs : List Char) : Apart (c :: cs) :=
  ⟨hnumeral, hword⟩

theorem Apart.takeWhile_isNumeralChar {rest : List Char} (h : Apart rest) :
    rest.takeWhile isNumeralChar = [] := by
  cases rest with
  | nil => rfl
  | cons c rest => simp [h.1]

theorem Apart.takeWhile_isWordChar {rest : List Char} (h : Apart rest) :
    rest.takeWhile isWordChar = [] := by
  cases rest with
  | nil => rfl
  | cons c rest => simp [h.2]

theorem takeToken_append {c : Char} {cs left : List Char} {t : Token}
    (h : takeToken c cs = some (t, left)) {rest : List Char} (hrest : Apart rest) :
    takeToken c (cs ++ rest) = some (t, left ++ rest) := by
  unfold takeToken at h ⊢
  cases hp : punctuation? c with
  | some t' =>
    rw [hp] at h
    cases h
    rfl
  | none =>
    rw [hp] at h
    dsimp only at h ⊢
    -- A text ends where its quote does; the other words end before a character that is not theirs.
    by_cases hquote : (c == '\x22') = true
    · rw [if_pos hquote] at h ⊢
      obtain ⟨⟨items, left'⟩, htext, ⟨⟩⟩ := Option.map_eq_some_iff.mp h
      rw [takeText_append htext rest]
      rfl
    rw [if_neg hquote] at h ⊢
    by_cases hnumeral : (c == '-' || c.isDigit) = true
    · rw [if_pos hnumeral] at h ⊢
      obtain ⟨n, hn, ⟨⟩⟩ := Option.map_eq_some_iff.mp h
      rw [takeWhile_append_of_head cs hrest.takeWhile_isNumeralChar, hn,
        dropWhile_append_of_head cs hrest.takeWhile_isNumeralChar]
      rfl
    · rw [if_neg hnumeral] at h ⊢
      obtain ⟨t', ht', ⟨⟩⟩ := Option.map_eq_some_iff.mp h
      rw [takeWhile_append_of_head cs hrest.takeWhile_isWordChar, ht',
        dropWhile_append_of_head cs hrest.takeWhile_isWordChar]
      rfl

/-! ## Words in a row -/

theorem tokens?_cons_of_isSpace {c : Char} (h : isSpace c = true) (cs : List Char) :
    tokens? (c :: cs) = tokens? cs := by
  rw [tokens?, if_pos h]

theorem tokens?_append_of_isSpace {blank : List Char} (h : ∀ c ∈ blank, isSpace c = true)
    (cs : List Char) : tokens? (blank ++ cs) = tokens? cs := by
  induction blank with
  | nil => rfl
  | cons c blank ih =>
    rw [List.cons_append, tokens?_cons_of_isSpace (h c List.mem_cons_self),
      ih fun c hc => h c (List.mem_cons_of_mem _ hc)]

theorem tokens?_cons_of_takeToken {c : Char} {cs left : List Char} {t : Token}
    (hc : isSpace c = false) (h : takeToken c cs = some (t, left)) :
    tokens? (c :: cs) = (tokens? left).map (t :: ·) := by
  rw [tokens?, if_neg (Bool.eq_false_iff.mp hc)]
  split
  · rename_i hnone
    rw [h] at hnone
    cases hnone
  · rename_i hsome
    rw [h] at hsome
    cases hsome
    rfl

theorem tokens?_of_takeToken {c : Char} {cs : List Char} {t : Token} (hc : isSpace c = false)
    (h : takeToken c cs = some (t, [])) : tokens? (c :: cs) = some [t] := by
  rw [tokens?_cons_of_takeToken hc h, tokens?]
  rfl

theorem tokens?_cons_of_punctuation? {c : Char} {t : Token} (hc : isSpace c = false)
    (h : punctuation? c = some t) (cs : List Char) :
    tokens? (c :: cs) = (tokens? cs).map (t :: ·) := by
  apply tokens?_cons_of_takeToken hc
  rw [takeToken, h]

/-- Words stay words, whatever follows them at a distance. -/
theorem tokens?_append {cs rest : List Char} {ts : List Token} (h : tokens? cs = some ts)
    (hrest : Apart rest) : tokens? (cs ++ rest) = (tokens? rest).map (ts ++ ·) := by
  fun_induction tokens? cs generalizing ts with
  | case1 =>
    cases h
    simp
  | case2 c cs hspace ih => rw [List.cons_append, tokens?_cons_of_isSpace hspace, ih h]
  | case3 => cases h
  | case4 c cs hspace t left htoken ih =>
    obtain ⟨ts', hts', rfl⟩ := Option.map_eq_some_iff.mp h
    rw [List.cons_append, tokens?_cons_of_takeToken (Bool.eq_false_iff.mpr hspace)
      (takeToken_append htoken hrest), ih hts', Option.map_map]
    rfl

/-! ## Numerals -/

/-- The whole part of a numeral: digits without leading zeros. -/
structure Whole (ds : List Char) : Prop where
  digits : ∀ c ∈ ds, c.isDigit = true
  nonempty : ds ≠ []
  leading : ds.head? = some '0' → ds.length = 1

/-- An exponent with its sign, or nothing. -/
def Exponent (cs : List Char) : Prop :=
  cs = [] ∨ ∃ sign ds, cs = 'e' :: sign :: ds ∧ (sign = '+' ∨ sign = '-') ∧ ds ≠ [] ∧
    ∀ c ∈ ds, c.isDigit = true

/-- What may follow the whole part. -/
inductive Tail : List Char → Prop where
  | exponent {ex : List Char} : Exponent ex → Tail ex
  | fraction (ds : List Char) {ex : List Char} : ds ≠ [] → (∀ c ∈ ds, c.isDigit = true) →
      Exponent ex → Tail ('.' :: (ds ++ ex))

/-- A numeral without its sign. -/
def Unsigned (cs : List Char) : Prop :=
  ∃ whole tail, Whole whole ∧ Tail tail ∧ cs = whole ++ tail

theorem Exponent.takeWhile_isDigit {cs : List Char} (h : Exponent cs) :
    cs.takeWhile Char.isDigit = [] := by
  obtain rfl | ⟨sign, ds, rfl, -⟩ := h <;> rfl

theorem Tail.takeWhile_isDigit {cs : List Char} (h : Tail cs) :
    cs.takeWhile Char.isDigit = [] := by
  cases h with
  | exponent hex => exact hex.takeWhile_isDigit
  | fraction => rfl

theorem exists_exponent? {cs : List Char} (h : Exponent cs) : ∃ e, exponent? cs = some e := by
  obtain rfl | ⟨sign, ds, rfl, hsign, hne, hds⟩ := h
  · exact ⟨none, rfl⟩
  have hall : ds.all Char.isDigit = true := List.all_eq_true.mpr hds
  obtain rfl | rfl := hsign
  · exact ⟨some (false, ds), by simp [exponent?, hne, hall]⟩
  · exact ⟨some (true, ds), by simp [exponent?, hne, hall]⟩

theorem Whole.check {ds : List Char} (h : Whole ds) :
    (ds.isEmpty || (ds.head? == some '0' && ds.length != 1)) = false := by
  have hleading := h.leading
  simp only [h.nonempty, List.isEmpty_eq_false_iff.mpr, ne_eq, not_false_eq_true, Bool.false_or]
  by_cases hzero : ds.head? = some '0'
  · simp [hzero, hleading hzero]
  · simp [hzero]

theorem ne_minus_of_isDigit {c : Char} (h : c.isDigit = true) (cs rest : List Char) :
    c :: cs ≠ '-' :: rest := by
  rintro ⟨⟩
  cases h

theorem numeral?_neg {c : Char} (hc : c.isDigit = true) (cs : List Char) :
    numeral? ('-' :: c :: cs) = (numeral? (c :: cs)).map fun n => { n with negative := true } := by
  have hsign := ne_minus_of_isDigit hc cs
  unfold numeral?
  simp only
  split
  · rfl
  split
  · split
    · rfl
    · simp [Option.map_map, Function.comp_def]
  · simp [Option.map_map, Function.comp_def]

theorem numeral?_of_whole {ds : List Char} (h : Whole ds) :
    numeral? ds = some ⟨false, ds, [], none, true⟩ := by
  have htake := takeWhile_of_all h.digits
  have hdrop := dropWhile_of_all h.digits
  have hcheck := h.check
  rcases ds with _ | ⟨c, ds⟩
  · exact absurd rfl h.nonempty
  have hsign := ne_minus_of_isDigit (h.digits c List.mem_cons_self) ds
  unfold numeral?
  simp only [htake, hdrop, hcheck]
  rfl

theorem exists_numeral?_append {ds tail : List Char} (h : Whole ds) (htail : Tail tail) :
    ∃ n, numeral? (ds ++ tail) = some n := by
  have htake := takeWhile_append_of_all h.digits htail.takeWhile_isDigit
  have hdrop := dropWhile_append_of_all h.digits htail.takeWhile_isDigit
  have hcheck := h.check
  rcases ds with _ | ⟨c, ds⟩
  · exact absurd rfl h.nonempty
  -- Without a sign the numeral is its digits and its tail.
  have hsign := ne_minus_of_isDigit (h.digits c List.mem_cons_self) (ds ++ tail)
  rw [List.cons_append] at htake hdrop ⊢
  unfold numeral?
  simp only [htake, hdrop, hcheck]
  cases htail with
  | exponent hex =>
    obtain ⟨e, he⟩ := exists_exponent? hex
    obtain rfl | ⟨sign, ds, rfl, -⟩ := hex
    · exact ⟨_, rfl⟩
    · simp [he]
  | fraction ds hds hdigits hex =>
    obtain ⟨e, he⟩ := exists_exponent? hex
    simp [takeWhile_append_of_all hdigits hex.takeWhile_isDigit,
      dropWhile_append_of_all hdigits hex.takeWhile_isDigit, hds, he]

theorem isNumeralChar_of_isDigit {c : Char} (h : c.isDigit = true) : isNumeralChar c = true := by
  simp [isNumeralChar, h]

theorem Exponent.isNumeralChar {cs : List Char} (h : Exponent cs) :
    ∀ c ∈ cs, isNumeralChar c = true := by
  obtain rfl | ⟨sign, ds, rfl, hsign, -, hds⟩ := h
  · nofun
  · rintro c (_ | ⟨_, _ | ⟨_, hc⟩⟩)
    · rfl
    · obtain rfl | rfl := hsign <;> rfl
    · exact isNumeralChar_of_isDigit (hds c hc)

theorem Tail.isNumeralChar {cs : List Char} (h : Tail cs) : ∀ c ∈ cs, isNumeralChar c = true := by
  cases h with
  | exponent hex => exact hex.isNumeralChar
  | fraction ds _ hds hex =>
    rintro c (_ | ⟨_, hc⟩)
    · rfl
    · obtain hc | hc := List.mem_append.mp hc
      · exact isNumeralChar_of_isDigit (hds c hc)
      · exact hex.isNumeralChar c hc

/-! ## Words by themselves -/

theorem tokens?_of_numeral? {c : Char} {cs : List Char} {n : Numeral}
    (hc : (c == '-' || c.isDigit) = true) (hcs : ∀ x ∈ cs, isNumeralChar x = true)
    (h : numeral? (c :: cs) = some n) : tokens? (c :: cs) = some [.number n] := by
  have hne : ∀ x, x ≠ '-' → x.isDigit = false → c ≠ x := by
    rintro x hx hd rfl
    simp [hx, hd] at hc
  have hspace : isSpace c = false := by simp [isSpace, hne]
  have hpunctuation : punctuation? c = none := by
    unfold punctuation?
    split <;> simp at *
  apply tokens?_of_takeToken hspace
  simp [takeToken, hpunctuation, hne, hc, takeWhile_of_all hcs, dropWhile_of_all hcs, h]

theorem exists_tokens?_of_unsigned {cs : List Char} (h : Unsigned cs) :
    (∃ n, tokens? cs = some [.number n]) ∧ ∃ n, tokens? ('-' :: cs) = some [.number n] := by
  obtain ⟨whole, tail, hwhole, htail, rfl⟩ := h
  obtain ⟨n, hn⟩ := exists_numeral?_append hwhole htail
  have hchars : ∀ c ∈ whole ++ tail, isNumeralChar c = true :=
    List.forall_mem_append.mpr
      ⟨fun c hc => isNumeralChar_of_isDigit (hwhole.digits c hc), htail.isNumeralChar⟩
  rcases whole with _ | ⟨c, ds⟩
  · exact absurd rfl hwhole.nonempty
  have hc := hwhole.digits c List.mem_cons_self
  rw [List.cons_append] at hn hchars ⊢
  refine ⟨⟨n, ?_⟩, { n with negative := true }, ?_⟩
  · exact tokens?_of_numeral? (by simp [hc])
      (fun x hx => hchars x (List.mem_cons_of_mem _ hx)) hn
  · refine tokens?_of_numeral? rfl hchars ?_
    rw [numeral?_neg hc, hn]
    rfl

theorem tokens?_of_literal? {c : Char} {cs : List Char} {t : Token} (hc : isWordChar c = true)
    (hcs : ∀ x ∈ cs, isWordChar x = true) (h : literal? (c :: cs) = some t) :
    tokens? (c :: cs) = some [t] := by
  have hne : ∀ x, isWordChar x = false → c ≠ x := by
    rintro x hx rfl
    rw [hc] at hx
    cases hx
  have hdigit : c.isDigit = false := by
    simp [isWordChar, Char.isDigit, UInt32.le_iff_toNat_le, Char.le_def] at hc ⊢
    omega
  have hspace : isSpace c = false := by simp [isSpace, isWordChar, hne]
  have hpunctuation : punctuation? c = none := by
    unfold punctuation?
    split <;> simp [isWordChar] at *
  apply tokens?_of_takeToken hspace
  simp [takeToken, hpunctuation, hne, isWordChar, hdigit, takeWhile_of_all hcs,
    dropWhile_of_all hcs, h]

end Fickle.Json

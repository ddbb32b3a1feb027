import Fickle.Proofs.Decimal.Layout
import Fickle.Settings.Document

/-! # What is written is read

A part of a settings document is one word, or words that belong together. Whatever stands after it,
these words are read as the value that was written.
-/

namespace Fickle

theorem Text.toList_hex_two {n : Nat} (h : n < 256) :
    (hex 2 n).toList = [hexDigit (n / 16), hexDigit (n % 16)] := by
  have hhigh : n / 16 % 16 = n / 16 := Nat.mod_eq_of_lt (by omega)
  rw [hex, String.toList_ofList]
  show [hexDigit (n / 16 ^ 1 % 16), hexDigit (n / 16 ^ 0 % 16)] = _
  rw [Nat.pow_one, Nat.pow_zero, Nat.div_one, hhigh]

namespace Json

/-! ## Characters -/

/-- Puts an item in front of what the lexer makes of the rest of a text. -/
def itemBefore (item : Item) (r : Option (List Item × List Char)) :
    Option (List Item × List Char) :=
  r.map fun (items, left) => (item :: items, left)

theorem takeText_escape {e c : Char} (h : shortEscape? e = some c) (cs : List Char) :
    takeText ('\\' :: e :: cs) = itemBefore (.char c) (takeText cs) := by
  have he : e ≠ 'u' := by
    rintro rfl
    cases h
  rw [takeText]
  · rw [h]
    cases takeText cs <;> rfl
  · rintro _ _ _ _ _ rfl
    exact absurd rfl he

theorem takeText_unit {a b c d : Char} {n : Nat} (h : unit? a b c d = some n) (cs : List Char) :
    takeText ('\\' :: 'u' :: a :: b :: c :: d :: cs) = itemBefore (.unit n) (takeText cs) := by
  rw [takeText, h]
  cases takeText cs <;> rfl

theorem takeText_plain {c : Char} (hlow : 0x20 ≤ c.toNat) (hquote : c ≠ '\x22') (hslash : c ≠ '\\')
    (cs : List Char) : takeText (c :: cs) = itemBefore (.char c) (takeText cs) := by
  rw [takeText]
  · rw [if_neg (by simp [hslash]; omega)]
    cases takeText cs <;> rfl
  · exact hquote
  · rintro _ _ _ _ _ rfl
    exact absurd rfl hslash
  · rintro _ _ rfl
    exact absurd rfl hslash

theorem hexValue?_hexDigit {n : Nat} (h : n < 16) : hexValue? (Text.hexDigit n) = some n := by
  have hall : ∀ n < 16, hexValue? (Text.hexDigit n) = some n := by decide
  exact hall n h

theorem unit?_hexDigit {n : Nat} (h : n < 256) :
    unit? '0' '0' (Text.hexDigit (n / 16)) (Text.hexDigit (n % 16)) = some n := by
  have hzero : hexValue? '0' = some 0 := rfl
  rw [unit?, hzero, hexValue?_hexDigit (by omega), hexValue?_hexDigit (by omega)]
  simp
  omega

theorem charsOf_unit {n : Nat} (hhigh : isHighSurrogate n = false) (hlow : isLowSurrogate n = false)
    (items : List Item) : charsOf (.unit n :: items) = (charsOf items).map (Char.ofNat n :: ·) := by
  rcases items with _ | ⟨_ | m, items⟩ <;> simp [charsOf, hhigh, hlow]

/-- A character that is written is one item of its text, and that item is the character. -/
theorem exists_item_escaped (c : Char) :
    ∃ item, (∀ cs, takeText ((Settings.escaped c).toList ++ cs) = itemBefore item (takeText cs)) ∧
      ∀ items, charsOf (item :: items) = (charsOf items).map (c :: ·) := by
  unfold Settings.escaped
  -- Seven characters have an escape of their own.
  split
  · exact ⟨_, takeText_escape (e := '\x22') rfl, fun _ => rfl⟩
  · exact ⟨_, takeText_escape (e := '\\') rfl, fun _ => rfl⟩
  · exact ⟨_, takeText_escape (e := 'b') rfl, fun _ => rfl⟩
  · exact ⟨_, takeText_escape (e := 'f') rfl, fun _ => rfl⟩
  · exact ⟨_, takeText_escape (e := 'n') rfl, fun _ => rfl⟩
  · exact ⟨_, takeText_escape (e := 'r') rfl, fun _ => rfl⟩
  · exact ⟨_, takeText_escape (e := 't') rfl, fun _ => rfl⟩
  · rename_i hquote hslash _ _ _ _ _
    split
    · rename_i hlow
      -- The other control characters are written as units, which are no surrogates.
      refine ⟨.unit c.toNat, fun cs => ?_, fun items => ?_⟩
      · rw [String.toList_append, Text.toList_hex_two (by omega)]
        exact takeText_unit (unit?_hexDigit (by omega)) cs
      · rw [charsOf_unit, Char.ofNat_toNat]
        · simp [isHighSurrogate]
          omega
        · simp [isLowSurrogate]
          omega
    · rename_i hlow
      refine ⟨.char c, fun cs => ?_, fun _ => rfl⟩
      simpa using takeText_plain (by omega) hquote hslash cs

theorem exists_items_escaped (cs rest : List Char) :
    ∃ items, takeText (cs.flatMap (fun c => (Settings.escaped c).toList) ++ '\x22' :: rest) =
      some (items, rest) ∧ charsOf items = some cs := by
  induction cs with
  | nil => exact ⟨[], rfl, rfl⟩
  | cons c cs ih =>
    obtain ⟨items, htake, hchars⟩ := ih
    obtain ⟨item, hitem, hchar⟩ := exists_item_escaped c
    refine ⟨item :: items, ?_, ?_⟩
    · rw [List.flatMap_cons, List.append_assoc, hitem, htake]
      rfl
    · rw [hchar, hchars]
      rfl

end Json

namespace Settings

open Json

/-! ## Words -/

theorem toList_textValue (s : String) :
    (textValue s).toList =
      '\x22' :: (s.toList.flatMap (fun c => (escaped c).toList) ++ ['\x22']) := by
  simp [textValue, String.toList_join, List.flatMap_map]

theorem tokens?_textValue (s : String) :
    tokens? (textValue s).toList = some [.text (some s)] := by
  obtain ⟨items, htake, hchars⟩ := exists_items_escaped s.toList []
  rw [toList_textValue]
  apply tokens?_of_takeToken rfl
  simp [takeToken, punctuation?, htake, hchars]

/-! ## Values -/

/-- A text, the words that it is made of, and the value that they are read as, whatever stands after
them. -/
structure Spells (text : String) (ts : List Token) (v : Value) : Prop where
  words : tokens? text.toList = some ts
  value : ∀ n rest, 2 * ts.length ≤ n → takeValue n (ts ++ rest) = some (v, rest)

variable {text : String} {ts : List Token} {v : Value}

theorem Spells.value?_eq (h : Spells text ts v) : value? text = some v := by
  have hvalue := h.value (2 * ts.length + 1) [] (by omega)
  rw [List.append_nil] at hvalue
  rw [value?, h.words]
  dsimp only
  rw [hvalue]

theorem spells_word {t : Token} (hwords : tokens? text.toList = some [t])
    (hvalue : ∀ n rest, takeValue (n + 1) (t :: rest) = some (v, rest)) : Spells text [t] v where
  words := hwords
  value := by
    intro n rest hn
    obtain ⟨n, rfl⟩ : ∃ m, n = m + 1 := ⟨n - 1, by simp at hn; omega⟩
    exact hvalue n rest

theorem spells_textValue (s : String) : Spells (textValue s) [.text (some s)] (.text (some s)) :=
  spells_word (tokens?_textValue s) fun _ _ => rfl

theorem spells_null : Spells "null" [.null] .null :=
  spells_word (tokens?_of_literal? (c := 'n') rfl (List.all_eq_true.mp rfl) rfl) fun _ _ => rfl

theorem spells_boolValue (b : Bool) : Spells (boolValue b) [.bool b] (.bool b) := by
  cases b
  · exact spells_word (tokens?_of_literal? (c := 'f') rfl (List.all_eq_true.mp rfl) rfl) fun _ _ => rfl
  · exact spells_word (tokens?_of_literal? (c := 't') rfl (List.all_eq_true.mp rfl) rfl) fun _ _ => rfl

/-- The numeral of a natural number. -/
def numeralOf (n : Nat) : Numeral := ⟨false, Nat.toDigits 10 n, [], none, true⟩

theorem spells_nat (n : Nat) :
    Spells (toString n) [.number (numeralOf n)] (.number (numeralOf n)) := by
  refine spells_word ?_ fun _ _ => rfl
  have hwhole := Decimal.whole_toDigits n
  have hnumeral := numeral?_of_whole hwhole
  have htoList : (toString n).toList = Nat.toDigits 10 n := by simp
  rw [htoList, numeralOf]
  obtain ⟨c, cs, hcs⟩ := List.exists_cons_of_ne_nil hwhole.nonempty
  have hdigits := hwhole.digits
  rw [hcs] at hdigits hnumeral ⊢
  refine tokens?_of_numeral? (by simp [hdigits c List.mem_cons_self]) ?_ hnumeral
  exact fun x hx => isNumeralChar_of_isDigit (hdigits x (List.mem_cons_of_mem _ hx))

/-- A number is one word, and so one value. -/
theorem exists_spells_numberValue (x : Binary64) : ∃ t v, Spells (numberValue x) [t] v := by
  unfold numberValue
  split
  · rename_i hx
    obtain ⟨n, hn⟩ := Decimal.exists_tokens?_render hx
    exact ⟨_, _, spells_word hn fun _ _ => rfl⟩
  · exact ⟨_, _, spells_null⟩

/-! ## Objects -/

/-- A field of an object, as it is written and as it is read. -/
structure Member where
  name : String
  text : String
  words : List Token
  value : Value
  plain : textValue name = "\"" ++ name ++ "\""
  spells : Spells text words value

namespace Member

/-- The line that the field stands on. -/
def line (indent : String) (m : Member) : List Char :=
  (indent ++ "  \"" ++ m.name ++ "\": " ++ m.text).toList

/-- The words from a field on, up to the closing brace. -/
def wordsFrom : Member → List Member → List Token
  | m, [] => .text (some m.name) :: .colon :: (m.words ++ [.closeBrace])
  | m, next :: ms => .text (some m.name) :: .colon :: (m.words ++ .comma :: wordsFrom next ms)

theorem tokens?_line {indent : String} (hindent : ∀ c ∈ indent.toList, isSpace c = true)
    (m : Member) {rest : List Char} (hrest : Apart rest) :
    tokens? (m.line indent ++ rest) =
      (tokens? rest).map fun us => .text (some m.name) :: .colon :: (m.words ++ us) := by
  have hline : m.line indent ++ rest = (indent.toList ++ [' ', ' ']) ++
      ((textValue m.name).toList ++ ':' :: ' ' :: (m.text.toList ++ rest)) := by
    simp [line, m.plain]
  have hblank : ∀ c ∈ indent.toList ++ [' ', ' '], isSpace c = true :=
    List.forall_mem_append.mpr ⟨hindent, List.all_eq_true.mp rfl⟩
  rw [hline, tokens?_append_of_isSpace hblank,
    tokens?_append (tokens?_textValue m.name) (apart_cons (c := ':') rfl rfl _),
    tokens?_cons_of_punctuation? rfl rfl, tokens?_cons_of_isSpace rfl,
    tokens?_append m.spells.words hrest, Option.map_map, Option.map_map]
  rfl

theorem tokens?_wordsFrom {indent : String} (hindent : ∀ c ∈ indent.toList, isSpace c = true)
    (m : Member) (ms : List Member) :
    tokens? ((",\n".toList).intercalate ((m :: ms).map (line indent)) ++
      '\n' :: (indent.toList ++ ['\x7d'])) = some (wordsFrom m ms) := by
  induction ms generalizing m with
  | nil =>
    have hend : tokens? ('\n' :: (indent.toList ++ ['\x7d'])) = some [.closeBrace] := by
      rw [tokens?_cons_of_isSpace rfl, tokens?_append_of_isSpace hindent,
        tokens?_cons_of_punctuation? rfl rfl, tokens?]
      rfl
    rw [List.map_singleton, List.intercalate_singleton,
      m.tokens?_line hindent (apart_cons (c := '\n') rfl rfl _), hend]
    rfl
  | cons next ms ih =>
    -- The comma and the line break stand between this field and those after it.
    have hlines : (",\n".toList).intercalate ((m :: next :: ms).map (line indent)) ++
        '\n' :: (indent.toList ++ ['\x7d']) = m.line indent ++ ',' :: '\n' ::
          ((",\n".toList).intercalate ((next :: ms).map (line indent)) ++
            '\n' :: (indent.toList ++ ['\x7d'])) := by
      simp [List.intercalate_cons_cons]
    rw [hlines, m.tokens?_line hindent (apart_cons (c := ',') rfl rfl _),
      tokens?_cons_of_punctuation? rfl rfl, tokens?_cons_of_isSpace rfl, ih next]
    rfl

theorem takeFields_wordsFrom (m : Member) (ms : List Member) (n : Nat) (rest : List Token)
    (hn : 2 * (wordsFrom m ms).length ≤ n) :
    takeFields n (wordsFrom m ms ++ rest) =
      some ((m :: ms).map fun m => (some m.name, m.value), rest) := by
  induction ms generalizing m n with
  | nil =>
    simp only [wordsFrom, List.length_cons, List.length_append, List.length_nil] at hn
    obtain ⟨n, rfl⟩ : ∃ k, n = k + 1 := ⟨n - 1, by omega⟩
    have hvalue := m.spells.value n (.closeBrace :: rest) (by omega)
    simp [wordsFrom, takeFields, hvalue]
  | cons next ms ih =>
    simp only [wordsFrom, List.length_cons, List.length_append] at hn
    obtain ⟨n, rfl⟩ : ∃ k, n = k + 1 := ⟨n - 1, by omega⟩
    have hvalue := m.spells.value n (.comma :: (wordsFrom next ms ++ rest)) (by omega)
    simp [wordsFrom, takeFields, hvalue, ih next n (by omega)]

end Member

theorem spells_objectValue {indent : String} (hindent : ∀ c ∈ indent.toList, isSpace c = true)
    (m : Member) (ms : List Member) :
    Spells (objectValue indent ((m :: ms).map fun m => (m.name, m.text)))
      (.openBrace :: Member.wordsFrom m ms)
      (.object ((m :: ms).map fun m => (some m.name, m.value))) where
  words := by
    have htoList : (objectValue indent ((m :: ms).map fun m => (m.name, m.text))).toList =
        '\x7b' :: '\n' :: ((",\n".toList).intercalate ((m :: ms).map (Member.line indent)) ++
          '\n' :: (indent.toList ++ ['\x7d'])) := by
      simp only [objectValue, String.toList_append, String.toList_intercalate, List.map_map]
      rw [List.append_assoc, List.append_assoc, List.append_assoc]
      rfl
    rw [htoList, tokens?_cons_of_punctuation? rfl rfl, tokens?_cons_of_isSpace rfl,
      Member.tokens?_wordsFrom hindent]
    rfl
  value := by
    intro n rest hn
    obtain ⟨n, rfl⟩ : ∃ k, n = k + 1 := ⟨n - 1, by simp at hn; omega⟩
    have hfields := Member.takeFields_wordsFrom m ms n rest (by simp at hn; omega)
    -- The words of a field do not begin with the closing brace of an empty object.
    have hopen : takeValue (n + 1) (.openBrace :: (Member.wordsFrom m ms ++ rest)) =
        (takeFields n (Member.wordsFrom m ms ++ rest)).map fun r => (.object r.1, r.2) := by
      cases ms <;> rfl
    rw [List.cons_append, hopen, hfields]
    rfl

end Settings

end Fickle

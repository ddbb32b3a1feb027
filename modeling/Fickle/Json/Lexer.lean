import Fickle.Binary64

/-! # Words of a settings document

The document is JSON. Its words are punctuation, the three literals, numerals and texts.
-/

namespace Fickle.Json

/-- A numeral as it stands in the document. -/
structure Numeral where
  negative : Bool
  whole : List Char
  fraction : List Char
  /-- The sign and the digits of the exponent. -/
  exponent : Option (Bool × List Char)
  /-- No point and no exponent were written. -/
  isWhole : Bool

inductive Token where
  | openBrace
  | closeBrace
  | openBracket
  | closeBracket
  | colon
  | comma
  | null
  | bool (b : Bool)
  | number (n : Numeral)
  /-- A text, or nothing where half of a surrogate pair stands alone. -/
  | text (s : Option String)

/-! ## Texts -/

/-- A character, or a 16-bit unit that an escape names. -/
inductive Item where
  | char (c : Char)
  | unit (n : Nat)

def hexValue? (c : Char) : Option Nat :=
  if '0' ≤ c ∧ c ≤ '9' then some (c.toNat - 48)
  else if 'a' ≤ c ∧ c ≤ 'f' then some (c.toNat - 87)
  else if 'A' ≤ c ∧ c ≤ 'F' then some (c.toNat - 55)
  else none

def unit? (a b c d : Char) : Option Nat := do
  return 4096 * (← hexValue? a) + 256 * (← hexValue? b) + 16 * (← hexValue? c) + (← hexValue? d)

/-- The character that a backslash and `c` stand for. -/
def shortEscape? (c : Char) : Option Char :=
  match c with
  | '\x22' => some '\x22'
  | '\\' => some '\\'
  | '/' => some '/'
  | 'b' => some '\x08'
  | 'f' => some '\x0c'
  | 'n' => some '\n'
  | 'r' => some '\r'
  | 't' => some '\t'
  | _ => none

/-- What stands before the closing quote, and what stands after it. -/
def takeText : List Char → Option (List Item × List Char)
  | [] => none
  | '\x22' :: rest => some ([], rest)
  | '\\' :: 'u' :: a :: b :: c :: d :: rest => do
    let n ← unit? a b c d
    let (items, rest) ← takeText rest
    some (.unit n :: items, rest)
  | '\\' :: e :: rest => do
    let c ← shortEscape? e
    let (items, rest) ← takeText rest
    some (.char c :: items, rest)
  | c :: rest =>
    -- Control characters have to be escaped.
    if c.toNat < 0x20 ∨ c = '\\' then none
    else do
      let (items, rest) ← takeText rest
      some (.char c :: items, rest)

def isHighSurrogate (n : Nat) : Bool := 0xD800 ≤ n && n ≤ 0xDBFF

def isLowSurrogate (n : Nat) : Bool := 0xDC00 ≤ n && n ≤ 0xDFFF

/-- The characters of a text. Surrogates have to come in pairs. -/
def charsOf : List Item → Option (List Char)
  | [] => some []
  | .char c :: rest => (charsOf rest).map (c :: ·)
  | .unit n :: .unit m :: rest =>
    if isHighSurrogate n then
      if isLowSurrogate m then
        (charsOf rest).map (Char.ofNat (0x10000 + 1024 * (n - 0xD800) + (m - 0xDC00)) :: ·)
      else none
    else if isLowSurrogate n then none
    else (charsOf (.unit m :: rest)).map (Char.ofNat n :: ·)
  | .unit n :: rest =>
    if isHighSurrogate n || isLowSurrogate n then none
    else (charsOf rest).map (Char.ofNat n :: ·)

/-! ## Numerals -/

def isNumeralChar (c : Char) : Bool :=
  c.isDigit || c == '-' || c == '+' || c == '.' || c == 'e' || c == 'E'

/-- The exponent in what follows the digits; nothing else may follow. -/
def exponent? : List Char → Option (Option (Bool × List Char))
  | [] => some none
  | e :: rest =>
    if e == 'e' || e == 'E' then
      let (negative, digits) :=
        match rest with
        | '+' :: ds => (false, ds)
        | '-' :: ds => (true, ds)
        | ds => (false, ds)
      if digits.isEmpty || !digits.all Char.isDigit then none else some (some (negative, digits))
    else none

/-- The numeral in a run of its characters: no leading zeros, and digits on both sides of a point. -/
def numeral? (cs : List Char) : Option Numeral :=
  let (negative, cs) :=
    match cs with
    | '-' :: rest => (true, rest)
    | _ => (false, cs)
  let whole := cs.takeWhile Char.isDigit
  let rest := cs.dropWhile Char.isDigit
  -- A zero in front stands alone.
  if whole.isEmpty || (whole.head? == some '0' && whole.length != 1) then none
  else
    match rest with
    | '.' :: rest =>
      let fraction := rest.takeWhile Char.isDigit
      if fraction.isEmpty then none
      else
        (exponent? (rest.dropWhile Char.isDigit)).map fun e => ⟨negative, whole, fraction, e, false⟩
    | rest => (exponent? rest).map fun e => ⟨negative, whole, [], e, e.isNone⟩

/-! ## The lexer -/

def isSpace (c : Char) : Bool := c == ' ' || c == '\n' || c == '\t' || c == '\r'

def isWordChar (c : Char) : Bool := 'a' ≤ c && c ≤ 'z'

def literal? (cs : List Char) : Option Token :=
  if cs = "null".toList then some .null
  else if cs = "true".toList then some (.bool true)
  else if cs = "false".toList then some (.bool false)
  else none

def punctuation? (c : Char) : Option Token :=
  match c with
  | '{' => some .openBrace
  | '}' => some .closeBrace
  | '[' => some .openBracket
  | ']' => some .closeBracket
  | ':' => some .colon
  | ',' => some .comma
  | _ => none

theorem length_takeText_lt {cs rest : List Char} {items : List Item}
    (h : takeText cs = some (items, rest)) : rest.length < cs.length := by
  fun_induction takeText cs generalizing items rest with
  | case1 => simp at h
  | case2 r =>
    simp only [Option.some.injEq, Prod.mk.injEq] at h
    simp [h.2]
  | case3 a b c d r ih =>
    simp only [Option.bind_eq_bind, Option.bind_eq_some_iff] at h
    obtain ⟨n, -, ⟨i, r'⟩, hr, h⟩ := h
    simp only [Option.some.injEq, Prod.mk.injEq] at h
    have := ih hr
    simp only [List.length_cons, ← h.2]
    omega
  | case4 e r _ ih =>
    simp only [Option.bind_eq_bind, Option.bind_eq_some_iff] at h
    obtain ⟨n, -, ⟨i, r'⟩, hr, h⟩ := h
    simp only [Option.some.injEq, Prod.mk.injEq] at h
    have := ih hr
    simp only [List.length_cons, ← h.2]
    omega
  | case5 => simp at h
  | case6 c r _ _ _ _ ih =>
    simp only [Option.bind_eq_bind, Option.bind_eq_some_iff] at h
    obtain ⟨⟨i, r'⟩, hr, h⟩ := h
    simp only [Option.some.injEq, Prod.mk.injEq] at h
    have := ih hr
    simp only [List.length_cons, ← h.2]
    omega

/-- The word that begins with `c`, and what stands after it. -/
def takeToken (c : Char) (cs : List Char) : Option (Token × List Char) :=
  if let some t := punctuation? c then some (t, cs)
  else if c == '\x22' then
    (takeText cs).map fun (items, rest) => (.text ((charsOf items).map String.ofList), rest)
  else if c == '-' || c.isDigit then
    (numeral? (c :: cs.takeWhile isNumeralChar)).map fun n =>
      (.number n, cs.dropWhile isNumeralChar)
  else
    (literal? (c :: cs.takeWhile isWordChar)).map fun t => (t, cs.dropWhile isWordChar)

theorem length_takeToken_le {c : Char} {cs rest : List Char} {t : Token}
    (h : takeToken c cs = some (t, rest)) : rest.length ≤ cs.length := by
  have hdrop (p : Char → Bool) : (cs.dropWhile p).length ≤ cs.length :=
    (List.dropWhile_sublist p).length_le
  unfold takeToken at h
  split at h
  · simp only [Option.some.injEq, Prod.mk.injEq] at h
    simp [h.2]
  · split at h
    · simp only [Option.map_eq_some_iff, Prod.mk.injEq] at h
      obtain ⟨⟨items, r⟩, hr, -, rfl⟩ := h
      exact Nat.le_of_lt (length_takeText_lt hr)
    · split at h <;>
      · simp only [Option.map_eq_some_iff, Prod.mk.injEq] at h
        obtain ⟨_, -, -, rfl⟩ := h
        exact hdrop _

def tokens? : List Char → Option (List Token)
  | [] => some []
  | c :: cs =>
    if isSpace c then tokens? cs
    else
      match _ : takeToken c cs with
      | none => none
      | some (t, rest) => (tokens? rest).map (t :: ·)
termination_by cs => cs.length
decreasing_by
  · simp
  · have := length_takeToken_le (by assumption)
    simp only [List.length_cons]
    omega

end Fickle.Json

import Fickle.Duration
import Fickle.Text.Blank

/-! # Durations as text

A duration is written as spans such as `1h 30m`, largest first. Reading takes more: longer unit
names, fractions that come out even, spans in any order, and white space nearly everywhere.
-/

namespace Fickle.Duration

/-! ## Writing -/

def yearSecs : Nat := 31557600

def monthSecs : Nat := 2630016

def daySecs : Nat := 86400

def longSpan (n : Nat) (unit : String) : List String :=
  if n = 0 then [] else [toString n ++ unit ++ (if n = 1 then "" else "s")]

def shortSpan (n : Nat) (unit : String) : List String :=
  if n = 0 then [] else [toString n ++ unit]

/-- The spans of a duration; parts that are zero are left out. -/
def spans (d : Duration) : List String :=
  let secs := d.secs
  let nanos := d.subsec
  longSpan (secs / yearSecs) "year"
    ++ longSpan (secs % yearSecs / monthSecs) "month"
    ++ longSpan (secs % yearSecs % monthSecs / daySecs) "day"
    ++ shortSpan (secs % yearSecs % monthSecs % daySecs / 3600) "h"
    ++ shortSpan (secs % yearSecs % monthSecs % daySecs % 3600 / 60) "m"
    ++ shortSpan (secs % yearSecs % monthSecs % daySecs % 60) "s"
    ++ shortSpan (nanos / 10 ^ 6) "ms"
    ++ shortSpan (nanos / 1000 % 1000) "us"
    ++ shortSpan (nanos % 1000) "ns"

def text (d : Duration) : String :=
  if d.isZero then "0s" else " ".intercalate d.spans

/-! ## Units -/

/-- What an amount is counted in. -/
inductive Grain where
  | nanos
  | secs

def Grain.nanosPer : Grain → Nat
  | nanos => 1
  | secs => 10 ^ 9

structure SpanUnit where
  names : List String
  grain : Grain
  size : Nat
  /-- The grain that a fraction has to be a whole number of; without one there are no fractions. -/
  fractionGrain : Option Grain

def SpanUnit.fractionSize (u : SpanUnit) (g : Grain) : Nat := u.size * u.grain.nanosPer / g.nanosPer

def spanUnits : List SpanUnit :=
  [⟨["nanos", "nsec", "ns"], .nanos, 1, none⟩,
   ⟨["usec", "us", "µs"], .nanos, 1000, some .nanos⟩,
   ⟨["millis", "msec", "ms"], .nanos, 10 ^ 6, some .nanos⟩,
   ⟨["seconds", "second", "secs", "sec", "s"], .secs, 1, some .nanos⟩,
   ⟨["minutes", "minute", "min", "mins", "m"], .secs, 60, some .nanos⟩,
   ⟨["hours", "hour", "hr", "hrs", "h"], .secs, 3600, some .secs⟩,
   ⟨["days", "day", "d"], .secs, daySecs, some .secs⟩,
   ⟨["weeks", "week", "wk", "wks", "w"], .secs, 7 * daySecs, some .secs⟩,
   ⟨["months", "month", "M"], .secs, monthSecs, some .secs⟩,
   ⟨["years", "year", "yr", "yrs", "y"], .secs, yearSecs, some .secs⟩]

def SpanUnit.ofName? (name : List Char) : Option SpanUnit :=
  spanUnits.find? fun u => u.names.any fun n => n.toList == name

def isUnitChar (c : Char) : Bool := c.isAlpha || c == 'µ'

/-! ## Reading -/

/-- A span as it stands in the text: the digits before the point, those after it, and the unit. -/
structure Span where
  whole : List Char
  fraction : Option (List Char)
  unit : List Char

/-- Digits and the white space among them, and the rest. -/
def takeDigits (cs : List Char) : List Char × List Char :=
  let inNumber := fun c : Char => c.isDigit || Text.isBlank c
  ((cs.takeWhile inNumber).filter Char.isDigit, cs.dropWhile inNumber)

/-- The point and the digits after it, if there is one. -/
def takeFraction : List Char → Option (List Char) × List Char
  | '.' :: cs =>
    let (digits, rest) := takeDigits cs
    (some digits, rest)
  | cs => (none, cs)

/-- The span at the front, which starts with a digit, and the rest. -/
def takeSpan (cs : List Char) : Span × List Char :=
  let (whole, rest) := takeDigits cs
  let (fraction, rest) := takeFraction rest
  (⟨whole, fraction, rest.takeWhile isUnitChar⟩, rest.dropWhile isUnitChar)

def natOfDigits (digits : List Char) : Nat :=
  digits.foldl (fun n c => 10 * n + (c.toNat - 48)) 0

def word? (n : Nat) : Option Nat := if n < 2 ^ 64 then some n else none

/-- Adds an amount; what is below a second has to fit 64 bits as nanoseconds. -/
def addAmount (d : Duration) (amount : Nat) (grain : Grain) : Option Duration :=
  match grain with
  | .nanos => do
    -- A sum that is in range as a whole may still be refused here.
    let _ ← word? (d.subsec + amount)
    ofNanos? (d.nanos + amount)
  | .secs => ofNanos? (d.nanos + amount * 10 ^ 9)

/-- The grains in the fraction `0.digits` of a unit, if they are a whole number. -/
def fractionAmount (digits : List Char) (size : Nat) : Option Nat := do
  let den ← word? (10 ^ digits.length)
  let num ← word? (natOfDigits digits * size)
  if digits.isEmpty || num % den ≠ 0 then none else some (num / den)

def addSpan (d : Duration) (s : Span) : Option Duration := do
  let unit ← SpanUnit.ofName? s.unit
  let n ← word? (natOfDigits s.whole)
  let d ← d.addAmount (← word? (n * unit.size)) unit.grain
  match s.fraction with
  | none => some d
  | some digits =>
    let grain ← unit.fractionGrain
    d.addAmount (← fractionAmount digits (unit.fractionSize grain)) grain

theorem length_dropWhile_le {β : Type} (p : β → Bool) (l : List β) :
    (l.dropWhile p).length ≤ l.length :=
  (List.dropWhile_sublist p).length_le

theorem length_takeDigits_lt {c : Char} {cs : List Char} (h : c.isDigit = true) :
    (takeDigits (c :: cs)).2.length < (c :: cs).length := by
  have := length_dropWhile_le (fun c : Char => c.isDigit || Text.isBlank c) cs
  simp [takeDigits, h]
  omega

theorem length_takeFraction_le (cs : List Char) : (takeFraction cs).2.length ≤ cs.length := by
  unfold takeFraction
  split
  · have := length_dropWhile_le (fun c : Char => c.isDigit || Text.isBlank c)
    simp only [takeDigits, List.length_cons]
    exact Nat.le_succ_of_le (this _)
  · exact Nat.le_refl _

theorem length_takeSpan_lt {c : Char} {cs : List Char} (h : c.isDigit = true) :
    (takeSpan (c :: cs)).2.length < (c :: cs).length :=
  Nat.lt_of_le_of_lt
    (Nat.le_trans (length_dropWhile_le _ _) (length_takeFraction_le _))
    (length_takeDigits_lt h)

/-- What follows the first span of a text is shorter than the text. -/
theorem length_takeSpan_dropWhile_lt {c : Char} {cs rest : List Char}
    (hcs : cs.dropWhile Text.isBlank = c :: rest) (h : c.isDigit = true) :
    (takeSpan (c :: rest)).2.length < cs.length :=
  Nat.lt_of_lt_of_le (length_takeSpan_lt h) (hcs ▸ length_dropWhile_le Text.isBlank cs)

def addSpans (d : Duration) (cs : List Char) : Option Duration :=
  match _ : cs.dropWhile Text.isBlank with
  | [] => some d
  | c :: rest =>
    if _ : c.isDigit then
      match d.addSpan (takeSpan (c :: rest)).1 with
      | none => none
      | some d => addSpans d (takeSpan (c :: rest)).2
    else none
termination_by cs.length
decreasing_by exact length_takeSpan_dropWhile_lt (by assumption) (by assumption)

/-- The duration that a text stands for: a bare zero, or at least one span. -/
def ofText? (s : String) : Option Duration :=
  if s == "0" then some zero
  else if Text.isBlankText s then none
  else addSpans zero s.toList

end Fickle.Duration

import Fickle.Json.Lexer

/-! # Values of a settings document -/

namespace Fickle.Json

inductive Value where
  | null
  | bool (b : Bool)
  | number (n : Numeral)
  | text (s : Option String)
  | array (items : List Value)
  | object (fields : List (Option String × Value))

/-! ## From words to values

Each call is given a bound on the calls that may follow it. Every call but the first takes a word,
so a bound of twice the words is enough.
-/

mutual

/-- The value at the front, and the words after it. -/
def takeValue : Nat → List Token → Option (Value × List Token)
  | 0, _ => none
  | n + 1, ts =>
    match ts with
    | .null :: rest => some (.null, rest)
    | .bool b :: rest => some (.bool b, rest)
    | .number x :: rest => some (.number x, rest)
    | .text s :: rest => some (.text s, rest)
    | .openBracket :: .closeBracket :: rest => some (.array [], rest)
    | .openBracket :: rest => (takeItems n rest).map fun (vs, rest) => (.array vs, rest)
    | .openBrace :: .closeBrace :: rest => some (.object [], rest)
    | .openBrace :: rest => (takeFields n rest).map fun (fs, rest) => (.object fs, rest)
    | _ => none

/-- At least one item, up to the closing bracket. -/
def takeItems : Nat → List Token → Option (List Value × List Token)
  | 0, _ => none
  | n + 1, ts =>
    match takeValue n ts with
    | some (v, .closeBracket :: rest) => some ([v], rest)
    | some (v, .comma :: rest) => (takeItems n rest).map fun (vs, rest) => (v :: vs, rest)
    | _ => none

/-- At least one field, up to the closing brace. -/
def takeFields : Nat → List Token → Option (List (Option String × Value) × List Token)
  | 0, _ => none
  | n + 1, ts =>
    match ts with
    | .text key :: .colon :: rest =>
      match takeValue n rest with
      | some (v, .closeBrace :: rest) => some ([(key, v)], rest)
      | some (v, .comma :: rest) =>
        (takeFields n rest).map fun (fs, rest) => ((key, v) :: fs, rest)
      | _ => none
    | _ => none

end

def value? (s : String) : Option Value :=
  match tokens? s.toList with
  | none => none
  | some ts =>
    match takeValue (2 * ts.length + 1) ts with
    | some (v, []) => some v
    | _ => none

/-! ## Numbers -/

def natOfDigits (digits : List Char) : Nat :=
  digits.foldl (fun n c => 10 * n + (c.toNat - 48)) 0

/-- A whole number below `bound`. A sign makes it another kind of number, also before a zero. -/
def Value.nat? (bound : Nat) : Value → Option Nat
  | .number n =>
    if n.isWhole && !n.negative && natOfDigits n.whole < bound then some (natOfDigits n.whole)
    else none
  | _ => none

/-- Digits are gathered while they fit 64 bits; the result and the digits that are left. -/
def gather : Nat → List Char → Nat × List Char
  | acc, [] => (acc, [])
  | acc, c :: cs =>
    let next := 10 * acc + (c.toNat - 48)
    if next < 2 ^ 64 then gather next cs else (acc, c :: cs)

def powerOfTen (e : Nat) : Float := Float.ofScientific 1 false e

/-- A significand divided by a power of ten, in steps of at most `10 ^ 308`. -/
def scaleDown : Nat → Float → Nat → Float
  | 0, f, _ => f
  | n + 1, f, e =>
    if e ≤ 308 then f / powerOfTen e
    else if f == 0.0 then f
    else scaleDown n (f / powerOfTen 308) (e - 308)

/-- A significand times a power of ten. An overflow is refused. -/
def scaled? (significand : Nat) (e : Int) : Option Float :=
  let f := Float.ofNat significand
  if e < 0 then some (scaleDown 4 f (-e).toNat)
  else if 308 < e then if f == 0.0 then some f else none
  else
    let r := f * powerOfTen e.toNat
    if r.isInf then none else some r

/-- The double nearest to the numeral, up to the rounding of one product or a few quotients: the
significand is cut to 64 bits and then scaled by the power of ten. -/
def Numeral.binary64? (n : Numeral) : Option Binary64 :=
  let (whole, cut) := gather 0 n.whole
  let (significand, dropped) := gather whole n.fraction
  let point : Int := cut.length - (n.fraction.length - dropped.length : Nat)
  let e : Int :=
    match n.exponent with
    | none => point
    | some (negative, digits) =>
      let x : Int := natOfDigits digits
      if negative then point - x else point + x
  (scaled? significand e).map fun f => .ofFloat (if n.negative then -f else f)

def Value.binary64? : Value → Option Binary64
  | .number n => n.binary64?
  | _ => none

def Value.text? : Value → Option String
  | .text s => s
  | _ => none

def Value.bool? : Value → Option Bool
  | .bool b => some b
  | _ => none

/-! ## Records -/

/-- The fields of a record with the given field names. A record is an object, where other fields
are passed over and no field comes twice, or an array of values in the order of the names, where
the last ones may be missing. -/
def Value.record? (names : List String) : Value → Option (List (String × Value))
  | .object fields => do
    let named ← fields.mapM fun (key, v) => key.map fun k => (k, v)
    let known := named.filter fun f => names.contains f.1
    if (known.map Prod.fst).Nodup then some known else none
  | .array vs => if vs.length ≤ names.length then some (names.zip vs) else none
  | _ => none

/-- The field of that name, or the value that it takes when it is missing. -/
def field? {β : Type} (fields : List (String × Value)) (name : String) (missing : β)
    (read : Value → Option β) : Option β :=
  match fields.find? fun f => f.1 == name with
  | none => some missing
  | some (_, v) => read v

end Fickle.Json

import Fickle.Duration.Text
import Fickle.Json.Value
import Fickle.Settings

/-! # Settings as a document

Settings are written as JSON with two spaces of indentation, and read from any JSON in which
missing fields take their standard values.
-/

namespace Fickle.Settings

/-! ## Writing -/

def escaped (c : Char) : String :=
  match c with
  | '\x22' => "\\\""
  | '\\' => "\\\\"
  | '\x08' => "\\b"
  | '\x0c' => "\\f"
  | '\n' => "\\n"
  | '\r' => "\\r"
  | '\t' => "\\t"
  | c => if c.toNat < 0x20 then "\\u00" ++ Text.hex 2 c.toNat else c.toString

def textValue (s : String) : String :=
  "\"" ++ String.join (s.toList.map escaped) ++ "\""

/-- A number that is not finite has no numeral, and null stands for it. -/
def numberValue (x : Binary64) : String :=
  if Scalar.isFinite x then Decimal.Layout.document.render x else "null"

def boolValue (b : Bool) : String := if b then "true" else "false"

def seedValue : Option UInt64 → String
  | some n => toString n.toNat
  | none => "null"

/-- An object with its fields on lines of their own, inside an indentation. -/
def objectValue (indent : String) (fields : List (String × String)) : String :=
  let lines := fields.map fun (name, value) => indent ++ "  \"" ++ name ++ "\": " ++ value
  "\x7b\n" ++ ",\n".intercalate lines ++ "\n" ++ indent ++ "\x7d"

def driftFields (d : DriftModel Binary64) : List (String × String) :=
  [("recency_half_life", textValue d.recencyHalfLife.text),
   ("age_unit", textValue d.ageUnit.text),
   ("age_weight", numberValue d.ageWeight),
   ("access_weight", numberValue d.accessWeight),
   ("recency_weight", numberValue d.recencyWeight),
   ("max_fraction", numberValue d.maxFraction)]

def fields (s : Settings) : List (String × String) :=
  [("personality", textValue s.personality),
   ("chaos_level", toString s.chaosLevel.toNat),
   ("seed", seedValue s.seed),
   ("record", boolValue s.record),
   ("drift", objectValue "  " (driftFields s.drift))]

def document (s : Settings) : String := objectValue "" s.fields

/-! ## Reading -/

open Json (Value field?)

def durationOf (v : Value) : Option Duration := v.text? >>= Duration.ofText?

def seedOf : Value → Option (Option UInt64)
  | .null => some none
  | v => (v.nat? (2 ^ 64)).map fun n => some (UInt64.ofNat n)

def driftOf (v : Value) : Option (DriftModel Binary64) := do
  let missing : DriftModel Binary64 := DriftModel.standard
  let fields ← v.record? ["recency_half_life", "age_unit", "age_weight", "access_weight",
    "recency_weight", "max_fraction"]
  let recencyHalfLife ← field? fields "recency_half_life" missing.recencyHalfLife durationOf
  let ageUnit ← field? fields "age_unit" missing.ageUnit durationOf
  let ageWeight ← field? fields "age_weight" missing.ageWeight Value.binary64?
  let accessWeight ← field? fields "access_weight" missing.accessWeight Value.binary64?
  let recencyWeight ← field? fields "recency_weight" missing.recencyWeight Value.binary64?
  let maxFraction ← field? fields "max_fraction" missing.maxFraction Value.binary64?
  return { recencyHalfLife, ageUnit, ageWeight, accessWeight, recencyWeight, maxFraction }

def ofValue (v : Value) : Option Settings := do
  let fields ← v.record? ["personality", "chaos_level", "seed", "record", "drift"]
  let personality ← field? fields "personality" standard.personality Value.text?
  let chaosLevel ← field? fields "chaos_level" standard.chaosLevel fun v =>
    (v.nat? 256).map UInt8.ofNat
  let seed ← field? fields "seed" standard.seed seedOf
  let record ← field? fields "record" standard.record Value.bool?
  let drift ← field? fields "drift" standard.drift driftOf
  return { personality, chaosLevel, seed, record, drift }

def ofDocument (s : String) : Except Fault Settings :=
  match Json.value? s >>= ofValue with
  | some settings => .ok settings
  | none => .error (.invalidSettings .document)

end Fickle.Settings

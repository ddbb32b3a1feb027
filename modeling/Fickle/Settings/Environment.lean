import Fickle.Settings

/-! # Settings from the environment

Four variables override the settings. A variable that holds only white space counts as unset.
-/

namespace Fickle

abbrev Environment := String → Option String

namespace Environment

def value? (env : Environment) (name : String) : Option String :=
  (env name).filter fun v => !Text.isBlankText v

/-- A number below `bound`: digits of ASCII, with a plus sign in front or not. -/
def natOfText? (bound : Nat) (s : String) : Option Nat :=
  let digits :=
    match s.toList with
    | '+' :: ds => ds
    | ds => ds
  if digits.isEmpty || !digits.all Char.isDigit then none
  else
    let n := digits.foldl (fun n c => 10 * n + (c.toNat - 48)) 0
    if n < bound then some n else none

def boolOfText? (s : String) : Option Bool :=
  let word := Text.lowerAscii s
  if ["1", "true", "yes", "on"].contains word then some true
  else if ["0", "false", "no", "off"].contains word then some false
  else none

/-- The value that a variable gives a setting, which keeps the one it has when the variable is
unset. -/
def override {β : Type} (env : Environment) (name : String) (now : β)
    (read : String → Option β) : Except Fault β :=
  match env.value? name with
  | none => .ok now
  | some raw =>
    match read raw with
    | some v => .ok v
    | none => .error (.invalidSettings (.variable name raw))

end Environment

def Settings.override (s : Settings) (env : Environment) : Except Fault Settings := do
  let personality ← env.override "KINDA_PERSONALITY" s.personality some
  let chaosLevel ← env.override "KINDA_CHAOS_LEVEL" s.chaosLevel fun raw =>
    (Environment.natOfText? 256 raw).map UInt8.ofNat
  let seed ← env.override "KINDA_SEED" s.seed fun raw =>
    (Environment.natOfText? (2 ^ 64) raw).map fun n => some (UInt64.ofNat n)
  let record ← env.override "KINDA_RECORD" s.record Environment.boolOfText?
  return { s with personality, chaosLevel, seed, record }

end Fickle

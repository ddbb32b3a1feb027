import Fickle.Fault
import Fickle.Profile.Personality

/-! # The registry of personalities

Profiles are found by their own names. A profile gets in only if nothing is wrong with it and its
name is free.
-/

namespace Fickle

/-- The first thing that is wrong with the profile, as a fault. -/
def Profile.validate (p : Profile Binary64) : Except Fault Unit :=
  match p.flaw? with
  | some flaw => .error (.invalidProfile p.name flaw)
  | none => .ok ()

structure Registry where
  profiles : List (Profile Binary64)

namespace Registry

def builtin : Registry := ⟨Personality.all.map Personality.profile⟩

instance : Inhabited Registry := ⟨builtin⟩

def find? (r : Registry) (name : String) : Option (Profile Binary64) :=
  r.profiles.find? fun p => p.name == name

def get (r : Registry) (name : String) : Except Fault (Profile Binary64) :=
  match r.find? name with
  | some p => .ok p
  | none => .error (.unknownPersonality name)

def register (r : Registry) (p : Profile Binary64) : Except Fault Registry := do
  p.validate
  if (r.find? p.name).isSome then throw (.duplicatePersonality p.name)
  return ⟨p :: r.profiles⟩

def names (r : Registry) : List String :=
  (r.profiles.map Profile.name).mergeSort fun a b => decide (a ≤ b)

/-- The effective probability for a personality and a chaos level that are still to be resolved. -/
def effective (r : Registry) (c : Construct) (name : String) (level : UInt8) (i : Instability) :
    Except Fault Binary64 := do
  let profile ← r.get name
  let chaos ← ChaosLevel.ofNat level
  return profile.effective c chaos i

end Registry

end Fickle

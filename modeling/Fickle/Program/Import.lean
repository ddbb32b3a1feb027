import Fickle.Program.Typed

/-! # Imports

A gate decides whether a module is loaded at all. A load gives the module or the reason why it
failed.
-/

namespace Fickle

structure Imported (β : Type) where
  module : Option β
  /-- The load ran. -/
  loaded : Bool
  /-- The load of the fallback ran. -/
  fallbackLoaded : Bool

namespace Program

variable {β : Type}

/-- Loads a module behind the gate of construct `c`. A failed load is a fallback. -/
def gatedImport (c : Construct) (site : Site) (module : String) (load : Except String β) :
    Program (Imported β) := do
  if ← boolCall c site .unit then
    match load with
    | .ok v => return ⟨some v, true, false⟩
    | .error reason =>
      recordFallback ((← session).profile.style.failedMessage module ++ ": " ++ reason)
      return ⟨none, true, false⟩
  else
    report (.importNote ((← session).profile.style.skippedMessage module))
    return ⟨none, false, false⟩

def kindaImport (site : Site) (module : String) (load : Except String β) :
    Program (Imported β) :=
  gatedImport .kindaImport site module load

def maybeImport (site : Site) (module : String) (load : Except String β) :
    Program (Imported β) :=
  gatedImport .maybeImport site module load

/-- Loads the fallback after `module` was skipped or failed. Only a failure after an attempt is a
fallback of its own: a shut gate has been counted already. -/
def importFallback (attempted : Bool) (fallbackModule : String) (fallback : Except String β) :
    Program (Imported β) := do
  match fallback with
  | .ok v =>
    report .fallbackModuleUsed
    return ⟨some v, attempted, true⟩
  | .error reason =>
    let message := (← session).profile.style.failedMessage fallbackModule ++ ": " ++ reason
    if attempted then recordFallback message else report (.importNote message)
    return ⟨none, attempted, true⟩

def maybeImportOr (site : Site) (module : String) (load : Except String β)
    (fallbackModule : String) (fallback : Except String β) : Program (Imported β) := do
  if ← boolCall .maybeImport site .unit then
    match load with
    | .ok v => return ⟨some v, true, false⟩
    | .error _ =>
      -- Only a note: the fallback decides what is counted.
      report (.importNote ((← session).profile.style.failedMessage module))
      importFallback true fallbackModule fallback
  else
    report (.importNote ((← session).profile.style.skippedMessage module))
    importFallback false fallbackModule fallback

end Program

end Fickle

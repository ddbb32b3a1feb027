import Fickle.Binary64
import Fickle.Clock
import Fickle.Drift
import Fickle.Site

/-! # Variables that drift

The books of a variable: when it was declared, how often and when it was last read.
-/

namespace Fickle

structure Aging (α : Type) where
  nominal : α
  created : Duration
  lastAccess : Option Duration
  accesses : UInt64
  deriving DecidableEq

namespace Aging

variable {α : Type}

def declared (nominal : α) (now : Duration) : Aging α := ⟨nominal, now, none, 0⟩

/-- Books a read at `now` and gives what the drift model wants to know. A reading from before the
declaration counts as the declaration. -/
def touch (a : Aging α) (now : Duration) : DriftSample α × Aging α :=
  let now := now.later a.created
  let idle :=
    match a.lastAccess with
    | some last => now.sub last
    | none => Duration.zero
  -- The count stops at its largest value.
  let accesses := UInt64.ofNatClamp (a.accesses.toNat + 1)
  (⟨a.nominal, now.sub a.created, accesses, idle⟩,
    { a with lastAccess := some now, accesses := accesses })

/-- The books after an assignment: a new value, and aging from the start. -/
def reset (_ : Aging α) (nominal : α) (now : Duration) : Aging α := declared nominal now

end Aging

structure DriftVar where
  site : Site
  aging : Aging Binary64
  deriving DecidableEq

namespace DriftVar

/-- The age at `now`, zero before the declaration. -/
def age (v : DriftVar) (now : Duration) : Duration := now.sub v.aging.created

def assign (v : DriftVar) (nominal : Binary64) (now : Duration) : DriftVar :=
  { v with aging := v.aging.reset nominal now }

end DriftVar

end Fickle

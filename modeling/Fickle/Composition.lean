import Fickle.Args.Check
import Fickle.Program

/-! # Compositions

A composition is a named truth-valued expression over constructs. Every constituent is evaluated
each time, so an invocation always makes the same number of decisions. The site of the constituent
at index `i` is the child at `i` of the site of the whole.
-/

namespace Fickle

inductive Expr (α : Type) where
  | call (construct : Construct) (args : Args α)
  | use (name : String)
  | not (part : Expr α)
  | all (parts : List (Expr α))
  | any (parts : List (Expr α))
  /-- At least `k` of the parts hold. -/
  | atLeast (k : Nat) (parts : List (Expr α))

/-- The declared compositions, the last one first. An expression sees those declared before it. -/
abbrev Definitions (α : Type) := List (String × Expr α)

namespace Definitions

variable {α : Type}

/-- The expression of that name, and the definitions that it sees. -/
def lookup (name : String) : Definitions α → Option (Expr α × Definitions α)
  | [] => none
  | (n, e) :: earlier => if n = name then some (e, earlier) else lookup name earlier

theorem length_lookup_lt {name : String} {defs earlier : Definitions α} {e : Expr α}
    (h : lookup name defs = some (e, earlier)) : earlier.length < defs.length := by
  induction defs with
  | nil => simp [lookup] at h
  | cons d defs ih =>
    obtain ⟨n, e'⟩ := d
    unfold lookup at h
    split at h
    · simp only [Option.some.injEq, Prod.mk.injEq] at h
      simp [h.2]
    · have := ih h
      simp only [List.length_cons]
      omega

def contains (defs : Definitions α) (name : String) : Bool := defs.any fun d => d.1 == name

end Definitions

namespace Expr

variable {α : Type}

/-! ## Sizes -/

mutual

def decisions (defs : Definitions α) : Expr α → Nat
  | .call _ _ => 1
  | .use name =>
    match _ : Definitions.lookup name defs with
    | none => 0
    | some (e, earlier) => decisions earlier e
  | .not part => decisions defs part
  | .all parts => decisionsOf defs parts
  | .any parts => decisionsOf defs parts
  | .atLeast _ parts => decisionsOf defs parts
termination_by e => (defs.length, sizeOf e)
decreasing_by
  · exact Prod.Lex.left _ _ (Definitions.length_lookup_lt (by assumption))
  all_goals exact Prod.Lex.right _ (by simp +arith)

def decisionsOf (defs : Definitions α) : List (Expr α) → Nat
  | [] => 0
  | part :: parts => decisions defs part + decisionsOf defs parts
termination_by parts => (defs.length, sizeOf parts)
decreasing_by all_goals exact Prod.Lex.right _ (by simp +arith)

end

/-! ## Evaluation -/

section

variable {m : Type → Type} [Monad m] [MonadExceptOf Fault m]

mutual

def evalWith (call : Construct → Site → Args α → m Bool) (defs : Definitions α) (e : Expr α)
    (site : Site) : m Bool :=
  match e with
  | .call c args => call c site args
  | .use name =>
    match _ : Definitions.lookup name defs with
    | none => throw (.unknownComposition name)
    | some (e, earlier) => evalWith call earlier e site
  | .not part => do return !(← evalWith call defs part (site.child 0))
  | .all parts => do return (← evalParts call defs parts site 0).all id
  | .any parts => do return (← evalParts call defs parts site 0).any id
  | .atLeast k parts => do return k ≤ (← evalParts call defs parts site 0).count true
termination_by (defs.length, sizeOf e)
decreasing_by
  · exact Prod.Lex.left _ _ (Definitions.length_lookup_lt (by assumption))
  all_goals exact Prod.Lex.right _ (by simp +arith)

/-- Evaluates the parts of an expression from index `i` on, none of them left out. -/
def evalParts (call : Construct → Site → Args α → m Bool) (defs : Definitions α)
    (parts : List (Expr α)) (site : Site) (i : UInt32) : m (List Bool) :=
  match parts with
  | [] => return []
  | part :: parts => do
    let b ← evalWith call defs part (site.child i)
    return b :: (← evalParts call defs parts site (i + 1))
termination_by (defs.length, sizeOf parts)
decreasing_by all_goals exact Prod.Lex.right _ (by simp +arith)

end

end

/-! ## Checks -/

mutual

/-- Whether the expression can be declared after `defs`: its calls yield truth values and have good
arguments, what it uses is declared, and it asks for no more parts than it has. -/
def check [Scalar α] (defs : Definitions α) : Expr α → Except Fault Unit
  | .call c args =>
    if c.yieldsBool then args.check c else .error (.invalidArgument c .constituentNotBoolean)
  | .use name => if defs.contains name then .ok () else .error (.unknownComposition name)
  | .not part => check defs part
  | .all parts => checkAll defs parts
  | .any parts => checkAll defs parts
  -- The number of parts is looked at before the parts.
  | .atLeast k parts =>
    if parts.length < k then .error (.invalidSettings (.atLeast k parts.length))
    else checkAll defs parts

def checkAll [Scalar α] (defs : Definitions α) : List (Expr α) → Except Fault Unit
  | [] => .ok ()
  | part :: parts => do
    check defs part
    checkAll defs parts

end

end Expr

/-! ## The registry -/

structure Compositions where
  defs : Definitions Binary64

namespace Compositions

def empty : Compositions := ⟨[]⟩

instance : Inhabited Compositions := ⟨empty⟩

def contains (r : Compositions) (name : String) : Bool := r.defs.contains name

/-- The declared names, in the order of their code points. -/
def names (r : Compositions) : List String :=
  (r.defs.map Prod.fst).mergeSort fun a b => decide (a ≤ b)

def declare (r : Compositions) (name : String) (e : Expr Binary64) : Except Fault Compositions := do
  if r.contains name then throw (.duplicateComposition name)
  e.check r.defs
  return ⟨(name, e) :: r.defs⟩

def get (r : Compositions) (name : String) :
    Except Fault (Expr Binary64 × Definitions Binary64) :=
  match r.defs.lookup name with
  | some found => .ok found
  | none => .error (.unknownComposition name)

end Compositions

namespace Program

def declare (r : Compositions) (name : String) (e : Expr Binary64) : Program Compositions := do
  let r' ← ofExcept (r.declare name e)
  report (.compositionDeclared (e.decisions r.defs))
  return r'

def constituent (c : Construct) (site : Site) (args : Args Binary64) : Program Bool := do
  match ← evaluate c site args with
  | .bool b => return b
  | other => throw (.invalidArgument c (.wantedBoolean other))

def invoke (r : Compositions) (name : String) (site : Site) : Program Bool := do
  let (e, defs) ← ofExcept (r.get name)
  e.evalWith constituent defs site

end Program

end Fickle

import Fickle.Composition

/-! # How likely a composition is to hold

The constituents are taken to be independent, each with the probability that it has now. That is
exact when instability cannot move during an invocation.
-/

namespace Fickle

variable {α : Type} [Scalar α]

/-- The chances that exactly 0, 1, 2, … of the parts hold, after one more part that holds with
probability `p`. `below` is the chance of one fewer. -/
def addPart (p : α) : Option α → List α → List α
  | below, [] => [0.0 * (1.0 - p) + (below.map (· * p)).getD 0.0]
  | below, x :: xs => (x * (1.0 - p) + (below.map (· * p)).getD 0.0) :: addPart p (some x) xs

/-- The chances that exactly 0, 1, 2, … of the parts with those probabilities hold. -/
def holdCounts (ps : List α) : List α := ps.foldl (fun dist p => addPart p none dist) [1.0]

def callProbability (profile : Profile α) (chaos : ChaosLevel) (i : Instability) (c : Construct)
    (args : Args α) : α :=
  let p := profile.effective c chaos i
  match args with
  | .condition b =>
    if c = .fuzzyBool then (if b then p else 1.0 - p) else if b then p else 0.0
  | .compare left right tolerance =>
    ishProbability (Scalar.abs (left - right)) (tolerance.getD profile.defaultTolerance) p
  | _ => p

namespace Expr

mutual

/-- The probability that an expression holds, given that of each call. -/
def predict (leaf : Construct → Args α → α) (defs : Definitions α) (e : Expr α) : Except Fault α :=
  match e with
  | .call c args => .ok (leaf c args)
  | .use name =>
    match _ : Definitions.lookup name defs with
    | none => .error (.unknownComposition name)
    | some (e, earlier) => predict leaf earlier e
  | .not part => do return 1.0 - (← predict leaf defs part)
  | .all parts => do return (← predictAll leaf defs parts).foldl (· * ·) 1.0
  | .any parts => do
    return 1.0 - (← predictAll leaf defs parts).foldl (fun none p => none * (1.0 - p)) 1.0
  | .atLeast k parts => do
    return Scalar.sum ((holdCounts (← predictAll leaf defs parts)).drop k)
termination_by (defs.length, sizeOf e)
decreasing_by
  · exact Prod.Lex.left _ _ (Definitions.length_lookup_lt (by assumption))
  all_goals exact Prod.Lex.right _ (by simp +arith)

def predictAll (leaf : Construct → Args α → α) (defs : Definitions α) (parts : List (Expr α)) :
    Except Fault (List α) :=
  match parts with
  | [] => .ok []
  | part :: parts => do
    let p ← predict leaf defs part
    return p :: (← predictAll leaf defs parts)
termination_by (defs.length, sizeOf parts)
decreasing_by all_goals exact Prod.Lex.right _ (by simp +arith)

end

end Expr

def Compositions.predict (r : Compositions) (s : Session) (name : String) :
    Except Fault Binary64 := do
  let (e, defs) ← r.get name
  e.predict (callProbability s.profile s.chaos s.instability) defs

end Fickle

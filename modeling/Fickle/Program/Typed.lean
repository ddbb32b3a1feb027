import Fickle.Drift.Variable
import Fickle.Program

/-! # Constructs with their own types

Each action evaluates one construct and takes its outcome apart.
-/

namespace Fickle.Program

/-- The part of an outcome that a construct should have. When it is not there, the log is at fault
in a replay, and the arguments are otherwise. -/
def expect {β : Type} (c : Construct) (view : Outcome Binary64 → Option β)
    (o : Outcome Binary64) : Program β := do
  match view o with
  | some v => return v
  | none =>
    if (← session).isReplaying then throw (.badLog (.misfit o c))
    else throw (.invalidArgument c (.produced o))

def call {β : Type} (c : Construct) (view : Outcome Binary64 → Option β) (site : Site)
    (args : Args Binary64) : Program β := do
  expect c view (← evaluate c site args)

def boolCall (c : Construct) (site : Site) (args : Args Binary64) : Program Bool :=
  call c Outcome.asBool? site args

def maybe (site : Site) (condition : Bool) : Program Bool :=
  boolCall .maybe site (.condition condition)

def sometimes (site : Site) (condition : Bool) : Program Bool :=
  boolCall .sometimes site (.condition condition)

def kindaBool (site : Site) (value : Bool) : Program Bool :=
  boolCall .fuzzyBool site (.condition value)

def sortaWhile (site : Site) (condition : Bool) : Program Bool :=
  boolCall .sortaWhile site (.condition condition)

def eventually (site : Site) (condition : Bool) : Program Bool :=
  boolCall .eventually site (.condition condition)

def maybeFor (site : Site) : Program Bool := boolCall .maybeFor site .unit

def kindaInt (site : Site) (value : Int64) : Program Int64 :=
  call .fuzzyInt Outcome.asInt? site (.int value)

def fuzzyReassign (site : Site) (value : Int64) : Program Int64 :=
  call .fuzzyReassign Outcome.asInt? site (.int value)

def kindaFloat (site : Site) (value : Binary64) : Program Binary64 :=
  call .fuzzyFloat Outcome.asFloat? site (.float value)

def ish (site : Site) (left right : Binary64) (tolerance : Option Binary64) : Program Bool :=
  boolCall .ishComparison site (.compare left right tolerance)

def ishValue (site : Site) (value : Binary64) (variance : Option Binary64) : Program Binary64 :=
  call .ishValue Outcome.asFloat? site (.ishValue value variance)

/-- An integer with variance: the number that it becomes is cut back to its integer part. -/
def ishValueInt (site : Site) (value : Int64) (variance : Option Binary64) : Program Int64 :=
  return Scalar.trunc (← ishValue site (Scalar.ofInt value.toInt) variance)

def kindaRepeat (site : Site) (n : UInt64) : Program UInt64 :=
  call .repeatCount Outcome.asCount? site (.count n)

def kindaBinary (site : Site) (odds : Option (Odds Binary64)) : Program Int8 :=
  call .kindaBinary Outcome.asTernary? site (.binary odds)

/-! ## Loops

The body of a loop may belong to a wider kind of action than a program.
-/

section

variable {m : Type → Type} [Monad m] [MonadLiftT Program m] {β : Type}

/-- Runs `body` for `n` indices from `i` on. -/
def loop (body : Nat → m β) : Nat → Nat → m (List β)
  | 0, _ => return []
  | n + 1, i => do
    let b ← body i
    return b :: (← loop body n (i + 1))

/-- Runs `body` roughly `n` times; the count, and the results. -/
def repeatWith (site : Site) (n : UInt64) (body : Nat → m β) : m (UInt64 × List β) := do
  let count ← liftM (kindaRepeat site n)
  return (count, ← loop body count.toNat 0)

/-- Runs `body` on the items that are let through; its results. -/
def maybeForEach {ι : Type} (site : Site) (body : ι → m β) : List ι → m (List β)
  | [] => return []
  | x :: xs => do
    if ← liftM (maybeFor site) then
      let b ← body x
      return b :: (← maybeForEach site body xs)
    else maybeForEach site body xs

end

/-- Polls a condition until it is confirmed, from poll `k` on and at most so many times more;
whether it was confirmed, and the number of polls. -/
def pollFrom (site : Site) (condition : Nat → Bool) : Nat → Nat → Program (Bool × Nat)
  | 0, k => return (false, k)
  | n + 1, k => do
    if ← eventually site (condition k) then return (true, k + 1)
    else pollFrom site condition n (k + 1)

def eventuallyWithin (site : Site) (attempts : UInt32) (condition : Nat → Bool) :
    Program (Bool × Nat) :=
  pollFrom site condition attempts.toNat 0

/-! ## Printing -/

/-- The line of a print that the gate let through or not. -/
def printedLine (style : Style) (seq : Nat) (printed : Bool) (message : String) : String :=
  if printed then "[print] " ++ message
  else if message.isEmpty then style.shrug seq
  else style.shrug seq ++ " " ++ message

/-- Prints the message, or a shrug that is chosen by the number of the decision. -/
def sortaPrint (site : Site) (message : String) : Program Bool := do
  let seq := (← session).next
  let printed ← boolCall .sortaPrint site .unit
  print (printedLine (← session).profile.style seq printed message)
  return printed

/-! ## Drifting variables -/

def driftVar (site : Site) (nominal : Binary64) : Program DriftVar :=
  return ⟨site, Aging.declared nominal (← get).clock.now⟩

/-- Reads a variable: what came of it, and the variable after the read. The read is booked in the
variable before the call is evaluated. -/
def timeDrift (v : DriftVar) : StateM Host (Except Fault Binary64 × DriftVar) := do
  let (sample, aging) := v.aging.touch (← get).clock.now
  -- The variable is given back whatever comes of the call.
  let result ← (call .timeDrift Outcome.asFloat? v.site (.drift sample)).run
  return (result, { v with aging })

end Fickle.Program

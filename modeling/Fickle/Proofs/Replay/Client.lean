import Fickle.Composition
import Fickle.Program.Import
import Fickle.Program.World
import Fickle.Proofs.Program

/-! # Clients

A client uses a session step after step. What it does next may depend on all that it has seen
before, which is everything but the times in its drifting variables.
-/

namespace Fickle

/-! ## Operations -/

inductive Operation : Type → Type 1 where
  | evaluate (c : Construct) (site : Site) (args : Args Binary64) : Operation (Outcome Binary64)
  | evaluateNamed (name : String) (site : Site) (args : Args Binary64) :
    Operation (Outcome Binary64)
  | maybe (site : Site) (condition : Bool) : Operation Bool
  | sometimes (site : Site) (condition : Bool) : Operation Bool
  | kindaBool (site : Site) (value : Bool) : Operation Bool
  | sortaWhile (site : Site) (condition : Bool) : Operation Bool
  | eventually (site : Site) (condition : Bool) : Operation Bool
  | eventuallyWithin (site : Site) (attempts : UInt32) (condition : Nat → Bool) :
    Operation (Bool × Nat)
  | maybeFor (site : Site) : Operation Bool
  | kindaInt (site : Site) (value : Int64) : Operation Int64
  | fuzzyReassign (site : Site) (value : Int64) : Operation Int64
  | kindaFloat (site : Site) (value : Binary64) : Operation Binary64
  | ish (site : Site) (left right : Binary64) (tolerance : Option Binary64) : Operation Bool
  | ishValue (site : Site) (value : Binary64) (variance : Option Binary64) : Operation Binary64
  | ishValueInt (site : Site) (value : Int64) (variance : Option Binary64) : Operation Int64
  | kindaRepeat (site : Site) (n : UInt64) : Operation UInt64
  | kindaBinary (site : Site) (odds : Option (Odds Binary64)) : Operation Int8
  | sortaPrint (site : Site) (message : String) : Operation Bool
  | kindaImport {β : Type} (site : Site) (module : String) (load : Except String β) :
    Operation (Imported β)
  | maybeImport {β : Type} (site : Site) (module : String) (load : Except String β) :
    Operation (Imported β)
  | maybeImportOr {β : Type} (site : Site) (module : String) (load : Except String β)
    (fallbackModule : String) (fallback : Except String β) : Operation (Imported β)
  | invoke (r : Compositions) (name : String) (site : Site) : Operation Bool
  | welp {β : Type} (text : β → String) (primary : Option β) (fallback : β) : Operation β
  | welpResult {β : Type} (text : β → String) (primary : Except String β) (fallback : β) :
    Operation β
  | setPersonality (name : String) : Operation Unit
  | setChaosLevel (level : UInt8) : Operation Unit

def Operation.program {β : Type} : Operation β → Program β
  | evaluate c site args => Program.evaluate c site args
  | evaluateNamed name site args => Program.evaluateNamed name site args
  | maybe site condition => Program.maybe site condition
  | sometimes site condition => Program.sometimes site condition
  | kindaBool site value => Program.kindaBool site value
  | sortaWhile site condition => Program.sortaWhile site condition
  | eventually site condition => Program.eventually site condition
  | eventuallyWithin site attempts condition => Program.eventuallyWithin site attempts condition
  | maybeFor site => Program.maybeFor site
  | kindaInt site value => Program.kindaInt site value
  | fuzzyReassign site value => Program.fuzzyReassign site value
  | kindaFloat site value => Program.kindaFloat site value
  | ish site left right tolerance => Program.ish site left right tolerance
  | ishValue site value variance => Program.ishValue site value variance
  | ishValueInt site value variance => Program.ishValueInt site value variance
  | kindaRepeat site n => Program.kindaRepeat site n
  | kindaBinary site odds => Program.kindaBinary site odds
  | sortaPrint site message => Program.sortaPrint site message
  | kindaImport site module load => Program.kindaImport site module load
  | maybeImport site module load => Program.maybeImport site module load
  | maybeImportOr site module load fallbackModule fallback =>
    Program.maybeImportOr site module load fallbackModule fallback
  | invoke r name site => Program.invoke r name site
  | welp text primary fallback => Program.welp text primary fallback
  | welpResult text primary fallback => Program.welpResult text primary fallback
  | setPersonality name => Program.setPersonality name
  | setChaosLevel level => Program.setChaosLevel level

/-! ## What a client sees -/

/-- What a client can see of its world. -/
structure View where
  instability : Instability
  tally : Tally
  next : Nat
  effective : Construct → Binary64
  printed : List String
  /-- The sites, the nominal values and the reads of the variables. -/
  vars : List (Site × Binary64 × UInt64)

/-- What a drifting variable is, but for its times. -/
def DriftVar.shown (v : DriftVar) : Site × Binary64 × UInt64 :=
  (v.site, v.aging.nominal, v.aging.accesses)

theorem DriftVar.getElem?_of_shown {xs ys : List DriftVar} (h : xs.map shown = ys.map shown)
    (i : Nat) : (xs[i]? = none ∧ ys[i]? = none) ∨
      ∃ x y, xs[i]? = some x ∧ ys[i]? = some y ∧ x.shown = y.shown := by
  have hi : xs[i]?.map shown = ys[i]?.map shown := by
    rw [← List.getElem?_map, h, List.getElem?_map]
  rcases hx : xs[i]? with _ | x <;> rcases hy : ys[i]? with _ | y <;> rw [hx, hy] at hi
  · exact .inl ⟨rfl, rfl⟩
  · cases hi
  · cases hi
  · exact .inr ⟨x, y, rfl, rfl, Option.some.inj hi⟩

theorem DriftVar.map_shown_set {xs ys : List DriftVar} (h : xs.map shown = ys.map shown) (i : Nat)
    {x y : DriftVar} (hxy : x.shown = y.shown) :
    (xs.set i x).map shown = (ys.set i y).map shown := by
  rw [List.map_set, List.map_set, h, hxy]

/-- Whatever the clock reads, a variable that is read stays what it is, but for its times. -/
theorem DriftVar.touch_shown {x y : DriftVar} (hxy : x.shown = y.shown) (now now' : Duration) :
    (x.aging.touch now).1.nominal = (y.aging.touch now').1.nominal ∧
      ({ x with aging := (x.aging.touch now).2 } : DriftVar).shown =
        ({ y with aging := (y.aging.touch now').2 } : DriftVar).shown := by
  unfold shown at hxy
  rw [Prod.mk.injEq, Prod.mk.injEq] at hxy
  obtain ⟨hsite, hnominal, haccesses⟩ := hxy
  unfold shown Aging.touch
  dsimp only
  rw [hsite, hnominal, haccesses]
  exact ⟨rfl, rfl⟩

def World.view (w : World) : View where
  instability := w.session.instability
  tally := w.session.tally
  next := w.session.next
  effective := w.session.effective
  printed := w.host.printed
  vars := w.vars.map DriftVar.shown

/-! ## Actions -/

namespace Act

variable {β γ : Type}

/-- Goes on with what came of `p`, be it a fault. -/
def attempt (p : Act β) (next : Except Fault β → Act γ) : Act γ :=
  ExceptT.mk fun w =>
    let (r, w) := p.play w
    (next r).play w

def look : Act View := ExceptT.mk fun w => (.ok w.view, w)

theorem play_bind (p : Act β) (f : β → Act γ) (w : World) :
    (p >>= f).play w = match p.play w with
      | (.ok x, w') => (f x).play w'
      | (.error e, w') => (.error e, w') := by
  have hbind : (p >>= f).play w = ExceptT.bindCont f (p.play w).1 (p.play w).2 := rfl
  rw [hbind]
  rcases p.play w with ⟨e | x, w'⟩
  · rfl
  · rfl

theorem play_assign (i : Nat) (nominal : Binary64) (time : Duration → Duration) (w : World) :
    (assign i nominal time).play w = match w.vars[i]? with
      | none => (.ok (), w)
      | some x => (.ok (), { w.tick with
          vars := w.vars.set i (x.assign nominal (time w.tick.host.clock.now)) }) := rfl

theorem play_timeDrift (i : Nat) (w : World) :
    (timeDrift i).play w = match w.vars[i]? with
      | none => (.ok none, w)
      | some x =>
        let read := x.aging.touch w.tick.host.clock.now
        let (r, host) := (Program.call .timeDrift Outcome.asFloat? x.site (.drift read.1)).play
          w.tick.host
        (r.map some, { w.tick with host, vars := w.vars.set i { x with aging := read.2 } }) := rfl

end Act

/-- Something that a client does in one go. The body of a loop may do anything that a client
does. -/
inductive Action : Type → Type 1 where
  | operate {β : Type} (op : Operation β) : Action β
  | driftVar (site : Site) (nominal : Binary64) : Action Nat
  | timeDrift (i : Nat) : Action (Option Binary64)
  | assign (i : Nat) (nominal : Binary64) (time : Duration → Duration) : Action Unit
  | look : Action View
  | settle {β : Type} (r : Except Fault β) : Action β
  | attempt {β γ : Type} (a : Action β) (next : Except Fault β → Action γ) : Action γ
  | repeatWith {β : Type} (site : Site) (n : UInt64) (body : Nat → Action β) :
    Action (UInt64 × List β)
  | maybeForEach {ι β : Type} (site : Site) (body : ι → Action β) (items : List ι) :
    Action (List β)

def Action.act {β : Type} : Action β → Act β
  | operate op => Act.ofProgram op.program
  | driftVar site nominal => Act.driftVar site nominal
  | timeDrift i => Act.timeDrift i
  | assign i nominal time => Act.assign i nominal time
  | look => Act.look
  | settle r => ExceptT.mk (pure r)
  | attempt a next => a.act.attempt fun r => (next r).act
  | repeatWith site n body => Program.repeatWith site n fun i => (body i).act
  | maybeForEach site body items => Program.maybeForEach site (fun x => (body x).act) items

/-! ## Clients -/

/-- A client does one action after the other, each chosen by what came of those before it. -/
inductive Client : Type 1 where
  | done
  | step {β : Type} (a : Action β) (next : Except Fault β → View → Client)

/-- What came of a step, and what could be seen then. -/
structure Moment : Type 1 where
  {Answer : Type}
  answer : Except Fault Answer
  view : View

/-- The moments of a client, and the world that it leaves. -/
def Client.play : Client → World → List Moment × World
  | done, w => ([], w)
  | step a next, w =>
    let (answer, w) := a.act.play w
    let (moments, w') := (next answer w.view).play w
    (⟨answer, w.view⟩ :: moments, w')

end Fickle

import Fickle.Proofs.Replay.Client
import Fickle.Proofs.Replay.Couple

/-! # Plain programs

All that a client can ask for is put together from calls, changes of the settings, fallbacks and
reports. What holds of a program put together like that is shown once, by induction on how it is.
-/

namespace Fickle

/-- A typed call came upon an outcome of a kind that its construct does not have. -/
def Fault.isMisfit : Fault → Bool
  | .invalidArgument _ (.produced _) | .badLog (.misfit _ _) => true
  | _ => false

namespace Program

/-- A program that looks at no more of a session than other sessions may have alike, and that
leaves it to its typed calls to refuse an outcome. -/
inductive Plain : {α : Type} → Program α → Prop where
  | pure {α : Type} (a : α) : Plain (pure a)
  | throw {α : Type} {f : Fault} (hf : f.isMisfit = false) : Plain (throw f : Program α)
  | bind {α β : Type} {p : Program α} {f : α → Program β} (hp : Plain p)
      (hf : ∀ a, Plain (f a)) : Plain (p >>= f)
  | look {α : Type} {f : Session → Program α} (hf : ∀ s, Plain (f s))
      (hsame : ∀ s t, s.Alike t → f s = f t) : Plain (session >>= f)
  | report (e : Event) : Plain (report e)
  | print (line : String) : Plain (print line)
  | evaluate (c : Construct) (site : Site) (args : Args Binary64) : Plain (evaluate c site args)
  | call {β : Type} {c : Construct} {view : Outcome Binary64 → Option β} (hview : Fits c view)
      (site : Site) (args : Args Binary64) : Plain (call c view site args)
  | setPersonality (name : String) : Plain (setPersonality name)
  | setChaosLevel (level : UInt8) : Plain (setChaosLevel level)
  | recordFallback (message : String) : Plain (recordFallback message)

variable {β : Type}

theorem Plain.couples {R : Args Binary64 → Args Binary64 → Prop} (hR : ∀ args, R args args)
    {p : Program β} (h : Plain p) : Couples R p p := by
  induction h with
  | pure a => exact Couples.pure a
  | throw hf => exact Couples.throw _
  | bind hp hf ihp ihf => exact Couples.bind ihp ihf
  | look hf hsame ih =>
    apply Couples.session
    intro s t hst
    rw [← hsame s t hst]
    exact ih s
  | report e => exact Couples.report e e
  | print line => exact Couples.print line
  | evaluate c site args => exact couples_evaluate hR c site args
  | call hview site args => exact couples_call hview site (hR args)
  | setPersonality name => exact Couples.setPersonality name
  | setChaosLevel level => exact Couples.setChaosLevel level
  | recordFallback message => exact Couples.recordFallback message message

/-! ## Calls -/

theorem plain_boolCall {c : Construct} (hc : c.yieldsBool = true) (site : Site)
    (args : Args Binary64) : Plain (boolCall c site args) :=
  Plain.call (fits_asBool hc) site args

theorem plain_evaluateNamed (name : String) (site : Site) (args : Args Binary64) :
    Plain (evaluateNamed name site args) := by
  unfold evaluateNamed
  split
  · exact Plain.evaluate _ site args
  · exact Plain.throw rfl

theorem plain_pollFrom (site : Site) (condition : Nat → Bool) (n k : Nat) :
    Plain (pollFrom site condition n k) := by
  induction n generalizing k with
  | zero => exact Plain.pure _
  | succ n ih =>
    unfold pollFrom
    apply Plain.bind (plain_boolCall rfl site _)
    intro confirmed
    split
    · exact Plain.pure _
    · exact ih (k + 1)

theorem plain_sortaPrint (site : Site) (message : String) : Plain (sortaPrint site message) := by
  unfold sortaPrint
  apply Plain.look
  · intro s
    apply Plain.bind (plain_boolCall rfl site _)
    intro printed
    apply Plain.look
    · exact fun t => Plain.bind (Plain.print _) fun _ => Plain.pure printed
    · intro t t' h
      rw [h.profile]
  · intro s t h
    rw [h.next]

/-! ## Imports -/

theorem plain_importFallback (attempted : Bool) (module : String) (fallback : Except String β) :
    Plain (importFallback attempted module fallback) := by
  unfold importFallback
  rcases fallback with reason | v
  · refine Plain.look ?_ fun s t h => by rw [h.profile]
    intro s
    split
    · exact Plain.bind (Plain.recordFallback _) fun _ => Plain.pure _
    · exact Plain.bind (Plain.report _) fun _ => Plain.pure _
  · exact Plain.bind (Plain.report _) fun _ => Plain.pure _

theorem plain_gatedImport {c : Construct} (hc : c.yieldsBool = true) (site : Site)
    (module : String) (load : Except String β) : Plain (gatedImport c site module load) := by
  unfold gatedImport
  apply Plain.bind (plain_boolCall hc site _)
  intro through
  split
  · rcases load with reason | v
    · refine Plain.look ?_ fun s t h => by rw [h.profile]
      exact fun s => Plain.bind (Plain.recordFallback _) fun _ => Plain.pure _
    · exact Plain.pure _
  · refine Plain.look ?_ fun s t h => by rw [h.profile]
    exact fun s => Plain.bind (Plain.report _) fun _ => Plain.pure _

theorem plain_maybeImportOr (site : Site) (module : String) (load : Except String β)
    (fallbackModule : String) (fallback : Except String β) :
    Plain (maybeImportOr site module load fallbackModule fallback) := by
  unfold maybeImportOr
  apply Plain.bind (plain_boolCall rfl site _)
  intro through
  split
  · rcases load with reason | v
    · refine Plain.look ?_ fun s t h => by rw [h.profile]
      exact fun s => Plain.bind (Plain.report _) fun _ => plain_importFallback true _ _
    · exact Plain.pure _
  · refine Plain.look ?_ fun s t h => by rw [h.profile]
    exact fun s => Plain.bind (Plain.report _) fun _ => plain_importFallback false _ _

/-! ## Compositions -/

theorem plain_constituent (c : Construct) (site : Site) (args : Args Binary64) :
    Plain (constituent c site args) := by
  unfold constituent
  apply Plain.bind (Plain.evaluate c site args)
  intro o
  cases o with
  | bool b => exact Plain.pure b
  | int v => exact Plain.throw rfl
  | float v => exact Plain.throw rfl
  | ternary v => exact Plain.throw rfl
  | count n => exact Plain.throw rfl

mutual

theorem plain_evalWith (defs : Definitions Binary64) (e : Expr Binary64) (site : Site) :
    Plain (e.evalWith constituent defs site) := by
  unfold Expr.evalWith
  cases e with
  | call c args => exact plain_constituent c site args
  | use name =>
    dsimp only
    split
    · exact Plain.throw rfl
    · rename_i e earlier hlookup
      exact plain_evalWith earlier e site
  | not part => exact Plain.bind (plain_evalWith defs part (site.child 0)) fun _ => Plain.pure _
  | all parts => exact Plain.bind (plain_evalParts defs parts site 0) fun _ => Plain.pure _
  | any parts => exact Plain.bind (plain_evalParts defs parts site 0) fun _ => Plain.pure _
  | atLeast k parts =>
    exact Plain.bind (plain_evalParts defs parts site 0) fun _ => Plain.pure _
termination_by (defs.length, sizeOf e)
decreasing_by
  · exact Prod.Lex.left _ _ (Definitions.length_lookup_lt (by assumption))
  all_goals exact Prod.Lex.right _ (by simp +arith)

theorem plain_evalParts (defs : Definitions Binary64) (parts : List (Expr Binary64)) (site : Site)
    (i : UInt32) : Plain (Expr.evalParts constituent defs parts site i) := by
  unfold Expr.evalParts
  cases parts with
  | nil => exact Plain.pure _
  | cons part parts =>
    exact Plain.bind (plain_evalWith defs part (site.child i)) fun _ =>
      Plain.bind (plain_evalParts defs parts site (i + 1)) fun _ => Plain.pure _
termination_by (defs.length, sizeOf parts)
decreasing_by all_goals exact Prod.Lex.right _ (by simp +arith)

end

theorem plain_invoke (r : Compositions) (name : String) (site : Site) :
    Plain (invoke r name site) := by
  unfold invoke Compositions.get
  rcases r.defs.lookup name with _ | ⟨e, earlier⟩
  · exact Plain.bind (Plain.throw rfl) fun found => plain_evalWith found.2 found.1 site
  · exact plain_evalWith earlier e site

/-! ## Fallbacks -/

theorem plain_welp (text : β → String) (primary : Option β) (fallback : β) :
    Plain (welp text primary fallback) := by
  unfold welp
  cases primary with
  | some v => exact Plain.pure v
  | none =>
    refine Plain.look ?_ fun s t h => by rw [h.profile]
    exact fun s => Plain.bind (Plain.recordFallback _) fun _ => Plain.pure fallback

theorem plain_welpResult (text : β → String) (primary : Except String β) (fallback : β) :
    Plain (welpResult text primary fallback) := by
  unfold welpResult
  cases primary with
  | ok v => exact Plain.pure v
  | error e => exact Plain.bind (Plain.report _) fun _ => plain_welp text none fallback

end Program

/-! ## Operations -/

/-- Whatever a client asks for, the program that does it is plain. -/
theorem Operation.plain {β : Type} (op : Operation β) : op.program.Plain := by
  cases op with
  | evaluate c site args => exact Program.Plain.evaluate c site args
  | evaluateNamed name site args => exact Program.plain_evaluateNamed name site args
  | maybe site condition => exact Program.plain_boolCall rfl site _
  | sometimes site condition => exact Program.plain_boolCall rfl site _
  | kindaBool site value => exact Program.plain_boolCall rfl site _
  | sortaWhile site condition => exact Program.plain_boolCall rfl site _
  | eventually site condition => exact Program.plain_boolCall rfl site _
  | eventuallyWithin site attempts condition =>
    exact Program.plain_pollFrom site condition attempts.toNat 0
  | maybeFor site => exact Program.plain_boolCall rfl site _
  | kindaInt site value => exact Program.Plain.call (Program.fits_asInt rfl) site _
  | fuzzyReassign site value => exact Program.Plain.call (Program.fits_asInt rfl) site _
  | kindaFloat site value => exact Program.Plain.call (Program.fits_asFloat (by decide)) site _
  | ish site left right tolerance => exact Program.plain_boolCall rfl site _
  | ishValue site value variance =>
    exact Program.Plain.call (Program.fits_asFloat (by decide)) site _
  | ishValueInt site value variance =>
    apply Program.Plain.bind
    · exact Program.Plain.call (Program.fits_asFloat (by decide)) site _
    · exact fun v => Program.Plain.pure _
  | kindaRepeat site n => exact Program.Plain.call (Program.fits_asCount rfl) site _
  | kindaBinary site odds => exact Program.Plain.call (Program.fits_asTernary rfl) site _
  | sortaPrint site message => exact Program.plain_sortaPrint site message
  | kindaImport site module load => exact Program.plain_gatedImport rfl site module load
  | maybeImport site module load => exact Program.plain_gatedImport rfl site module load
  | maybeImportOr site module load fallbackModule fallback =>
    exact Program.plain_maybeImportOr site module load fallbackModule fallback
  | invoke r name site => exact Program.plain_invoke r name site
  | welp text primary fallback => exact Program.plain_welp text primary fallback
  | welpResult text primary fallback => exact Program.plain_welpResult text primary fallback
  | setPersonality name => exact Program.Plain.setPersonality name
  | setChaosLevel level => exact Program.Plain.setChaosLevel level

theorem Operation.couples {β : Type} {R : Args Binary64 → Args Binary64 → Prop}
    (hR : ∀ args, R args args) (op : Operation β) : Program.Couples R op.program op.program :=
  op.plain.couples hR

end Fickle

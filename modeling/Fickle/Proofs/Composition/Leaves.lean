import Fickle.Proofs.Composition.Declared
import Fickle.Proofs.Session.Evaluate

/-! # A composition is its leaves

Invoking a composition makes the calls of its formula, from left to right and none of them left
out, and puts the answers together. The first call that gives no truth value ends it then and
there.
-/

namespace Fickle

/-! ## Calls in turn -/

namespace Session

/-- One call for a truth value: what comes of it, and the session after it. -/
def ask (s : Session) (l : Leaf Binary64) : Except Fault Bool × Session :=
  match s.evaluate l.construct l.site l.args with
  | .ok (.bool b, t) => (.ok b, t)
  | .ok (o, t) => (.error (.invalidArgument l.construct (.wantedBoolean o)), t)
  | .error fault => (.error fault, s)

/-- Calls one after another, until one of them gives no truth value. -/
def askAll (s : Session) : List (Leaf Binary64) → Except Fault (List Bool) × Session
  | [] => (.ok [], s)
  | l :: ls =>
    match s.ask l with
    | (.ok b, t) => ((t.askAll ls).1.map (b :: ·), (t.askAll ls).2)
    | (.error fault, t) => (.error fault, t)

variable {s t u : Session} {l : Leaf Binary64} {fault : Fault}

theorem askAll_of_ask_eq_ok {b : Bool} (h : s.ask l = (.ok b, t)) (ls : List (Leaf Binary64)) :
    s.askAll (l :: ls) = ((t.askAll ls).1.map (b :: ·), (t.askAll ls).2) := by
  rw [askAll, h]

theorem askAll_of_ask_eq_error (h : s.ask l = (.error fault, t)) (ls : List (Leaf Binary64)) :
    s.askAll (l :: ls) = (.error fault, t) := by
  rw [askAll, h]

theorem askAll_append {before : List (Leaf Binary64)} {bs : List Bool}
    (hbefore : s.askAll before = (.ok bs, t)) (h : t.ask l = (.error fault, u))
    (after : List (Leaf Binary64)) : s.askAll (before ++ l :: after) = (.error fault, u) := by
  induction before generalizing s bs with
  | nil =>
    cases hbefore
    exact askAll_of_ask_eq_error h after
  | cons first before ih =>
    rcases hfirst : s.ask first with ⟨fault' | b, s'⟩
    · rw [askAll_of_ask_eq_error hfirst] at hbefore
      cases hbefore
    · rw [askAll_of_ask_eq_ok hfirst, Prod.mk.injEq] at hbefore
      obtain ⟨hanswers, rfl⟩ := hbefore
      rcases hrest : (s'.askAll before).1 with fault' | bs'
      · rw [hrest] at hanswers
        cases hanswers
      · rw [List.cons_append, askAll_of_ask_eq_ok hfirst, ih (Prod.ext hrest rfl)]
        rfl

end Session

namespace Program

theorem play_bind_pure {β γ : Type} (p : Program β) (f : β → γ) (h : Host) :
    (p >>= fun b => pure (f b)).play h = ((p.play h).1.map f, (p.play h).2) := by
  rw [play_bind]
  rcases p.play h with ⟨fault | b, h'⟩
  · rfl
  · rfl

theorem play_constituent (l : Leaf Binary64) (h : Host) :
    ((constituent l.construct l.site l.args).play h).1 = (h.session.ask l).1 ∧
      ((constituent l.construct l.site l.args).play h).2.session = (h.session.ask l).2 := by
  unfold constituent Session.ask
  rw [play_bind]
  rcases heval : h.session.evaluate l.construct l.site l.args with fault | ⟨o, t⟩
  · obtain ⟨hres, hsession, -⟩ := session_play_evaluate_of_error heval
    rcases hplay : (evaluate l.construct l.site l.args).play h with ⟨r, h'⟩
    rw [hplay] at hres hsession
    cases hres
    exact ⟨rfl, hsession⟩
  · obtain ⟨hres, hsession, -⟩ := session_play_evaluate_of_ok heval
    rcases hplay : (evaluate l.construct l.site l.args).play h with ⟨r, h'⟩
    rw [hplay] at hres hsession
    cases hres
    cases o <;> exact ⟨rfl, hsession⟩

theorem play_constituents (ls : List (Leaf Binary64)) (h : Host) :
    ((ls.mapM fun l => constituent l.construct l.site l.args).play h).1 =
        (h.session.askAll ls).1 ∧
      ((ls.mapM fun l => constituent l.construct l.site l.args).play h).2.session =
        (h.session.askAll ls).2 := by
  induction ls generalizing h with
  | nil => exact ⟨rfl, rfl⟩
  | cons l ls ih =>
    rw [List.mapM_cons, play_bind]
    obtain ⟨hres, hsession⟩ := play_constituent l h
    rcases hplay : (constituent l.construct l.site l.args).play h with ⟨fault | b, h'⟩ <;>
      rw [hplay] at hres hsession
    · rw [Session.askAll_of_ask_eq_error (Prod.ext hres.symm hsession.symm)]
      exact ⟨rfl, rfl⟩
    · rw [Session.askAll_of_ask_eq_ok (Prod.ext hres.symm hsession.symm)]
      obtain ⟨hrest, hend⟩ := ih h'
      dsimp only
      rw [play_bind_pure, hrest, hend]
      exact ⟨rfl, rfl⟩

/-- The program makes the calls of the formula in turn, and nothing else. -/
structure GoesBy (p : Program Bool) (f : Formula (Leaf Binary64)) : Prop where
  performs : p = f.perform fun l => constituent l.construct l.site l.args
  result : ∀ h, (p.play h).1 = (h.session.askAll f.leaves).1.map f.holds
  session : ∀ h, (p.play h).2.session = (h.session.askAll f.leaves).2
  /-- The first call without a truth value, after calls that had one, is the end. -/
  stops : ∀ (h : Host) before l after bs s fault t, f.leaves = before ++ l :: after →
    h.session.askAll before = (.ok bs, s) → s.ask l = (.error fault, t) →
    (p.play h).1 = .error fault ∧ (p.play h).2.session = t

theorem goesBy_perform (f : Formula (Leaf Binary64)) :
    GoesBy (f.perform fun l => constituent l.construct l.site l.args) f := by
  have hplay (h : Host) :
      ((f.perform fun l => constituent l.construct l.site l.args).play h).1 =
          (h.session.askAll f.leaves).1.map f.holds ∧
        ((f.perform fun l => constituent l.construct l.site l.args).play h).2.session =
          (h.session.askAll f.leaves).2 := by
    obtain ⟨hres, hsession⟩ := play_constituents f.leaves h
    rw [Formula.perform, play_bind_pure, hres, hsession]
    exact ⟨rfl, rfl⟩
  refine ⟨rfl, fun h => (hplay h).1, fun h => (hplay h).2, ?_⟩
  intro h before l after bs s fault t hleaves hbefore hl
  rw [(hplay h).1, (hplay h).2, hleaves, Session.askAll_append hbefore hl]
  exact ⟨rfl, rfl⟩

theorem invoke_eq {r : Compositions} {name : String} (h : r.contains name = true) (site : Site) :
    invoke r name site = (Expr.use name).evalWith constituent r.defs site := by
  obtain ⟨e, seen, hlook⟩ := Definitions.contains_iff.mp h
  rw [invoke, Compositions.get, hlook, Expr.evalWith_use hlook]
  rfl

end Program

/-! ## Declared compositions -/

namespace Compositions

/-- The registry comes of an empty one by attempts to declare, some of them refused. -/
def Built (r : Compositions) : Prop := ∃ ds, empty.declareAll ds = r

variable {r : Compositions} {name : String}

theorem Built.declared (h : r.Built) : r.defs.Declared := by
  obtain ⟨ds, rfl⟩ := h
  exact (declared_declareAll .nil ds).1

theorem Built.exists_expands (h : r.Built) (hname : r.contains name = true) (site : Site) :
    ∃ f, Expr.Expands Definitions.lookup r.defs (.use name) site f ∧ f.Proper :=
  h.declared.exists_expands (Expr.check_use_eq_ok_iff.mpr hname) site

/-- On every host, to invoke a declared composition is to make the calls of its formula in turn and
to put their answers together. -/
theorem invoke_goes_by_leaves (hr : r.Built) (hname : r.contains name = true) (site : Site) :
    ∃ f : Formula (Leaf Binary64), (Expr.use name).Inlines r.defs site f ∧
      (∀ g, (Expr.use name).Inlines r.defs site g → g = f) ∧
      (Program.invoke r name site).GoesBy f := by
  obtain ⟨f, hf, -⟩ := hr.exists_expands hname site
  have hinlines := hr.declared.inlines hf
  refine ⟨f, hinlines, fun g hg => hg.unique hinlines, ?_⟩
  rw [Program.invoke_eq hname, hf.evalWith_eq]
  exact Program.goesBy_perform f

/-- One composition within another. The second attempt is refused, since the name is taken. -/
def nested : Compositions :=
  empty.declareAll
    [("pair", .any [.call .maybe (.condition true), .call .ishComparison (.compare 1.0 2.0 none)]),
     ("pair", .use "pair"),
     ("nested", .atLeast 1 [.use "pair", .not (.call .maybeFor .unit)])]

theorem contains_nested : nested.contains "nested" = true := by
  decide +kernel

theorem invoke_goes_by_leaves_nested : nested.contains "nested" = true ∧
    ∃ f : Formula (Leaf Binary64), (Expr.use "nested").Inlines nested.defs ⟨7⟩ f ∧
      (∀ g, (Expr.use "nested").Inlines nested.defs ⟨7⟩ g → g = f) ∧
      (Program.invoke nested "nested" ⟨7⟩).GoesBy f :=
  ⟨contains_nested, invoke_goes_by_leaves ⟨_, rfl⟩ contains_nested ⟨7⟩⟩

end Compositions

end Fickle

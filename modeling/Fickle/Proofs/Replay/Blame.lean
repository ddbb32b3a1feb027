import Fickle.Proofs.Composition.Leaves

/-! # Who is to blame for a recorded outcome that does not fit

A log may hold an outcome that its construct never yields. A call that meets one for want of a truth
value fails, and the session is the same whichever way the call was made. The fault is not: on its
own the call blames the log, and as a leaf of a composition it blames its arguments, which are good.
-/

namespace Fickle

/-- The replay goes on with a decision for the call, and the outcome recorded there is no truth
value. -/
structure Session.Misled (s : Session) (l : Leaf Binary64) (o : Outcome Binary64) : Prop where
  good : l.Good
  foreign : o.asBool? = none
  recorded : ∃ log k d, s.mode = .replaying ⟨log, k⟩ ∧ log.decisions[k]? = some d ∧
    d.construct = l.construct ∧ d.site = l.site ∧ d.outcome = o

namespace Session

variable {s : Session} {l : Leaf Binary64} {o : Outcome Binary64}

/-- The outcome is consumed all the same. -/
theorem Misled.exists_evaluate_eq_ok (h : s.Misled l o) :
    ∃ t, s.evaluate l.construct l.site l.args = .ok (o, t) ∧ t.isReplaying = true := by
  obtain ⟨log, k, d, hmode, hd, hc, hs, ho⟩ := h.recorded
  have hlookup : log.lookup k s.next l.construct l.site l.args = .ok d :=
    Log.lookup_eq_ok_iff.mpr ⟨h.good.check, hd, hc, hs⟩
  rw [evaluate_of_replaying hmode, hlookup, ← ho]
  exact ⟨_, rfl, isReplaying_book _ _ _⟩

end Session

namespace Program

/-- The two ways to make the call end on the same host. -/
theorem play_of_misled {h : Host} {l : Leaf Binary64} {o : Outcome Binary64}
    (hs : h.session.Misled l o) :
    ∃ h', (boolCall l.construct l.site l.args).play h = (.error (.badLog (.misfit o l.construct)), h') ∧
      (constituent l.construct l.site l.args).play h =
        (.error (.invalidArgument l.construct (.wantedBoolean o)), h') := by
  obtain ⟨t, heval, hreplaying⟩ := hs.exists_evaluate_eq_ok
  obtain ⟨hres, hsession, -⟩ := session_play_evaluate_of_ok heval
  rcases hplay : (evaluate l.construct l.site l.args).play h with ⟨_, h'⟩
  rw [hplay] at hres hsession
  cases hres
  refine ⟨h', ?_, ?_⟩
  · -- On its own, the call is made by a program that asks whether a log is replayed.
    have hmisfit : misfit h'.session l.construct o = .badLog (.misfit o l.construct) := by
      rw [misfit, hsession, if_pos hreplaying]
    rw [boolCall, call, play_bind, hplay]
    dsimp only
    rw [play_expect, hs.foreign, hmisfit]
  · rw [constituent, play_bind, hplay]
    have hforeign := hs.foreign
    cases o with
    | bool b => cases hforeign
    | _ => rfl

/-- An invocation goes by the formula that its name comes to. -/
theorem goesBy_invoke {r : Compositions} (hr : r.Built) {name : String} {site : Site}
    {f : Formula (Leaf Binary64)} (hf : (Expr.use name).Inlines r.defs site f) :
    (invoke r name site).GoesBy f := by
  have hname : r.contains name = true := by
    cases hf with
    | use hlook he =>
      obtain ⟨-, seen, hlook⟩ := Definitions.find_eq_some_iff.mp hlook
      exact Definitions.contains_iff.mpr ⟨_, seen, hlook⟩
    | gate g he => exact absurd he Gate.use_ne_expr
  obtain ⟨f', hf', -⟩ := hr.exists_expands hname site
  rw [hf.unique (hr.declared.inlines hf'), invoke_eq hname, hf'.evalWith_eq]
  exact goesBy_perform f'

/-- A recorded outcome that is no truth value is consumed by a call on its own as by a leaf of a
composition, however deep, and the session comes to be the same. But only the call on its own says
that the log is at fault. -/
theorem misfit_is_blamed_by_the_way_taken {h : Host} {l : Leaf Binary64} {o : Outcome Binary64}
    (hs : h.session.Misled l o) :
    (Fault.badLog (.misfit o l.construct)).kind = .format ∧
      (Fault.invalidArgument l.construct (.wantedBoolean o)).kind = .configuration ∧
      ∃ h', (boolCall l.construct l.site l.args).play h =
          (.error (.badLog (.misfit o l.construct)), h') ∧
        (constituent l.construct l.site l.args).play h =
          (.error (.invalidArgument l.construct (.wantedBoolean o)), h') ∧
        ∀ (r : Compositions) name site f before after bs (h₀ : Host), r.Built →
          (Expr.use name).Inlines r.defs site f → f.leaves = before ++ l :: after →
          h₀.session.askAll before = (.ok bs, h.session) →
          ((invoke r name site).play h₀).1 =
              .error (.invalidArgument l.construct (.wantedBoolean o)) ∧
            ((invoke r name site).play h₀).2.session = h'.session := by
  obtain ⟨h', hcall, hleaf⟩ := play_of_misled hs
  refine ⟨rfl, rfl, h', hcall, hleaf, ?_⟩
  intro r name site f before after bs h₀ hr hf hleaves hbefore
  -- The leaf is asked on the same session, where its way of blame is taken.
  have hask : h.session.ask l =
      (.error (.invalidArgument l.construct (.wantedBoolean o)), h'.session) := by
    obtain ⟨hres, hsession⟩ := play_constituent l h
    rw [hleaf] at hres hsession
    exact Prod.ext hres.symm hsession.symm
  exact (goesBy_invoke hr hf).stops h₀ before l after bs h.session _ _ hleaves hbefore hask

/-- A log with an integer where a condition was tested. -/
def mistyped : Log :=
  ⟨9, "playful", .least, false,
    #[⟨0, Site.child ⟨7⟩ 0, .maybe, ⟨0x3FE0000000000000⟩, .int 3⟩]⟩

/-- The session that replays it from its start. -/
def misreader : Host :=
  Host.ofSession (Session.reader mistyped Registry.builtin Personality.playful.profile) Clock.zero

theorem misled_misreader :
    misreader.session.Misled ⟨.maybe, Site.child ⟨7⟩ 0, .condition true⟩ (.int 3) where
  good := ⟨rfl, rfl⟩
  foreign := rfl
  recorded := ⟨mistyped, 0, _, rfl, rfl, rfl, rfl, rfl⟩

/-- A composition of one call, turned around. -/
def doubt : Compositions :=
  Compositions.empty.declareAll [("doubt", .not (.call .maybe (.condition true)))]

/-- The call is at the child of the site at which the composition is invoked. -/
theorem misfit_is_blamed_by_the_way_taken_doubt :
    misreader.session.Misled ⟨.maybe, Site.child ⟨7⟩ 0, .condition true⟩ (.int 3) ∧
      ∃ h', (boolCall .maybe (Site.child ⟨7⟩ 0) (.condition true)).play misreader =
          (.error (.badLog (.misfit (.int 3) .maybe)), h') ∧
        ((invoke doubt "doubt" ⟨7⟩).play misreader).1 =
            .error (.invalidArgument .maybe (.wantedBoolean (.int 3))) ∧
          ((invoke doubt "doubt" ⟨7⟩).play misreader).2.session = h'.session := by
  obtain ⟨-, -, h', hcall, -, hinvoke⟩ := misfit_is_blamed_by_the_way_taken misled_misreader
  have hlook : Definitions.find "doubt" doubt.defs =
      some (.not (.call .maybe (.condition true)), doubt.defs) := rfl
  exact ⟨misled_misreader, h', hcall, hinvoke doubt "doubt" ⟨7⟩ _ [] [] [] misreader ⟨_, rfl⟩
    (.use hlook (.not .call)) rfl rfl⟩

end Program

end Fickle

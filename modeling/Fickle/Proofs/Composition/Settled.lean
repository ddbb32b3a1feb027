import Fickle.Proofs.Composition.Leaves
import Mathlib.Logic.Relation

/-! # Declared compositions are settled

A name is looked up among all the declared compositions, so nothing in an expression itself says
that looking up comes to an end. It does, because each composition was checked against what was
there before it: what is met from a declared name is declared, and later declarations do not touch
it. Outside a replay a declared composition never fails, and always makes the same number of
decisions.
-/

namespace Fickle

open Definitions

variable {α : Type}

/-! ## What is met on the way down -/

namespace Expr

/-- To do anything with the whole is to do it with the part: a part of it, or the expression that it
is a name of among all the definitions. -/
inductive Part (defs : Definitions α) : Expr α → Expr α → Prop where
  | use {name : String} {e : Expr α} {seen : Definitions α}
    (hfind : find name defs = some (e, seen)) : Part defs e (.use name)
  | not {part : Expr α} : Part defs part (.not part)
  | gate {part whole : Expr α} {parts : List (Expr α)} (g : Gate) (hwhole : whole = g.expr parts)
    (hpart : part ∈ parts) : Part defs part whole

/-- The part is met on the way down from the whole. -/
abbrev MetIn (defs : Definitions α) : Expr α → Expr α → Prop := Relation.ReflTransGen (Part defs)

variable {defs seen : Definitions α} {e part whole : Expr α} {site : Site} {f : Formula (Leaf α)}

theorem not_part_call {c : Construct} {args : Args α} : ¬ Part defs part (.call c args) := by
  rintro (_ | _ | ⟨g, hwhole, -⟩)
  exact Gate.call_ne_expr hwhole

theorem part_use_iff {name : String} :
    Part defs part (.use name) ↔ ∃ s, lookup name defs = some (part, s) := by
  constructor
  · rintro (hfind | _ | ⟨g, hwhole, -⟩)
    · exact (find_eq_some_iff.mp hfind).2
    · exact absurd hwhole Gate.use_ne_expr
  · exact fun h => .use (find_eq_some_iff.mpr ⟨rfl, h⟩)

theorem part_not_iff : Part defs part (.not e) ↔ part = e := by
  constructor
  · rintro (_ | _ | ⟨g, hwhole, -⟩)
    · rfl
    · exact absurd hwhole Gate.not_ne_expr
  · rintro rfl
    exact .not

theorem part_gate_iff {g : Gate} {parts : List (Expr α)} :
    Part defs part (g.expr parts) ↔ part ∈ parts := by
  constructor
  · generalize hwhole : g.expr parts = whole
    rintro (_ | _ | ⟨g', hwhole', hpart⟩)
    · exact absurd hwhole.symm Gate.use_ne_expr
    · exact absurd hwhole.symm Gate.not_ne_expr
    · rw [(Gate.expr_inj (hwhole.trans hwhole')).2]
      exact hpart
  · exact .gate g rfl

/-- The way down from an expression that can be written out comes to an end. -/
theorem Expands.acc (h : Inlines defs e site f) : Acc (Part defs) e := by
  induction h with
  | call => exact ⟨_, fun part hpart => absurd hpart not_part_call⟩
  | use hlook he ih =>
    obtain ⟨rfl, s, hlook⟩ := find_eq_some_iff.mp hlook
    refine ⟨_, fun part hpart => ?_⟩
    obtain ⟨s', hlook'⟩ := part_use_iff.mp hpart
    cases hlook.symm.trans hlook'
    exact ih
  | not h ih =>
    refine ⟨_, fun part hpart => ?_⟩
    rw [part_not_iff.mp hpart]
    exact ih
  | gate g he hlength hparts ih =>
    refine ⟨_, fun part hpart => ?_⟩
    rw [he] at hpart
    obtain ⟨i, hi, rfl⟩ := List.mem_iff_getElem.mp (part_gate_iff.mp hpart)
    exact ih i _ _ (List.getElem?_eq_getElem hi) (List.getElem?_eq_getElem (hlength ▸ hi))

/-- The expression can be written out with nothing wrong in it. -/
def Closes [Scalar α] (defs : Definitions α) (e : Expr α) : Prop :=
  ∃ site f, Expands lookup defs e site f ∧ f.Proper

theorem Closes.of_part [Scalar α] (hdefs : defs.Declared) (h : Closes defs whole)
    (hpart : Part defs part whole) : Closes defs part := by
  obtain ⟨site, f, hf, hproper⟩ := h
  cases hf with
  | call => exact absurd hpart not_part_call
  | use hlook he =>
    obtain ⟨s, hlook'⟩ := part_use_iff.mp hpart
    cases hlook.symm.trans hlook'
    -- A name was written out among the definitions it sees, which are extended by all of them.
    exact ⟨site, f, he.extend (hdefs.of_lookup hlook).2.2, hproper⟩
  | not he =>
    rw [part_not_iff.mp hpart]
    cases hproper with
    | not hproper => exact ⟨_, _, he, hproper⟩
  | gate g he hlength hparts =>
    rw [he] at hpart
    obtain ⟨i, hi, rfl⟩ := List.mem_iff_getElem.mp (part_gate_iff.mp hpart)
    cases hproper with
    | gate hfits hproper =>
      have hf := List.getElem?_eq_getElem (hlength ▸ hi)
      exact ⟨_, _, hparts i _ _ (List.getElem?_eq_getElem hi) hf,
        hproper _ (List.mem_of_getElem? hf)⟩

theorem Closes.metIn [Scalar α] (hdefs : defs.Declared) (h : Closes defs whole)
    (hmet : MetIn defs part whole) : Closes defs part := by
  induction hmet using Relation.ReflTransGen.head_induction_on with
  | refl => exact h
  | head hpart _ ih => exact ih.of_part hdefs hpart

theorem Closes.contains [Scalar α] {name : String} (h : Closes defs (.use name)) :
    defs.contains name = true := by
  obtain ⟨site, f, hf, -⟩ := h
  cases hf with
  | use hlook he => exact contains_iff.mpr ⟨_, _, hlook⟩
  | gate g he => exact absurd he Gate.use_ne_expr

theorem Closes.inTable [Scalar α] {k : Nat} {parts : List (Expr α)}
    (h : Closes defs (.atLeast k parts)) (leaf : Construct → Args α → α) :
    ∃ ps, predictAll leaf defs parts = .ok ps ∧ k ≤ (holdCounts ps).length := by
  obtain ⟨site, f, hf, hproper⟩ := h
  cases hf with
  | gate g he hlength hparts =>
    cases hproper with
    | gate hfits hproper =>
      obtain ⟨rfl, rfl⟩ := Gate.expr_inj (g := .atLeast k) he
      refine ⟨_, predictAll_eq (.of_getElem? hlength fun i part f hpart hf =>
        (hparts i part f hpart hf).predict_eq leaf), ?_⟩
      rw [length_holdCounts, Formula.length_likelihoods]
      exact Nat.le_succ_of_le hfits

end Expr

/-! ## Outside a replay, and in one -/

namespace Session

variable {s : Session} {l : Leaf Binary64}

theorem exists_ask (hlive : s.isReplaying = false) (hl : l.Good) :
    ∃ b t, s.ask l = (.ok b, t) ∧ t.isReplaying = false ∧ t.next = s.next + 1 := by
  rcases heval : s.evaluate l.construct l.site l.args with f | ⟨o, t⟩
  · rw [evaluate_eq_error_iff_of_not_replaying hlive, hl.check] at heval
    cases heval
  · obtain ⟨hyields, hlive'⟩ := yields_of_evaluate_eq_ok hlive heval
    obtain ⟨b, hb⟩ := Option.isSome_iff_exists.mp (Program.fits_asBool hl.yieldsBool o hyields)
    cases o with
    | bool b =>
      refine ⟨b, t, ?_, hlive', (Booked.of_evaluate_eq_ok heval).next⟩
      rw [ask, heval]
    | _ => cases hb

theorem exists_askAll {ls : List (Leaf Binary64)} (hlive : s.isReplaying = false)
    (hls : ∀ l ∈ ls, l.Good) :
    ∃ bs, (s.askAll ls).1 = .ok bs ∧ (s.askAll ls).2.next = s.next + ls.length := by
  induction ls generalizing s with
  | nil => exact ⟨[], rfl, rfl⟩
  | cons l ls ih =>
    obtain ⟨hl, hls⟩ := List.forall_mem_cons.mp hls
    obtain ⟨b, t, hask, hlive', hnext⟩ := exists_ask hlive hl
    obtain ⟨bs, hbs, hrest⟩ := ih hlive' hls
    rw [askAll_of_ask_eq_ok hask]
    refine ⟨b :: bs, congrArg (Except.map (b :: ·)) hbs, ?_⟩
    rw [hrest, hnext, List.length_cons]
    omega

theorem of_ask_eq_error {fault : Fault} (hl : l.Good) (h : (s.ask l).1 = .error fault) :
    fault.isDivergence = true ∨ ∃ c o, fault = .invalidArgument c (.wantedBoolean o) := by
  unfold ask at h
  split at h
  · cases h
  · cases h
    exact .inr ⟨_, _, rfl⟩
  · rename_i f heval
    cases h
    left
    rcases hreplaying : s.isReplaying
    · rw [evaluate_eq_error_iff_of_not_replaying hreplaying, hl.check] at heval
      cases heval
    · obtain ⟨log, k, hmode⟩ := exists_cursor hreplaying
      rw [evaluate_of_replaying hmode] at heval
      unfold Log.lookup at heval
      rw [hl.check] at heval
      grind [Fault.isDivergence, Fault.kind]

theorem of_askAll_eq_error {ls : List (Leaf Binary64)} {fault : Fault}
    (hls : ∀ l ∈ ls, l.Good) (h : (s.askAll ls).1 = .error fault) :
    fault.isDivergence = true ∨ ∃ c o, fault = .invalidArgument c (.wantedBoolean o) := by
  induction ls generalizing s with
  | nil => cases h
  | cons l ls ih =>
    obtain ⟨hl, hls⟩ := List.forall_mem_cons.mp hls
    rcases hask : s.ask l with ⟨fault' | b, t⟩
    · rw [askAll_of_ask_eq_error hask] at h
      cases h
      exact of_ask_eq_error hl (congrArg Prod.fst hask)
    · rw [askAll_of_ask_eq_ok hask] at h
      rcases hrest : (t.askAll ls).1 with fault' | bs
      · rw [hrest] at h
        cases h
        exact ih hls hrest
      · rw [hrest] at h
        cases h

end Session

/-! ## Declared names -/

namespace Compositions

theorem predict_eq {r : Compositions} {name : String} (h : r.contains name = true) (s : Session) :
    r.predict s name =
      (Expr.use name).predict (callProbability s.profile s.chaos s.instability) r.defs := by
  obtain ⟨e, seen, hlook⟩ := contains_iff.mp h
  rw [Compositions.predict, get, hlook, Expr.predict_use hlook]
  rfl

/-- To count, to invoke and to predict under one name comes to the same with both registries. -/
structure Agree (r r' : Compositions) (name : String) : Prop where
  contains : r'.contains name = r.contains name
  decisions : (Expr.use name).decisions r'.defs = (Expr.use name).decisions r.defs
  invoke : ∀ site, Program.invoke r' name site = Program.invoke r name site
  predict : ∀ s, r'.predict s name = r.predict s name

/-- Whatever is done with a declared composition comes to an end, and to the same one ever after. -/
structure Settled (r : Compositions) (name : String) : Prop where
  /-- The way down from the name comes to an end, though names are looked up among all definitions,
  and it meets declared names only. -/
  ends : Acc (Expr.Part r.defs) (.use name)
  known : ∀ n, Expr.MetIn r.defs (.use n) (.use name) → r.contains n = true
  /-- Counting, invoking and predicting go down that way. -/
  unfolds : ∀ e seen, find name r.defs = some (e, seen) →
    (Expr.use name).decisions r.defs = e.decisions r.defs ∧
      (∀ site, Program.invoke r name site = e.evalWith Program.constituent r.defs site) ∧
      ∀ s, r.predict s name =
        e.predict (callProbability s.profile s.chaos s.instability) r.defs
  later : ∀ ds, r.Agree (r.declareAll ds) name
  /-- Outside a replay it is always answered, by the same number of decisions. -/
  answers : ∀ (h : Host) site, h.session.isReplaying = false →
    ∃ b, ((Program.invoke r name site).play h).1 = .ok b ∧
      ((Program.invoke r name site).play h).2.session.next =
        h.session.next + (Expr.use name).decisions r.defs
  /-- In a replay it fails only where the log does not go on with it, or not with a truth value. -/
  blames : ∀ (h : Host) site fault, ((Program.invoke r name site).play h).1 = .error fault →
    fault.isDivergence = true ∨ ∃ c o, fault = .invalidArgument c (.wantedBoolean o)
  predicts : ∀ s, ∃ p, r.predict s name = .ok p
  /-- The tail of a table begins within the table. -/
  inTable : ∀ k parts, Expr.MetIn r.defs (.atLeast k parts) (.use name) → ∀ s : Session, ∃ ps,
    Expr.predictAll (callProbability s.profile s.chaos s.instability) r.defs parts = .ok ps ∧
      k ≤ (holdCounts ps).length

variable {r : Compositions} {name : String}

theorem Built.agree (hr : r.Built) (hname : r.contains name = true)
    (ds : List (String × Expr Binary64)) : r.Agree (r.declareAll ds) name := by
  have hextends := (declared_declareAll hr.declared ds).2
  have hname' : (r.declareAll ds).contains name = true := hextends.contains hname
  have hexpands (site : Site) := hr.exists_expands hname site
  refine ⟨hname'.trans hname.symm, ?_, fun site => ?_, fun s => ?_⟩
  · obtain ⟨f, hf, -⟩ := hexpands ⟨0⟩
    rw [hf.decisions_eq, (hf.extend hextends).decisions_eq]
  · obtain ⟨f, hf, -⟩ := hexpands site
    rw [Program.invoke_eq hname, Program.invoke_eq hname', hf.evalWith_eq,
      (hf.extend hextends).evalWith_eq]
  · obtain ⟨f, hf, -⟩ := hexpands ⟨0⟩
    rw [predict_eq hname, predict_eq hname', hf.predict_eq, (hf.extend hextends).predict_eq]

theorem Built.unfolds (hr : r.Built) (hname : r.contains name = true) {e : Expr Binary64}
    {seen : Definitions Binary64} (hfind : find name r.defs = some (e, seen)) :
    (Expr.use name).decisions r.defs = e.decisions r.defs ∧
      (∀ site, Program.invoke r name site = e.evalWith Program.constituent r.defs site) ∧
      ∀ s, r.predict s name =
        e.predict (callProbability s.profile s.chaos s.instability) r.defs := by
  obtain ⟨-, s, hlook⟩ := find_eq_some_iff.mp hfind
  obtain ⟨hseen, hcheck, hextends⟩ := hr.declared.of_lookup hlook
  have hexpands (site : Site) := hseen.exists_expands hcheck site
  refine ⟨?_, fun site => ?_, fun s => ?_⟩
  · obtain ⟨f, hf, -⟩ := hexpands ⟨0⟩
    rw [Expr.decisions_use hlook, hf.decisions_eq, (hf.extend hextends).decisions_eq]
  · obtain ⟨f, hf, -⟩ := hexpands site
    rw [Program.invoke_eq hname, Expr.evalWith_use hlook, hf.evalWith_eq,
      (hf.extend hextends).evalWith_eq]
  · obtain ⟨f, hf, -⟩ := hexpands ⟨0⟩
    rw [predict_eq hname, Expr.predict_use hlook, hf.predict_eq, (hf.extend hextends).predict_eq]

theorem declared_is_settled (hr : r.Built) (hname : r.contains name = true) : r.Settled name := by
  have hexpands (site : Site) := hr.exists_expands hname site
  have hplay (site : Site) : ∃ f : Formula (Leaf Binary64),
      (Program.invoke r name site).GoesBy f ∧ (∀ l ∈ f.leaves, l.Good) ∧
        (Expr.use name).decisions r.defs = f.leaves.length := by
    obtain ⟨f, hf, hproper⟩ := hexpands site
    refine ⟨f, ?_, hproper.good, hf.decisions_eq⟩
    rw [Program.invoke_eq hname, hf.evalWith_eq]
    exact Program.goesBy_perform f
  obtain ⟨f, hf, hproper⟩ := hexpands ⟨0⟩
  -- Nothing below depends on the site, so any will do to write the composition out.
  have hcloses : Expr.Closes r.defs (.use name) := ⟨_, f, hf, hproper⟩
  exact {
    ends := (hr.declared.inlines hf).acc
    known := fun n hmet => (hcloses.metIn hr.declared hmet).contains
    unfolds := fun e seen hfind => hr.unfolds hname hfind
    later := hr.agree hname
    answers := by
      intro h site hlive
      obtain ⟨f, hgoes, hgood, hcount⟩ := hplay site
      obtain ⟨bs, hbs, hnext⟩ := Session.exists_askAll hlive hgood
      refine ⟨f.holds bs, ?_, ?_⟩
      · rw [hgoes.result, hbs]
        rfl
      · rw [hgoes.session, hnext, hcount]
    blames := by
      intro h site fault hfault
      obtain ⟨f, hgoes, hgood, -⟩ := hplay site
      rw [hgoes.result] at hfault
      rcases hanswers : (h.session.askAll f.leaves).1 with fault' | bs
      · rw [hanswers] at hfault
        cases hfault
        exact Session.of_askAll_eq_error hgood hanswers
      · rw [hanswers] at hfault
        cases hfault
    predicts := by
      intro s
      rw [predict_eq hname, hf.predict_eq]
      exact ⟨_, rfl⟩
    inTable := fun k parts hmet s => (hcloses.metIn hr.declared hmet).inTable _ }

theorem declared_is_settled_nested :
    nested.contains "nested" = true ∧ nested.Settled "nested" :=
  ⟨contains_nested, declared_is_settled ⟨_, rfl⟩ contains_nested⟩

end Compositions

end Fickle

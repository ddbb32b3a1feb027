import Fickle.Proofs.Composition.Formula
import Fickle.Proofs.Except

/-! # Declared compositions

A composition is declared once and sees only what was declared before it. So each one can be
written out to the end, and what it comes to is settled when it is declared.
-/

namespace Fickle

variable {α : Type}

namespace Definitions

variable {defs defs' seen : Definitions α} {name : String} {e : Expr α}

theorem contains_iff : defs.contains name = true ↔ ∃ e seen, lookup name defs = some (e, seen) := by
  induction defs with
  | nil => simp [contains, lookup]
  | cons d defs ih =>
    obtain ⟨n, e⟩ := d
    rw [lookup]
    by_cases hn : n = name
    · simp [contains, hn]
    · rw [if_neg hn, ← ih]
      simp [contains, hn]

theorem find_eq_some_iff : find name defs = some (e, seen) ↔
    seen = defs ∧ ∃ s, lookup name defs = some (e, s) := by
  unfold find
  rcases lookup name defs with _ | ⟨e', s⟩
  · simp
  · simp [and_comm, eq_comm]

/-- All that is found among the definitions is found among the others too, and sees the same. -/
def Extends (defs defs' : Definitions α) : Prop :=
  ∀ name e seen, lookup name defs = some (e, seen) → lookup name defs' = some (e, seen)

theorem Extends.trans {defs'' : Definitions α} (h : defs.Extends defs')
    (h' : defs'.Extends defs'') : defs.Extends defs'' :=
  fun name e seen hlook => h' name e seen (h name e seen hlook)

theorem extends_cons (hfree : defs.contains name = false) : defs.Extends ((name, e) :: defs) := by
  intro n e' seen hlook
  have hne : name ≠ n := by
    rintro rfl
    rw [contains_iff.mpr ⟨e', seen, hlook⟩] at hfree
    cases hfree
  rw [lookup, if_neg hne]
  exact hlook

theorem Extends.contains (h : defs.Extends defs') (hname : defs.contains name = true) :
    defs'.contains name = true := by
  obtain ⟨e, seen, hlook⟩ := contains_iff.mp hname
  exact contains_iff.mpr ⟨e, seen, h _ _ _ hlook⟩

/-- What was declared one after another, each with a name of its own and after a check. -/
inductive Declared [Scalar α] : Definitions α → Prop where
  | nil : Declared []
  | cons {defs : Definitions α} {name : String} {e : Expr α} (h : Declared defs)
    (hfree : defs.contains name = false) (hcheck : e.check defs = .ok ()) :
    Declared ((name, e) :: defs)

/-- What a name stands for passed its check against the definitions that it sees. -/
theorem Declared.of_lookup [Scalar α] (h : defs.Declared)
    (hlook : lookup name defs = some (e, seen)) :
    seen.Declared ∧ e.check seen = .ok () ∧ seen.Extends defs := by
  induction h with
  | nil => cases hlook
  | cons h hfree hcheck ih =>
    rw [lookup] at hlook
    split at hlook
    · cases hlook
      exact ⟨h, hcheck, extends_cons hfree⟩
    · obtain ⟨hseen, he, hextends⟩ := ih hlook
      exact ⟨hseen, he, hextends.trans (extends_cons hfree)⟩

end Definitions

/-! ## What the checks ensure -/

/-- The calls of the formula are good, and no gate asks for more parts than it has. -/
inductive Formula.Proper [Scalar α] : Formula (Leaf α) → Prop where
  | leaf {l : Leaf α} (h : l.Good) : Proper (.leaf l)
  | not {f : Formula (Leaf α)} (h : Proper f) : Proper (.not f)
  | gate {g : Gate} {fs : List (Formula (Leaf α))} (hfits : g.Fits fs.length)
    (h : ∀ f ∈ fs, Proper f) : Proper (.gate g fs)

theorem Formula.mem_leavesOf_iff {ι : Type} {fs : List (Formula ι)} {l : ι} :
    l ∈ leavesOf fs ↔ ∃ f ∈ fs, l ∈ f.leaves := by
  induction fs with
  | nil => simp [leavesOf]
  | cons f fs ih => simp [leavesOf, ih]

theorem Formula.Proper.good [Scalar α] {f : Formula (Leaf α)} (h : f.Proper) :
    ∀ l ∈ f.leaves, l.Good := by
  induction h with
  | leaf h =>
    intro l hl
    rw [leaves, List.mem_singleton] at hl
    rw [hl]
    exact h
  | not h ih =>
    rw [leaves]
    exact ih
  | gate hfits h ih =>
    intro l hl
    rw [leaves, mem_leavesOf_iff] at hl
    obtain ⟨f, hf, hl⟩ := hl
    exact ih f hf l hl

open Definitions

namespace Expr

variable [Scalar α] {defs : Definitions α} {e : Expr α}

theorem check_call_eq_ok_iff {c : Construct} {args : Args α} {site : Site} :
    check defs (.call c args) = .ok () ↔ (⟨c, site, args⟩ : Leaf α).Good := by
  rw [check]
  split
  · exact ⟨fun h => ⟨by assumption, h⟩, Leaf.Good.check⟩
  · exact ⟨nofun, fun h => absurd h.yieldsBool (by assumption)⟩

theorem check_use_eq_ok_iff {name : String} :
    check defs (.use name) = .ok () ↔ defs.contains name = true := by
  rw [check]
  split <;> simp_all

theorem exists_expands_of_names
    (hnames : ∀ name e seen, lookup name defs = some (e, seen) →
      ∀ site, ∃ f, Expands lookup seen e site f ∧ f.Proper)
    (hcheck : check defs e = .ok ()) (site : Site) :
    ∃ f, Expands lookup defs e site f ∧ f.Proper := by
  induction e using Expr.induct generalizing site with
  | call c args => exact ⟨_, .call, .leaf (check_call_eq_ok_iff.mp hcheck)⟩
  | use name =>
    obtain ⟨e, seen, hlook⟩ := contains_iff.mp (check_use_eq_ok_iff.mp hcheck)
    obtain ⟨f, hf, hproper⟩ := hnames name e seen hlook site
    exact ⟨f, .use hlook hf, hproper⟩
  | not part ih =>
    rw [check] at hcheck
    obtain ⟨f, hf, hproper⟩ := ih hcheck (site.child 0)
    exact ⟨.not f, .not hf, .not hproper⟩
  | gate g parts ih =>
    obtain ⟨hfits, hparts⟩ := check_gate_eq_ok_iff.mp hcheck
    obtain ⟨fs, hfs⟩ := Alongside.exists_of_forall (R := fun i part f =>
      Expands lookup defs part (site.child (UInt32.ofNat i)) f ∧ f.Proper)
      (fun part hpart i => ih part hpart (hparts part hpart) _) 0
    refine ⟨.gate g fs, .gate g rfl hfs.length_eq fun i part f hpart hf => ?_, .gate ?_ ?_⟩
    · have hboth := hfs.getElem? hpart hf
      rw [Nat.zero_add] at hboth
      exact hboth.1
    · rw [hfs.length_eq]
      exact hfits
    · exact hfs.forall_right fun i part f h => h.2

end Expr

namespace Definitions.Declared

variable [Scalar α] {defs defs' : Definitions α} {e : Expr α} {site : Site} {f : Formula (Leaf α)}

/-- Writing out a checked expression comes to an end. -/
theorem exists_expands (h : defs.Declared) (hcheck : e.check defs = .ok ()) (site : Site) :
    ∃ f, Expr.Expands lookup defs e site f ∧ f.Proper := by
  apply Expr.exists_expands_of_names ?_ hcheck
  clear hcheck
  -- A name stands for an expression that was checked before fewer definitions.
  induction h with
  | nil => nofun
  | cons h hfree hcheck ih =>
    intro name e seen hlook
    rw [lookup] at hlook
    split at hlook
    · cases hlook
      exact Expr.exists_expands_of_names ih hcheck
    · exact ih name e seen hlook

/-- Names may be looked up among all the definitions. -/
theorem inlines (h : defs.Declared) (hf : Expr.Expands lookup defs e site f) :
    Expr.Inlines defs e site f := by
  apply hf.mono (R := fun env env' => env.Declared ∧ env.Extends env') _ ⟨h, fun _ _ _ => id⟩
  rintro name env env' seen e ⟨hdeclared, hextends⟩ hlook
  obtain ⟨hseen, -, hseen'⟩ := hdeclared.of_lookup hlook
  exact ⟨env', find_eq_some_iff.mpr ⟨rfl, seen, hextends _ _ _ hlook⟩, hseen,
    hseen'.trans hextends⟩

end Definitions.Declared

theorem Expr.Expands.extend {defs defs' : Definitions α} {e : Expr α} {site : Site}
    {f : Formula (Leaf α)} (hf : Expands lookup defs e site f) (h : defs.Extends defs') :
    Expands lookup defs' e site f :=
  hf.mono (R := Extends)
    (fun hextends hlook => ⟨_, hextends _ _ _ hlook, fun _ _ _ => id⟩) h

/-! ## Registries -/

namespace Compositions

variable {r r' : Compositions} {name : String} {e : Expr Binary64}

theorem of_declare_eq_ok (h : r.declare name e = .ok r') :
    r.defs.contains name = false ∧ e.check r.defs = .ok () ∧ r'.defs = (name, e) :: r.defs := by
  simp only [declare, bind_eq_ok_iff, guard_eq_ok_iff] at h
  obtain ⟨hfree, ⟨⟩, hcheck, h⟩ := h
  cases h
  exact ⟨by simpa [contains] using hfree, hcheck, rfl⟩

/-- The registry after an attempt to declare a composition. One that is refused changes nothing. -/
def attempt (r : Compositions) (d : String × Expr Binary64) : Compositions :=
  match r.declare d.1 d.2 with
  | .ok r' => r'
  | .error _ => r

def declareAll (r : Compositions) (ds : List (String × Expr Binary64)) : Compositions :=
  ds.foldl attempt r

theorem attempt_eq (r : Compositions) (d : String × Expr Binary64) :
    r.attempt d = r ∨ r.declare d.1 d.2 = .ok (r.attempt d) := by
  unfold attempt
  rcases r.declare d.1 d.2 with f | r'
  · exact .inl rfl
  · exact .inr rfl

theorem declared_declareAll (h : r.defs.Declared) (ds : List (String × Expr Binary64)) :
    (r.declareAll ds).defs.Declared ∧ r.defs.Extends (r.declareAll ds).defs := by
  induction ds generalizing r with
  | nil => exact ⟨h, fun _ _ _ => id⟩
  | cons d ds ih =>
    show ((r.attempt d).declareAll ds).defs.Declared ∧
      r.defs.Extends ((r.attempt d).declareAll ds).defs
    rcases r.attempt_eq d with hsame | hdeclare
    · rw [hsame]
      exact ih h
    · obtain ⟨hfree, hcheck, hdefs⟩ := of_declare_eq_ok hdeclare
      obtain ⟨hdeclared, hextends⟩ := ih (hdefs ▸ h.cons hfree hcheck)
      rw [hdefs] at hextends
      exact ⟨hdeclared, (extends_cons hfree).trans hextends⟩

end Compositions

end Fickle

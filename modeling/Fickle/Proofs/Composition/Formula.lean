import Fickle.Composition.Prediction

/-! # Formulas

What a composition comes to when all that it uses is written out: calls at sites of their own, put
together by gates. Evaluating, counting and predicting a composition depend on its formula alone.
-/

namespace Fickle

variable {α ι : Type}

/-! ## Tables -/

theorem length_addPart [Scalar α] (p : α) (below : Option α) (dist : List α) :
    (addPart p below dist).length = dist.length + 1 := by
  induction dist generalizing below with
  | nil => rfl
  | cons x dist ih => rw [addPart, List.length_cons, ih, List.length_cons]

theorem length_holdCounts [Scalar α] (ps : List α) : (holdCounts ps).length = ps.length + 1 := by
  have hfold : ∀ dist : List α,
      (ps.foldl (fun dist p => addPart p none dist) dist).length = dist.length + ps.length := by
    induction ps with
    | nil => exact fun dist => rfl
    | cons p ps ih =>
      intro dist
      rw [List.foldl_cons, ih, length_addPart, List.length_cons]
      omega
  rw [holdCounts, hfold, List.length_singleton, Nat.add_comm]

/-- The table with one more part worked out in place: entries from index `j` down are overwritten,
the highest first. -/
def overwrite [Scalar α] (p : α) (below : Option α) : Nat → List α → List α
  | 0, dist => dist.modifyHead fun x => x * (1.0 - p) + (below.map (· * p)).getD 0.0
  | j + 1, dist => overwrite p below j
    (dist.set (j + 1) (dist.getD (j + 1) 0.0 * (1.0 - p) + dist.getD j 0.0 * p))

theorem overwrite_succ_cons [Scalar α] (p : α) (below : Option α) {j : Nat} (x : α) {xs : List α}
    (hj : j < xs.length) : overwrite p below (j + 1) (x :: xs) =
      (x * (1.0 - p) + (below.map (· * p)).getD 0.0) :: overwrite p (some x) j xs := by
  induction j generalizing xs with
  | zero =>
    obtain ⟨y, ys, rfl⟩ := List.exists_cons_of_length_pos hj
    rfl
  | succ j ih =>
    unfold overwrite
    exact ih (by rw [List.length_set]; omega)

theorem overwrite_append [Scalar α] (p : α) (below : Option α) (dist rest : List α) :
    overwrite p below dist.length (dist ++ 0.0 :: rest) = addPart p below dist ++ rest := by
  induction dist generalizing below with
  | nil => rfl
  | cons x dist ih =>
    rw [List.length_cons, List.cons_append, overwrite_succ_cons, ih]
    · rfl
    · rw [List.length_append]
      exact Nat.lt_add_of_pos_right (Nat.succ_pos _)

/-- The table comes out the same when it is filled in place, part after part. -/
theorem holdCounts_eq_foldl_overwrite [Scalar α] (ps : List α) :
    holdCounts ps = (ps.foldl (fun d p => (overwrite p none (d.2 + 1) d.1, d.2 + 1))
      ((1.0 : α) :: List.replicate ps.length 0.0, 0)).1 := by
  have hfold : ∀ dist : List α, ∀ i, dist.length = i + 1 →
      (ps.foldl (fun d p => (overwrite p none (d.2 + 1) d.1, d.2 + 1))
        (dist ++ List.replicate ps.length 0.0, i)).1 =
          ps.foldl (fun dist p => addPart p none dist) dist := by
    induction ps with
    | nil => exact fun dist i _ => List.append_nil dist
    | cons p ps ih =>
      intro dist i hi
      rw [List.foldl_cons, List.foldl_cons, ← ih _ (i + 1) (by rw [length_addPart, hi])]
      dsimp only
      rw [List.length_cons, List.replicate_succ, ← hi, overwrite_append]
  exact (hfold [1.0] 0 rfl).symm

/-! ## Gates -/

/-- How the truth values of parts are put together. -/
inductive Gate where
  | all
  | any
  /-- At least `k` of the parts hold. -/
  | atLeast (k : Nat)

namespace Gate

def expr (parts : List (Expr α)) : Gate → Expr α
  | all => .all parts
  | any => .any parts
  | atLeast k => .atLeast k parts

def holds (bs : List Bool) : Gate → Bool
  | all => bs.all id
  | any => bs.any id
  | atLeast k => k ≤ bs.count true

/-- How likely a gate is to hold, when its parts hold with those probabilities. -/
def likelihood [Scalar α] (ps : List α) : Gate → α
  | all => ps.foldl (· * ·) 1.0
  | any => 1.0 - ps.foldl (fun none p => none * (1.0 - p)) 1.0
  | atLeast k => Scalar.sum ((holdCounts ps).drop k)

/-- The gate asks for no more than `n` parts. -/
def Fits (n : Nat) : Gate → Prop
  | all | any => True
  | atLeast k => k ≤ n

theorem expr_inj {g g' : Gate} {parts parts' : List (Expr α)} (h : g.expr parts = g'.expr parts') :
    g = g' ∧ parts = parts' := by
  cases g <;> cases g' <;> cases h <;> exact ⟨rfl, rfl⟩

theorem call_ne_expr {g : Gate} {parts : List (Expr α)} {c : Construct} {args : Args α} :
    Expr.call c args ≠ g.expr parts := by
  cases g <;> nofun

theorem use_ne_expr {g : Gate} {parts : List (Expr α)} {name : String} :
    Expr.use name ≠ g.expr parts := by
  cases g <;> nofun

theorem not_ne_expr {g : Gate} {parts : List (Expr α)} {part : Expr α} :
    Expr.not part ≠ g.expr parts := by
  cases g <;> nofun

end Gate

namespace Expr

section

variable {defs seen : Definitions α} {name : String} {e : Expr α}

theorem decisions_use (h : Definitions.lookup name defs = some (e, seen)) :
    decisions defs (.use name) = decisions seen e := by
  rw [decisions]
  split <;> simp_all

theorem evalWith_use {m : Type → Type} [Monad m] [MonadExceptOf Fault m]
    {call : Construct → Site → Args α → m Bool} (h : Definitions.lookup name defs = some (e, seen))
    (site : Site) : evalWith call defs (.use name) site = evalWith call seen e site := by
  rw [evalWith]
  split <;> simp_all

theorem predict_use [Scalar α] {leaf : Construct → Args α → α}
    (h : Definitions.lookup name defs = some (e, seen)) :
    predict leaf defs (.use name) = predict leaf seen e := by
  rw [predict]
  split <;> simp_all

end

theorem decisions_gate (defs : Definitions α) (g : Gate) (parts : List (Expr α)) :
    decisions defs (g.expr parts) = decisionsOf defs parts := by
  cases g <;> exact decisions.eq_def _ _

theorem evalWith_gate {m : Type → Type} [Monad m] [MonadExceptOf Fault m]
    (call : Construct → Site → Args α → m Bool) (defs : Definitions α) (g : Gate)
    (parts : List (Expr α)) (site : Site) :
    evalWith call defs (g.expr parts) site =
      (do return g.holds (← evalParts call defs parts site 0)) := by
  cases g <;> exact evalWith.eq_def _ _ _ _

theorem predict_gate [Scalar α] (leaf : Construct → Args α → α) (defs : Definitions α) (g : Gate)
    (parts : List (Expr α)) :
    predict leaf defs (g.expr parts) =
      (do return g.likelihood (← predictAll leaf defs parts)) := by
  cases g <;> exact predict.eq_def _ _ _

theorem checkAll_eq_ok_iff [Scalar α] {defs : Definitions α} {parts : List (Expr α)} :
    checkAll defs parts = .ok () ↔ ∀ part ∈ parts, check defs part = .ok () := by
  induction parts with
  | nil => simp [checkAll]
  | cons part parts ih =>
    rw [checkAll, List.forall_mem_cons, ← ih]
    rcases check defs part with f | ⟨⟩
    · simp [bind, Except.bind]
    · simp [bind, Except.bind]

theorem check_gate_eq_ok_iff [Scalar α] {defs : Definitions α} {g : Gate}
    {parts : List (Expr α)} :
    check defs (g.expr parts) = .ok () ↔
      g.Fits parts.length ∧ ∀ part ∈ parts, check defs part = .ok () := by
  rw [← checkAll_eq_ok_iff]
  cases g with
  | all => exact (and_iff_right trivial).symm
  | any => exact (and_iff_right trivial).symm
  | atLeast k =>
    show (if parts.length < k then _ else checkAll defs parts) = .ok () ↔ k ≤ parts.length ∧ _
    by_cases hfew : parts.length < k
    · simp [if_pos hfew, Nat.not_le_of_lt hfew]
    · simp [if_neg hfew, Nat.le_of_not_lt hfew]

/-- What holds of calls and of names, and is passed on from parts to the whole, holds of every
expression. -/
theorem induct {motive : Expr α → Prop} (call : ∀ c args, motive (.call c args))
    (use : ∀ name, motive (.use name)) (not : ∀ part, motive part → motive (.not part))
    (gate : ∀ (g : Gate) parts, (∀ part ∈ parts, motive part) → motive (g.expr parts)) :
    ∀ e, motive e
  | .call c args => call c args
  | .use name => use name
  | .not part => not part (induct call use not gate part)
  | .all parts => gate .all parts fun part _ => induct call use not gate part
  | .any parts => gate .any parts fun part _ => induct call use not gate part
  | .atLeast k parts => gate (.atLeast k) parts fun part _ => induct call use not gate part

end Expr

/-! ## Formulas -/

/-- A formula over leaves. -/
inductive Formula (ι : Type) where
  | leaf (l : ι)
  | not (f : Formula ι)
  | gate (g : Gate) (fs : List (Formula ι))

namespace Formula

mutual

/-- The leaves from left to right. -/
def leaves : Formula ι → List ι
  | leaf l => [l]
  | not f => f.leaves
  | gate _ fs => leavesOf fs

def leavesOf : List (Formula ι) → List ι
  | [] => []
  | f :: fs => f.leaves ++ leavesOf fs

end

mutual

/-- Whether the formula holds when its leaves, from left to right, have the given truth values. -/
def holds : Formula ι → List Bool → Bool
  | leaf _, bs => bs.headD false
  | not f, bs => !f.holds bs
  | gate g fs, bs => g.holds (values fs bs)

/-- The truth values of formulas that stand side by side. -/
def values : List (Formula ι) → List Bool → List Bool
  | [], _ => []
  | f :: fs, bs =>
    f.holds (bs.take f.leaves.length) :: values fs (bs.drop f.leaves.length)

end

mutual

/-- How likely the formula is to hold, when each leaf has the given probability. -/
def likelihood [Scalar α] (q : ι → α) : Formula ι → α
  | leaf l => q l
  | not f => 1.0 - f.likelihood q
  | gate g fs => g.likelihood (likelihoods q fs)

def likelihoods [Scalar α] (q : ι → α) : List (Formula ι) → List α
  | [] => []
  | f :: fs => f.likelihood q :: likelihoods q fs

end

theorem length_likelihoods [Scalar α] (q : ι → α) (fs : List (Formula ι)) :
    (likelihoods q fs).length = fs.length := by
  induction fs with
  | nil => rfl
  | cons f fs ih => rw [likelihoods, List.length_cons, ih, List.length_cons]

/-- Asks for the leaves from left to right, none of them left out, and puts the answers
together. -/
def perform {m : Type → Type} [Monad m] (ask : ι → m Bool) (f : Formula ι) : m Bool := do
  return f.holds (← f.leaves.mapM ask)

end Formula

/-! ## Writing an expression out -/

/-- A call that a composition makes, at the site that it has there. -/
structure Leaf (α : Type) where
  construct : Construct
  site : Site
  args : Args α

/-- Calls a construct with good arguments for a truth value. -/
structure Leaf.Good [Scalar α] (l : Leaf α) : Prop where
  yieldsBool : l.construct.yieldsBool = true
  check : l.args.check l.construct = .ok ()

namespace Expr

/-- The formula is the expression at the site with everything written out: a name gives way to its
expression at the same site, and the part at index `i` is at the child at `i`. What a name stands
for, and which definitions that expression sees in turn, is for `look` to say. -/
inductive Expands (look : String → Definitions α → Option (Expr α × Definitions α)) :
    Definitions α → Expr α → Site → Formula (Leaf α) → Prop where
  | call {defs : Definitions α} {c : Construct} {args : Args α} {site : Site} :
    Expands look defs (.call c args) site (.leaf ⟨c, site, args⟩)
  | use {defs seen : Definitions α} {name : String} {e : Expr α} {site : Site}
    {f : Formula (Leaf α)} (hlook : look name defs = some (e, seen))
    (he : Expands look seen e site f) : Expands look defs (.use name) site f
  | not {defs : Definitions α} {part : Expr α} {site : Site} {f : Formula (Leaf α)}
    (h : Expands look defs part (site.child 0) f) : Expands look defs (.not part) site (.not f)
  | gate {defs : Definitions α} {e : Expr α} {site : Site} {parts : List (Expr α)}
    {fs : List (Formula (Leaf α))} (g : Gate) (he : e = g.expr parts)
    (hlength : fs.length = parts.length)
    (hparts : ∀ (i : Nat) (part : Expr α) (f : Formula (Leaf α)), parts[i]? = some part →
      fs[i]? = some f → Expands look defs part (site.child (UInt32.ofNat i)) f) :
    Expands look defs e site (.gate g fs)

end Expr

/-- The expression of that name, which sees all the definitions itself. -/
def Definitions.find (name : String) (defs : Definitions α) :
    Option (Expr α × Definitions α) :=
  (lookup name defs).map fun found => (found.1, defs)

/-- The expression at the site with all that it uses written out, every name being looked up among
all the definitions. -/
abbrev Expr.Inlines (defs : Definitions α) : Expr α → Site → Formula (Leaf α) → Prop :=
  Expands Definitions.find defs

namespace Expr.Expands

variable {look look' : String → Definitions α → Option (Expr α × Definitions α)}
  {defs defs' : Definitions α} {e : Expr α} {site : Site} {f f' : Formula (Leaf α)}

theorem unique (h : Expands look defs e site f) (h' : Expands look defs e site f') : f = f' := by
  induction h generalizing f' with
  | call =>
    cases h' with
    | call => rfl
    | gate g he => exact absurd he Gate.call_ne_expr
  | use hlook he ih =>
    cases h' with
    | use hlook' he' =>
      cases hlook.symm.trans hlook'
      exact ih he'
    | gate g he => exact absurd he Gate.use_ne_expr
  | not h ih =>
    cases h' with
    | not h' => rw [ih h']
    | gate g he => exact absurd he Gate.not_ne_expr
  | @gate defs e site parts fs g he hlength hparts ih =>
    cases h' with
    | call => exact absurd he Gate.call_ne_expr
    | use => exact absurd he Gate.use_ne_expr
    | not => exact absurd he Gate.not_ne_expr
    -- The gates are the same, and the parts are written out place by place.
    | @gate _ _ _ parts' fs' g' he' hlength' hparts' =>
      obtain ⟨rfl, rfl⟩ := Gate.expr_inj (he.symm.trans he')
      congr 1
      apply List.ext_getElem (hlength.trans hlength'.symm)
      intro i hi hi'
      have hpart : i < parts.length := hlength ▸ hi
      exact ih i parts[i] fs[i] (List.getElem?_eq_getElem hpart) (List.getElem?_eq_getElem hi)
        (hparts' i parts[i] fs'[i] (List.getElem?_eq_getElem hpart) (List.getElem?_eq_getElem hi'))

/-- What comes of an expression stays the same where everything that is found is found again. -/
theorem mono {R : Definitions α → Definitions α → Prop}
    (hR : ∀ {name : String} {defs defs' seen : Definitions α} {e : Expr α}, R defs defs' →
      look name defs = some (e, seen) → ∃ seen', look' name defs' = some (e, seen') ∧ R seen seen')
    (h : Expands look defs e site f) (hdefs : R defs defs') : Expands look' defs' e site f := by
  induction h generalizing defs' with
  | call => exact .call
  | use hlook he ih =>
    obtain ⟨seen', hlook', hseen⟩ := hR hdefs hlook
    exact .use hlook' (ih hseen)
  | not h ih => exact .not (ih hdefs)
  | gate g he hlength hparts ih =>
    exact .gate g he hlength fun i part f hpart hf => ih i part f hpart hf hdefs

end Expr.Expands

/-! ## What depends on the formula alone -/

/-- Each entry of one list is related to the entry beside it in the other, whose place is counted
from `i` on. -/
inductive Alongside {β γ : Type} (R : Nat → β → γ → Prop) : Nat → List β → List γ → Prop where
  | nil {i : Nat} : Alongside R i [] []
  | cons {i : Nat} {x : β} {y : γ} {xs : List β} {ys : List γ} (h : R i x y)
    (hs : Alongside R (i + 1) xs ys) : Alongside R i (x :: xs) (y :: ys)

namespace Alongside

variable {β γ : Type} {R : Nat → β → γ → Prop} {i : Nat} {xs : List β} {ys : List γ}

theorem of_getElem?_add (hlength : ys.length = xs.length)
    (h : ∀ (j : Nat) x y, xs[j]? = some x → ys[j]? = some y → R (i + j) x y) :
    Alongside R i xs ys := by
  induction xs generalizing i ys with
  | nil =>
    cases List.eq_nil_of_length_eq_zero hlength
    exact .nil
  | cons x xs ih =>
    rcases ys with _ | ⟨y, ys⟩
    · cases hlength
    · refine .cons (h 0 x y rfl rfl) (ih (Nat.succ.inj hlength) ?_)
      intro j x' y' hx hy
      have hrelated := h (j + 1) x' y' hx hy
      rwa [← Nat.add_assoc, Nat.add_right_comm] at hrelated

theorem of_getElem? (hlength : ys.length = xs.length)
    (h : ∀ (j : Nat) x y, xs[j]? = some x → ys[j]? = some y → R j x y) : Alongside R 0 xs ys :=
  of_getElem?_add hlength fun j x y hx hy => (Nat.zero_add j).symm ▸ h j x y hx hy

theorem length_eq (h : Alongside R i xs ys) : ys.length = xs.length := by
  induction h with
  | nil => rfl
  | cons h hs ih => rw [List.length_cons, List.length_cons, ih]

theorem getElem? (h : Alongside R i xs ys) {j : Nat} {x : β} {y : γ} (hx : xs[j]? = some x)
    (hy : ys[j]? = some y) : R (i + j) x y := by
  induction h generalizing j with
  | nil => cases hx
  | cons h hs ih =>
    rcases j with _ | j
    · cases hx
      cases hy
      exact h
    · have hrelated := ih hx hy
      rwa [Nat.add_right_comm, Nat.add_assoc] at hrelated

theorem forall_right {P : γ → Prop} (h : Alongside R i xs ys) (hP : ∀ j x y, R j x y → P y) :
    ∀ y ∈ ys, P y := by
  induction h with
  | nil => nofun
  | cons h hs ih => exact List.forall_mem_cons.mpr ⟨hP _ _ _ h, ih⟩

theorem exists_of_forall (h : ∀ x ∈ xs, ∀ j, ∃ y, R j x y) (i : Nat) :
    ∃ ys, Alongside R i xs ys := by
  induction xs generalizing i with
  | nil => exact ⟨[], .nil⟩
  | cons x xs ih =>
    obtain ⟨hx, hxs⟩ := List.forall_mem_cons.mp h
    obtain ⟨y, hy⟩ := hx i
    obtain ⟨ys, hys⟩ := ih hxs (i + 1)
    exact ⟨y :: ys, .cons hy hys⟩

end Alongside

/-- Asking for answers comes to the same, whichever way answers of the right number are used. -/
theorem mapM_bind_congr {m : Type → Type} [Monad m] [LawfulMonad m] {β γ : Type} (ask : ι → m β)
    (ls : List ι) {k k' : List β → m γ} (h : ∀ bs : List β, bs.length = ls.length → k bs = k' bs) :
    ls.mapM ask >>= k = ls.mapM ask >>= k' := by
  induction ls generalizing k k' with
  | nil => simpa using h [] rfl
  | cons l ls ih =>
    simp only [List.mapM_cons, bind_assoc, pure_bind]
    apply bind_congr
    intro b
    exact ih fun bs hbs => h (b :: bs) (by rw [List.length_cons, hbs, List.length_cons])

theorem Expr.decisionsOf_eq {defs : Definitions α} {i : Nat} {parts : List (Expr α)}
    {fs : List (Formula ι)}
    (h : Alongside (fun _ part f => decisions defs part = f.leaves.length) i parts fs) :
    decisionsOf defs parts = (Formula.leavesOf fs).length := by
  induction h with
  | nil => rw [decisionsOf, Formula.leavesOf, List.length_nil]
  | cons h hs ih => rw [decisionsOf, Formula.leavesOf, List.length_append, h, ih]

theorem Expr.predictAll_eq [Scalar α] {leaf : Construct → Args α → α} {q : ι → α}
    {defs : Definitions α} {i : Nat} {parts : List (Expr α)} {fs : List (Formula ι)}
    (h : Alongside (fun _ part f => predict leaf defs part = .ok (f.likelihood q)) i parts fs) :
    predictAll leaf defs parts = .ok (Formula.likelihoods q fs) := by
  induction h with
  | nil => rw [predictAll, Formula.likelihoods]
  | cons h hs ih =>
    rw [predictAll, Formula.likelihoods, h, ih]
    rfl

theorem Expr.evalParts_eq {m : Type → Type} [Monad m] [LawfulMonad m] [MonadExceptOf Fault m]
    {call : Construct → Site → Args α → m Bool} {ask : ι → m Bool} {defs : Definitions α}
    {site : Site} {i : Nat} {parts : List (Expr α)} {fs : List (Formula ι)}
    (h : Alongside (fun i part f =>
      evalWith call defs part (site.child (UInt32.ofNat i)) = f.perform ask) i parts fs) :
    evalParts call defs parts site (UInt32.ofNat i) =
      (do return Formula.values fs (← (Formula.leavesOf fs).mapM ask)) := by
  induction h with
  | nil => simp [evalParts, Formula.leavesOf, Formula.values]
  | @cons i part f parts fs h hs ih =>
    rw [evalParts, ← UInt32.ofNat_one, ← UInt32.ofNat_add, h, ih]
    simp only [Formula.perform, Formula.leavesOf, List.mapM_append, bind_assoc, pure_bind]
    apply mapM_bind_congr
    intro bs hbs
    apply bind_congr
    intro cs
    rw [Formula.values, ← hbs, List.take_left, List.drop_left]

namespace Expr.Expands

variable {defs : Definitions α} {e : Expr α} {site : Site} {f : Formula (Leaf α)}

theorem decisions_eq (h : Expands Definitions.lookup defs e site f) :
    e.decisions defs = f.leaves.length := by
  induction h with
  | call => rw [decisions, Formula.leaves, List.length_singleton]
  | use hlook he ih => rw [decisions_use hlook, ih]
  | not h ih => rw [decisions, Formula.leaves, ih]
  | gate g he hlength hparts ih =>
    rw [he, decisions_gate, Formula.leaves]
    exact decisionsOf_eq (.of_getElem? hlength ih)

theorem predict_eq [Scalar α] (h : Expands Definitions.lookup defs e site f)
    (leaf : Construct → Args α → α) :
    e.predict leaf defs = .ok (f.likelihood fun l => leaf l.construct l.args) := by
  induction h with
  | call => rw [predict, Formula.likelihood]
  | use hlook he ih => rw [predict_use hlook, ih]
  | not h ih =>
    rw [predict, Formula.likelihood, ih]
    rfl
  | gate g he hlength hparts ih =>
    rw [he, predict_gate, predictAll_eq (.of_getElem? hlength ih), Formula.likelihood]
    rfl

theorem evalWith_eq {m : Type → Type} [Monad m] [LawfulMonad m] [MonadExceptOf Fault m]
    (h : Expands Definitions.lookup defs e site f) (call : Construct → Site → Args α → m Bool) :
    e.evalWith call defs site = f.perform fun l => call l.construct l.site l.args := by
  induction h with
  | call =>
    rw [evalWith]
    simp [Formula.perform, Formula.leaves, Formula.holds]
  | use hlook he ih => rw [evalWith_use hlook, ih]
  | not h ih =>
    rw [evalWith, ih]
    simp [Formula.perform, Formula.leaves, Formula.holds]
  | gate g he hlength hparts ih =>
    rw [he, evalWith_gate]
    have hparts := evalParts_eq (.of_getElem? hlength ih)
    rw [show (0 : UInt32) = UInt32.ofNat 0 from rfl, hparts]
    simp [Formula.perform, Formula.leaves, Formula.holds]

end Expr.Expands

end Fickle

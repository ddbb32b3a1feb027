import Mathlib.Data.List.Nodup
import Mathlib.Logic.Function.Iterate
import Fickle.Proofs.Composition.Formula
import Fickle.Proofs.Word

/-! # Sites of constituents

The site of a constituent is mixed from the site of the whole and the index of the constituent. The
steps of the mixing lose nothing, so no two constituents of a composition have the same site. But
the site of the whole goes in twice, and where it cancels itself a constituent has that very site.
-/

namespace Fickle

namespace Site

/-! ## The mixing -/

/-- What is done to a site that an index has been put over. -/
def mix (x : UInt64) : UInt64 := rotateLeft17 (x * 0x517cc1b727220a95)

theorem child_eq (s : Site) (i : UInt32) :
    s.child i = ⟨mix (s.id ^^^ (i.toUInt64 + 1)) ^^^ s.id⟩ := rfl

theorem mix_inj {x y : UInt64} (h : mix x = mix y) : x = y := by
  have hrotated : (x * 0x517cc1b727220a95).toBitVec.rotateLeft 17 =
      (y * 0x517cc1b727220a95).toBitVec.rotateLeft 17 := congrArg UInt64.toBitVec h
  have hproduct := UInt64.toBitVec_inj.mp (Word.eq_of_rotateLeft_eq (by decide) hrotated)
  exact (Word.bijective_mul_right (d := 0x2040003d780970bd) (by decide)).injective hproduct

theorem mix_eq_zero_iff {x : UInt64} : mix x = 0 ↔ x = 0 := by
  constructor
  · exact fun h => mix_inj (h.trans (by decide))
  · rintro rfl
    decide

theorem child_inj {s : Site} {i j : UInt32} : s.child i = s.child j ↔ i = j := by
  constructor
  · intro h
    rw [child_eq, child_eq, Site.mk.injEq, UInt64.xor_left_inj] at h
    have hnumbers := (UInt64.xor_right_inj s.id).mp (mix_inj h)
    exact UInt32.toUInt64_inj.mp ((UInt64.add_left_inj 1).mp hnumbers)
  · rintro rfl
    rfl

theorem child_eq_self_iff {s : Site} {i : UInt32} : s.child i = s ↔ s.id = i.toUInt64 + 1 := by
  rcases s with ⟨id⟩
  have hcancel := UInt64.xor_left_inj (a := mix (id ^^^ (i.toUInt64 + 1))) (b := 0) id
  rw [UInt64.zero_xor] at hcancel
  rw [child_eq, Site.mk.injEq, hcancel, mix_eq_zero_iff, UInt64.xor_eq_zero_iff]

/-! ## Children in a row -/

/-- The first `n` children of a site. -/
def children (s : Site) (n : Nat) : List Site :=
  (List.range n).map fun i => s.child (UInt32.ofNat i)

theorem nodup_children_iff {s : Site} {n : Nat} : (s.children n).Nodup ↔ n ≤ UInt32.size := by
  unfold children
  rw [List.nodup_map_iff_inj_on List.nodup_range]
  simp only [List.mem_range, child_inj, ← UInt32.toNat_inj, UInt32.toNat_ofNat']
  constructor
  · intro hdistinct
    by_contra hmany
    -- One index too many begins again at the first.
    have hsame := hdistinct 0 (by omega) UInt32.size (by omega) rfl
    cases hsame
  · intro hfew i hi j hj hsame
    rwa [Nat.mod_eq_of_lt (hi.trans_le hfew), Nat.mod_eq_of_lt (hj.trans_le hfew)] at hsame

theorem child_ofNat_eq_self_iff {s : Site} {i : Nat} :
    s.child (UInt32.ofNat i) = s ↔ s.id.toNat = i % UInt32.size + 1 := by
  rw [child_eq_self_iff, ← UInt64.toNat_inj, UInt64.toNat_add]
  simp [UInt32.size]
  omega

theorem self_mem_children_iff {s : Site} {n : Nat} :
    s ∈ s.children n ↔ 1 ≤ s.id.toNat ∧ s.id.toNat ≤ min n UInt32.size := by
  simp only [children, List.mem_map, List.mem_range, child_ofNat_eq_self_iff]
  constructor
  · rintro ⟨i, hi, hid⟩
    have hindex := Nat.mod_lt i (show 0 < UInt32.size by decide)
    have hle := Nat.mod_le i UInt32.size
    omega
  · rintro ⟨hpos, hle⟩
    refine ⟨s.id.toNat - 1, by omega, ?_⟩
    rw [Nat.mod_eq_of_lt (by omega)]
    omega

end Site

/-! ## Direct constituents -/

variable {α : Type}

namespace Expr

/-- The whole puts the truth values of its direct constituents together in this way. -/
inductive Joins : Expr α → List (Expr α) → (List Bool → Bool) → Prop where
  | not (part : Expr α) : Joins (.not part) [part] fun bs => !bs.headD false
  | gate (g : Gate) (parts : List (Expr α)) : Joins (g.expr parts) parts fun bs => g.holds bs

/-- To evaluate the whole at the site is to evaluate the constituents one after another, each at the
site beside it, and to join their truth values. -/
def Visits (e : Expr α) (site : Site) (parts : List (Expr α)) (sites : List Site)
    (join : List Bool → Bool) : Prop :=
  ∀ (m : Type → Type) [Monad m] [LawfulMonad m] [MonadExceptOf Fault m]
    (call : Construct → Site → Args α → m Bool) (defs : Definitions α),
    e.evalWith call defs site =
      (do return join (← (parts.zip sites).mapM fun c => c.1.evalWith call defs c.2))

theorem evalWith_not {m : Type → Type} [Monad m] [MonadExceptOf Fault m]
    (call : Construct → Site → Args α → m Bool) (defs : Definitions α) (part : Expr α)
    (site : Site) :
    evalWith call defs (.not part) site =
      (do return !(← evalWith call defs part (site.child 0))) := by
  rw [evalWith]

theorem evalParts_eq_mapM {m : Type → Type} [Monad m] [LawfulMonad m] [MonadExceptOf Fault m]
    (call : Construct → Site → Args α → m Bool) (defs : Definitions α) (parts : List (Expr α))
    (site : Site) (i : Nat) :
    evalParts call defs parts site (UInt32.ofNat i) =
      (parts.zip ((List.range' i parts.length).map fun k => site.child (UInt32.ofNat k))).mapM
        fun c => c.1.evalWith call defs c.2 := by
  induction parts generalizing i with
  | nil => rw [evalParts, List.zip_nil_left, List.mapM_nil]
  | cons part parts ih =>
    have hnext : UInt32.ofNat i + 1 = UInt32.ofNat (i + 1) := (UInt32.ofNat_add i 1).symm
    rw [evalParts, hnext, ih, List.length_cons, List.range'_succ, List.map_cons,
      List.zip_cons_cons, List.mapM_cons]

theorem Joins.visits {e : Expr α} {parts : List (Expr α)} {join : List Bool → Bool}
    (h : e.Joins parts join) (site : Site) :
    e.Visits site parts (site.children parts.length) join := by
  intro m _ _ _ call defs
  cases h with
  | not part =>
    have hzip : [part].zip (site.children [part].length) = [(part, site.child 0)] := rfl
    rw [evalWith_not, hzip, List.mapM_cons, List.mapM_nil]
    simp
  | gate g =>
    have hparts := evalParts_eq_mapM call defs parts site 0
    rw [← List.range_eq_range'] at hparts
    rw [evalWith_gate, Site.children]
    exact congrArg (· >>= fun bs => pure (g.holds bs)) hparts

/-- Negations at the first site, however many, leave what they negate at that site. -/
theorem evalWith_not_iterate {m : Type → Type} [Monad m] [LawfulMonad m] [MonadExceptOf Fault m]
    (call : Construct → Site → Args α → m Bool) (defs : Definitions α) (e : Expr α) (n : Nat) :
    evalWith call defs (Expr.not^[n] e) ⟨1⟩ =
      (do return Bool.not^[n] (← evalWith call defs e ⟨1⟩)) := by
  induction n with
  | zero => simp
  | succ n ih =>
    have hstuck : (⟨1⟩ : Site).child 0 = ⟨1⟩ := Site.child_eq_self_iff.mpr rfl
    rw [Function.iterate_succ_apply', evalWith_not, hstuck, ih]
    simp [Function.iterate_succ_apply']

end Expr

/-! ## Among siblings -/

/-- No two indices give a site the same child. So wherever a composition is invoked, the sites of
its direct constituents are all different, up to as many constituents as there are indices. -/
theorem siblings_never_collide :
    (∀ (s : Site) (i j : UInt32), i ≠ j → s.child i ≠ s.child j) ∧
      ∀ (site : Site) (e : Expr α) (parts : List (Expr α)) (join : List Bool → Bool),
        e.Joins parts join →
          e.Visits site parts (site.children parts.length) join ∧
            ((site.children parts.length).Nodup ↔ parts.length ≤ UInt32.size) :=
  ⟨fun _ _ _ => mt Site.child_inj.mp,
    fun site _ _ _ h => ⟨h.visits site, Site.nodup_children_iff⟩⟩

/-- At a site of which one of the children is the site itself. -/
theorem siblings_never_collide_stuck :
    let parts : List (Expr Binary64) :=
      [.use "pair", .not (.call .maybeFor .unit), .call .maybe (.condition true)]
    (0 : UInt32) ≠ 4294967295 ∧ (⟨1⟩ : Site).child 0 ≠ (⟨1⟩ : Site).child 4294967295 ∧
      (Expr.atLeast 2 parts).Joins parts (fun bs => (Gate.atLeast 2).holds bs) ∧
      (Expr.atLeast 2 parts).Visits ⟨1⟩ parts (Site.children ⟨1⟩ 3)
        (fun bs => (Gate.atLeast 2).holds bs) ∧
      (Site.children ⟨1⟩ 3).Nodup := by
  intro parts
  have hfar : (0 : UInt32) ≠ 4294967295 := by decide
  have hjoins : (Expr.atLeast 2 parts).Joins parts fun bs => (Gate.atLeast 2).holds bs :=
    .gate (.atLeast 2) parts
  obtain ⟨hvisits, hnodup⟩ := siblings_never_collide.2 ⟨1⟩ _ parts _ hjoins
  exact ⟨hfar, (siblings_never_collide (α := Binary64)).1 ⟨1⟩ _ _ hfar, hjoins, hvisits,
    hnodup.mpr (by decide)⟩

/-! ## Between a whole and its constituents -/

/-- A site is its own child just where its id is the number of that child, counted from one. There a
chain of derivations never leaves it, and a composition that is invoked there and has so many
constituents evaluates one of them at its own site. -/
theorem derivation_sticks_where_the_id_counts_the_child :
    (∀ (s : Site) (i : UInt32), s.child i = s ↔ s.id = i.toUInt64 + 1) ∧
      (∀ (s : Site) (i : UInt32) (n : Nat), s.id = i.toUInt64 + 1 →
        (fun t : Site => t.child i)^[n] s = s) ∧
      (∀ (site : Site) (e : Expr α) (parts : List (Expr α)) (join : List Bool → Bool),
        e.Joins parts join →
          e.Visits site parts (site.children parts.length) join ∧
            (site ∈ site.children parts.length ↔
              1 ≤ site.id.toNat ∧ site.id.toNat ≤ min parts.length UInt32.size)) ∧
      ∀ (m : Type → Type) [Monad m] [LawfulMonad m] [MonadExceptOf Fault m]
        (call : Construct → Site → Args α → m Bool) (defs : Definitions α) (e : Expr α) (n : Nat),
        (Expr.not^[n] e).evalWith call defs ⟨1⟩ =
          (do return Bool.not^[n] (← e.evalWith call defs ⟨1⟩)) := by
  refine ⟨fun _ _ => Site.child_eq_self_iff, fun s i n hid => ?_, fun site _ _ _ h => ?_, ?_⟩
  · exact Function.iterate_fixed (Site.child_eq_self_iff.mpr hid) n
  · exact ⟨h.visits site, Site.self_mem_children_iff⟩
  · intro m _ _ _ call defs e n
    exact Expr.evalWith_not_iterate call defs e n

/-- The forty-second child of a site, and a negation at the first site. -/
theorem derivation_sticks_where_the_id_counts_the_child_fortyTwo :
    let e : Expr Binary64 := .call .maybe (.condition true)
    (⟨42⟩ : Site).id = (41 : UInt32).toUInt64 + 1 ∧
      (fun t : Site => t.child 41)^[7] ⟨42⟩ = ⟨42⟩ ∧
      (Expr.not e).Joins [e] (fun bs => !bs.headD false) ∧ (⟨1⟩ : Site) ∈ Site.children ⟨1⟩ 1 := by
  intro e
  have hid : (⟨42⟩ : Site).id = (41 : UInt32).toUInt64 + 1 := rfl
  obtain ⟨-, hchain, hparts, -⟩ :=
    derivation_sticks_where_the_id_counts_the_child (α := Binary64)
  have hjoins : (Expr.not e).Joins [e] fun bs => !bs.headD false := .not e
  exact ⟨hid, hchain ⟨42⟩ 41 7 hid, hjoins, (hparts ⟨1⟩ _ _ _ hjoins).2.mpr (by decide)⟩

end Fickle

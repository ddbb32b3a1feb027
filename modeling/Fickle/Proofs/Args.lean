import Fickle.Args.Check

/-! # Good arguments

Arguments are good when their form belongs to the construct and each check of their values passes.
-/

namespace Fickle.Args

variable {α : Type} [Scalar α]

theorem check_eq_ok_iff {c : Construct} {args : Args α} :
    args.check c = .ok () ↔ args.shape = c.shape ∧ args.flaw? = none := by
  unfold check
  by_cases hshape : args.shape = c.shape
  · rw [if_neg (absurd hshape)]
    cases args.flaw? with
    | none => exact iff_of_true rfl ⟨hshape, rfl⟩
    | some flaw => exact iff_of_false nofun nofun
  · rw [if_pos hshape]
    exact iff_of_false nofun fun h => hshape h.1

theorem flaw?_float_eq_none_iff {v : α} :
    (float v).flaw? = none ↔ Scalar.isFinite v = true := by
  unfold flaw?
  dsimp only
  cases Scalar.isFinite v <;> simp

theorem flaw?_drift_eq_none_iff {s : DriftSample α} :
    (drift s).flaw? = none ↔ Scalar.isFinite s.nominal = true := by
  unfold flaw?
  dsimp only
  cases Scalar.isFinite s.nominal <;> simp

theorem flaw?_ishValue_eq_none_iff {v : α} {variance : Option α} :
    (ishValue v variance).flaw? = none ↔ Scalar.isFinite v = true ∧
      ∀ w ∈ variance, Scalar.isWidth w = true ∧ ¬ maxVariance < w := by
  unfold flaw?
  dsimp only
  cases variance with
  | none => cases Scalar.isFinite v <;> simp
  | some w =>
    simp only [Option.mem_some, forall_eq']
    by_cases hmax : maxVariance < w <;> cases Scalar.isFinite v <;>
      cases Scalar.isWidth w <;> simp [hmax]

theorem flaw?_compare_eq_none_iff {left right : α} {tolerance : Option α} :
    (compare left right tolerance).flaw? = none ↔
      (Scalar.isFinite left = true ∧ Scalar.isFinite right = true) ∧
        ∀ t ∈ tolerance, Scalar.isWidth t = true := by
  unfold flaw?
  dsimp only
  cases tolerance with
  | none => cases Scalar.isFinite left <;> cases Scalar.isFinite right <;> simp
  | some t =>
    simp only [Option.mem_some, forall_eq']
    cases Scalar.isFinite left <;> cases Scalar.isFinite right <;>
      cases Scalar.isWidth t <;> simp

theorem flaw?_binary_eq_none_iff {o : Odds α} :
    (binary (some o)).flaw? = none ↔
      (∀ v ∈ o.toList, Scalar.isWidth v = true) ∧ ¬ o.total ≤ 0.0 := by
  rw [← List.all_eq_true]
  unfold flaw?
  dsimp only
  by_cases hzero : o.total ≤ 0.0 <;> cases o.toList.all Scalar.isWidth <;> simp [hzero]

end Fickle.Args

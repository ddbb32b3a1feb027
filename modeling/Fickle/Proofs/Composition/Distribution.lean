import Mathlib.Algebra.BigOperators.Fin
import Mathlib.Data.List.GetD
import Fickle.Proofs.Exact
import Fickle.Proofs.Composition.Formula

/-! # Independent truth values

Truth values that know nothing of each other, each of them true with a probability of its own. In
exact arithmetic, how likely a formula is to hold is the sum over all truth assignments on which it
holds; the table of a gate that asks for `k` parts sums up the same.
-/

namespace Fickle

/-- The probability that a truth value is `b` when it is true with probability `p`. -/
noncomputable def weight (p : ℝ) (b : Bool) : ℝ := if b then p else 1 - p

/-- The probability of an event when the truth values are true with those probabilities. -/
noncomputable def chance : List ℝ → (List Bool → Bool) → ℝ
  | [], E => if E [] then 1 else 0
  | p :: ps, E =>
    p * chance ps (fun bs => E (true :: bs)) + (1 - p) * chance ps (fun bs => E (false :: bs))

section

variable {ps : List ℝ} {E E' : List Bool → Bool}

theorem chance_congr (h : ∀ bs : List Bool, bs.length = ps.length → E bs = E' bs) :
    chance ps E = chance ps E' := by
  induction ps generalizing E E' with
  | nil => rw [chance, chance, h [] rfl]
  | cons p ps ih =>
    have hcons (b : Bool) :
        chance ps (fun bs => E (b :: bs)) = chance ps (fun bs => E' (b :: bs)) :=
      ih fun bs hbs => h (b :: bs) (congrArg Nat.succ hbs)
    rw [chance, chance, hcons, hcons]

theorem chance_never (ps : List ℝ) : chance ps (fun _ => false) = 0 := by
  induction ps with
  | nil => simp [chance]
  | cons p ps ih => simp [chance, ih]

theorem chance_always (ps : List ℝ) : chance ps (fun _ => true) = 1 := by
  induction ps with
  | nil => simp [chance]
  | cons p ps ih => simp [chance, ih]

theorem chance_not (ps : List ℝ) (E : List Bool → Bool) :
    chance ps (fun bs => !E bs) = 1 - chance ps E := by
  induction ps generalizing E with
  | nil =>
    rw [chance, chance]
    cases E [] <;> simp
  | cons p ps ih =>
    rw [chance, chance, ih, ih]
    ring

theorem chance_or_of_disjoint (hdisjoint : ∀ bs, E bs = true → E' bs = false) :
    chance ps (fun bs => E bs || E' bs) = chance ps E + chance ps E' := by
  induction ps generalizing E E' with
  | nil =>
    rw [chance, chance, chance]
    rcases hE : E [] with _ | _
    · simp
    · simp [hdisjoint [] hE]
  | cons p ps ih =>
    rw [chance, chance, chance, ih fun bs => hdisjoint (true :: bs),
      ih fun bs => hdisjoint (false :: bs)]
    ring

theorem chance_append_singleton (ps : List ℝ) (p : ℝ) (E : List Bool → Bool) :
    chance (ps ++ [p]) E =
      p * chance ps (fun bs => E (bs ++ [true])) +
        (1 - p) * chance ps (fun bs => E (bs ++ [false])) := by
  induction ps generalizing E with
  | nil => simp [chance]
  | cons q ps ih =>
    rw [List.cons_append, chance, ih, ih, chance, chance]
    simp only [List.cons_append]
    ring

theorem chance_append (ps qs : List ℝ) (D : List Bool → Bool) (E : Bool → List Bool → Bool) :
    chance (ps ++ qs) (fun bs => E (D (bs.take ps.length)) (bs.drop ps.length)) =
      chance ps D * chance qs (E true) + (1 - chance ps D) * chance qs (E false) := by
  induction ps generalizing D with
  | nil =>
    rw [chance]
    rcases hD : D [] with _ | _
    · simp [hD]
    · simp [hD]
  | cons p ps ih =>
    have hcons (b : Bool) := ih fun bs => D (b :: bs)
    simp only [List.cons_append, List.length_cons, chance, List.take_succ_cons,
      List.drop_succ_cons, hcons]
    ring

/-- Each truth assignment with which the event occurs has the weight of its truth values. -/
theorem chance_eq_sum {n : ℕ} (p : Fin n → ℝ) (E : List Bool → Bool) :
    chance (List.ofFn p) E =
      ∑ bs : Fin n → Bool with E (List.ofFn bs) = true, ∏ j, weight (p j) (bs j) := by
  rw [Finset.sum_filter]
  induction n generalizing E with
  | zero => simp [chance]
  | succ n ih =>
    have hcons (b : Bool) (bs : Fin n → Bool) :
        (Fin.consEquiv fun _ => Bool) (b, bs) = Fin.cons b bs := rfl
    rw [List.ofFn_succ, chance, ih, ih, ← (Fin.consEquiv fun _ => Bool).sum_comp,
      Fintype.sum_prod_type, Fintype.sum_bool]
    simp only [hcons, List.ofFn_cons, Fin.prod_univ_succ, Fin.cons_zero, Fin.cons_succ,
      Finset.mul_sum, mul_ite, mul_zero]
    rfl

end

/-! ## Gates -/

theorem Exact.sum_eq (xs : List ℝ) : Scalar.sum xs = xs.sum := by
  rw [Scalar.sum, Exact.zero_eq, List.sum_eq_foldl]

theorem getD_addPart (p : ℝ) (below : Option ℝ) (dist : List ℝ) (j : ℕ) :
    (addPart p below dist).getD j 0 =
      dist.getD j 0 * (1 - p) + (below.getD 0 :: dist).getD j 0 * p := by
  induction dist generalizing below j with
  | nil =>
    rcases j with _ | j
    · cases below <;> norm_num [addPart]
    · simp [addPart]
  | cons x dist ih =>
    rcases j with _ | j
    · cases below <;> norm_num [addPart]
    · simpa [addPart] using ih (some x) j

theorem holdCounts_append_singleton (ps : List ℝ) (p : ℝ) :
    holdCounts (ps ++ [p]) = addPart p none (holdCounts ps) := by
  rw [holdCounts, List.foldl_append]
  rfl

theorem getD_holdCounts (ps : List ℝ) (j : ℕ) :
    (holdCounts ps).getD j 0 = chance ps (fun bs => bs.count true = j) := by
  induction ps using List.reverseRecOn generalizing j with
  | nil =>
    rcases j with _ | j
    · norm_num [holdCounts, chance]
    · simp [holdCounts, chance]
  -- The table grows by one part at the end, so the induction takes the parts from there.
  | append_singleton ps p ih =>
    have hfalse (n : ℕ) : (fun bs : List Bool => decide ((bs ++ [false]).count true = n)) =
        fun bs => decide (bs.count true = n) := by
      funext bs
      rw [List.count_append]
      rfl
    rw [holdCounts_append_singleton, getD_addPart, ih, chance_append_singleton, hfalse]
    rcases j with _ | j
    · have htrue : (fun bs : List Bool => decide ((bs ++ [true]).count true = 0)) =
          fun _ => false := by
        funext bs
        simp
      rw [htrue, chance_never, List.getD_cons_zero, Option.getD_none]
      ring
    · have htrue : (fun bs : List Bool => decide ((bs ++ [true]).count true = j + 1)) =
          fun bs => decide (bs.count true = j) := by
        funext bs
        simp
      rw [htrue, List.getD_cons_succ, ih]
      ring

/-- The tail of the table is the chance of so many or more. -/
theorem sum_drop_holdCounts (ps : List ℝ) (k : ℕ) :
    Scalar.sum ((holdCounts ps).drop k) = chance ps (fun bs => k ≤ bs.count true) := by
  have hlength := length_holdCounts ps
  -- From the end of the table down, where one more entry is the chance of one more count.
  induction hd : ps.length + 1 - k generalizing k with
  | zero =>
    have hnever : chance ps (fun bs => k ≤ bs.count true) = chance ps (fun _ => false) := by
      apply chance_congr
      intro bs hbs
      have hcount := bs.count_le_length (a := true)
      exact decide_eq_false (by omega)
    rw [List.drop_eq_nil_of_le (by omega), Exact.sum_eq, List.sum_nil, hnever, chance_never]
  | succ d ih =>
    have hk : k < (holdCounts ps).length := by omega
    have hsplit : (fun bs : List Bool => decide (k ≤ bs.count true)) =
        fun bs => decide (bs.count true = k) || decide (k + 1 ≤ bs.count true) := by
      funext bs
      rw [← Bool.decide_or, decide_eq_decide]
      omega
    rw [List.drop_eq_getElem_cons hk, Exact.sum_eq, List.sum_cons, ← Exact.sum_eq,
      ih (k + 1) (by omega), hsplit, chance_or_of_disjoint, ← getD_holdCounts,
      List.getD_eq_getElem _ _ hk]
    intro bs hbs
    have hcount := of_decide_eq_true hbs
    exact decide_eq_false (by omega)

theorem chance_all (ps : List ℝ) : chance ps (fun bs => bs.all id) = ps.prod := by
  induction ps with
  | nil => simp [chance]
  | cons p ps ih =>
    have hfalse : chance ps (fun bs => (false :: bs).all id) = 0 := chance_never ps
    have htrue : chance ps (fun bs => (true :: bs).all id) = ps.prod := ih
    rw [chance, hfalse, htrue, List.prod_cons]
    ring

theorem chance_any (ps : List ℝ) :
    chance ps (fun bs => bs.any id) = 1 - (ps.map fun p => 1 - p).prod := by
  induction ps with
  | nil => simp [chance]
  | cons p ps ih =>
    have hfalse : chance ps (fun bs => (false :: bs).any id) = 1 - (ps.map fun p => 1 - p).prod :=
      ih
    have htrue : chance ps (fun bs => (true :: bs).any id) = 1 := chance_always ps
    rw [chance, hfalse, htrue, List.map_cons, List.prod_cons]
    ring

theorem Gate.likelihood_eq (g : Gate) (ps : List ℝ) :
    g.likelihood ps = chance ps (fun bs => g.holds bs) := by
  cases g with
  | all => rw [likelihood, Exact.one_eq, ← List.prod_eq_foldl, ← chance_all]; rfl
  | any =>
    have hprod : ps.foldl (fun none p => none * (1 - p)) 1 = (ps.map fun p => 1 - p).prod := by
      rw [List.prod_eq_foldl, List.foldl_map]
    rw [likelihood, Exact.one_eq, hprod, ← chance_any]
    rfl
  | atLeast k => exact sum_drop_holdCounts ps k

/-! ## Formulas -/

namespace Formula

variable {ι : Type}

mutual

theorem likelihood_eq (q : ι → ℝ) :
    ∀ f : Formula ι, f.likelihood q = chance (f.leaves.map q) f.holds
  | leaf l => by simp [likelihood, leaves, holds, chance]
  | not f => by
    rw [likelihood, Exact.one_eq, likelihood_eq q f, ← chance_not]
    rfl
  | gate g fs => by
    rw [likelihood, Gate.likelihood_eq, ← chance_values q fs]
    rfl

/-- Formulas that stand side by side are independent of each other. -/
theorem chance_values (q : ι → ℝ) : ∀ (fs : List (Formula ι)) (E : List Bool → Bool),
    chance ((leavesOf fs).map q) (fun bs => E (values fs bs)) = chance (likelihoods q fs) E
  | [], E => by rw [leavesOf, likelihoods, List.map_nil, chance, values, chance]
  | f :: fs, E => by
    have hsplit := chance_append (f.leaves.map q) ((leavesOf fs).map q) f.holds
      fun b bs => E (b :: values fs bs)
    have hrest (b : Bool) := chance_values q fs fun bs => E (b :: bs)
    rw [List.length_map, ← List.map_append, hrest, hrest, ← likelihood_eq q f] at hsplit
    rw [likelihoods, chance, ← hsplit]
    rfl

end

end Formula

end Fickle

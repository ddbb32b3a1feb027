import Fickle.Rate.Runner

/-! # Trials one after another

Trials that are run one after another stop at the first one that fails. What has begun is noted, so
that a trial that was never begun can be told from one that had no effect.
-/

namespace Fickle.Trials

variable {trial : Nat → Except Fault Trial}

/-! ## In a row and in halves -/

theorem mapM_of_ok {good : Nat → Trial} {is : List Nat} (h : ∀ i ∈ is, trial i = .ok (good i)) :
    is.mapM trial = .ok (is.map good) := by
  induction is with
  | nil => rfl
  | cons i is ih =>
    obtain ⟨hi, his⟩ := List.forall_mem_cons.mp h
    rw [List.mapM_cons, hi, ih his]
    rfl

theorem runFrom_eq (trial : Nat → Except Fault Trial) (n i : Nat) (done : List Trial) :
    runFrom trial n i done = ((List.range' i n).mapM trial).map (done.reverse ++ ·) := by
  induction n generalizing i done with
  | zero =>
    show Except.ok done.reverse = Except.ok (done.reverse ++ [])
    rw [List.append_nil]
  | succ n ih =>
    rw [List.range'_succ, List.mapM_cons]
    unfold runFrom
    rcases trial i with f | t
    · rfl
    · show runFrom trial n (i + 1) (t :: done) = _
      rw [ih]
      rcases (List.range' (i + 1) n).mapM trial with f | ts
      · rfl
      · show Except.ok ((t :: done).reverse ++ ts) = Except.ok (done.reverse ++ t :: ts)
        rw [List.reverse_cons, List.append_assoc]
        rfl

theorem runFrom_nil (trial : Nat → Except Fault Trial) (n i : Nat) :
    runFrom trial n i [] = (List.range' i n).mapM trial := by
  rw [runFrom_eq]
  rcases (List.range' i n).mapM trial with f | ts
  · rfl
  · rfl

/-- An action that notes the indices of the trials it begins, the first one first. -/
abbrev Noted := ExceptT Fault (StateM (List Nat))

def Noted.play {β : Type} (x : Noted β) (begun : List Nat) : Except Fault β × List Nat :=
  Id.run (StateT.run (ExceptT.run x) begun)

theorem Noted.play_bind {β δ : Type} (x : Noted β) (f : β → Noted δ) (begun : List Nat) :
    (x >>= f).play begun = match x.play begun with
      | (.ok a, begun') => (f a).play begun'
      | (.error e, begun') => (.error e, begun') := by
  have hbind : (x >>= f).play begun = ExceptT.bindCont f (x.play begun).1 (x.play begun).2 := rfl
  rw [hbind]
  rcases x.play begun with ⟨e | a, begun'⟩
  · rfl
  · rfl

/-- A trial that is noted as soon as it begins. -/
def noted (trial : Nat → Except Fault Trial) (i : Nat) : Noted Trial :=
  ExceptT.mk fun begun => (trial i, begun ++ [i])

section

variable (trial : Nat → Except Fault Trial) (hasTime : Nat → Bool)

end

variable {expected confidence : Binary64} {n : Nat}

end Fickle.Trials

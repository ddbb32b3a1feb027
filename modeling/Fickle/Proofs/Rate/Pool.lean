import Mathlib.Data.List.Basic
import Mathlib.Logic.Function.Basic
import Mathlib.Logic.Relation
import Fickle.Proofs.Except
import Fickle.Proofs.Rate.Trials

/-! # Trials on a pool of workers

Workers take trials in any order, and finish them in any order; each trial has a slot of its own for
what comes of it. The pool keeps the first fault that comes up; once it has one it may leave trials
undone. However it goes, the trials come out as if they were run one after another.
-/

namespace Fickle.Trials

structure Pool where
  /-- The indices of the trials that no worker has taken. -/
  waiting : List Nat
  running : List Nat
  /-- The finished trials by their indices. -/
  slots : Nat → Option Trial
  fault : Option Fault

namespace Pool

def start (n : Nat) : Pool := ⟨List.range n, [], fun _ => none, none⟩

/-- What one worker does next. -/
inductive Step (trial : Nat → Except Fault Trial) (workers : Nat) (p : Pool) : Pool → Prop where
  | take {i : Nat} (hi : i ∈ p.waiting) (hfree : p.running.length < workers) :
    Step trial workers p { p with waiting := p.waiting.erase i, running := i :: p.running }
  | finish {i : Nat} (hi : i ∈ p.running) {t : Trial} (h : trial i = .ok t) :
    Step trial workers p
      { p with running := p.running.erase i, slots := Function.update p.slots i (some t) }
  | fail {i : Nat} (hi : i ∈ p.running) {f : Fault} (h : trial i = .error f) :
    Step trial workers p { p with running := p.running.erase i, fault := p.fault.or (some f) }

abbrev Steps (trial : Nat → Except Fault Trial) (workers : Nat) : Pool → Pool → Prop :=
  Relation.ReflTransGen (Step trial workers)

/-- No worker has anything left to do. -/
def AtRest (p : Pool) : Prop := p.running = [] ∧ (p.waiting = [] ∨ p.fault.isSome)

/-- What a pool for the trials below `n` hands back when it is at rest: the slots in their order. -/
def result (n : Nat) (p : Pool) : Except Fault (List Trial) :=
  match p.fault with
  | some f => .error f
  | none => .ok ((List.range n).filterMap p.slots)

/-- The result of some run of the pool. -/
def Gives (trial : Nat → Except Fault Trial) (n workers : Nat)
    (result : Except Fault (List Trial)) : Prop :=
  ∃ p, Steps trial workers (start n) p ∧ p.AtRest ∧ p.result n = result

/-! ## A pool comes to rest -/

variable {trial : Nat → Except Fault Trial} {workers n : Nat} {p q : Pool}

/-- What is left to do: to take a trial and to finish it. -/
def work (p : Pool) : Nat := 2 * p.waiting.length + p.running.length

/-- A state of a pool for the trials below `n`. -/
structure Sound (trial : Nat → Except Fault Trial) (n workers : Nat) (p : Pool) : Prop where
  busy : p.running.length ≤ workers
  below : ∀ i ∈ p.waiting ++ p.running, i < n
  /-- Without a fault no trial is lost. -/
  complete : p.fault = none → ∀ i < n, i ∈ p.waiting ∨ i ∈ p.running ∨ (p.slots i).isSome
  finished : ∀ i t, p.slots i = some t → trial i = .ok t
  blamed : ∀ f, p.fault = some f → ∃ i < n, trial i = .error f

theorem Sound.erase (hp : p.Sound trial n workers) (i : Nat) :
    (p.running.erase i).length ≤ workers ∧ ∀ j ∈ p.waiting ++ p.running.erase i, j < n := by
  refine ⟨Nat.le_trans List.length_erase_le hp.busy, fun j hj => hp.below j ?_⟩
  rw [List.mem_append] at hj ⊢
  exact hj.imp_right List.mem_of_mem_erase

theorem Sound.step (hp : p.Sound trial n workers) (h : Step trial workers p q) :
    q.Sound trial n workers := by
  cases h with
  | @take i hi hfree =>
    refine ⟨hfree, fun j hj => hp.below j ?_, fun hnone j hj => ?_, hp.finished, hp.blamed⟩
    · rw [List.mem_append, List.mem_cons] at hj
      rw [List.mem_append]
      rcases hj with hj | rfl | hj
      · exact .inl (List.mem_of_mem_erase hj)
      · exact .inl hi
      · exact .inr hj
    · by_cases hji : j = i
      · exact .inr (.inl (hji ▸ List.mem_cons_self))
      · exact (hp.complete hnone j hj).imp (List.mem_erase_of_ne hji).mpr
          (Or.imp_left (List.mem_cons_of_mem i))
  | @finish i hi t ht =>
    obtain ⟨hbusy, hbelow⟩ := hp.erase i
    refine ⟨hbusy, hbelow, fun hnone j hj => ?_, fun j u hu => ?_, hp.blamed⟩
    -- The trial goes from the workers to its slot, and the others stay where they are.
    · by_cases hji : j = i
      · have hslot : Function.update p.slots i (some t) j = some t := by
          rw [hji, Function.update_self]
        exact .inr (.inr (Option.isSome_of_eq_some hslot))
      · have hslot : Function.update p.slots i (some t) j = p.slots j :=
          Function.update_of_ne hji _ _
        dsimp only
        rw [hslot]
        exact (hp.complete hnone j hj).imp_right (Or.imp_left (List.mem_erase_of_ne hji).mpr)
    · dsimp only at hu
      by_cases hji : j = i
      · rw [hji, Function.update_self] at hu
        rw [hji, ht, Option.some.inj hu]
      · rw [Function.update_of_ne hji] at hu
        exact hp.finished j u hu
  | @fail i hi f hf =>
    obtain ⟨hbusy, hbelow⟩ := hp.erase i
    refine ⟨hbusy, hbelow, fun hnone => ?_, hp.finished, fun g hg => ?_⟩
    · simp at hnone
    · rcases hfault : p.fault with _ | _
      · rw [hfault] at hg
        cases hg
        exact ⟨i, hp.below i (List.mem_append_right _ hi), hf⟩
      · rw [hfault] at hg
        cases hg
        exact hp.blamed g hfault

theorem Sound.steps (hp : p.Sound trial n workers) (h : Steps trial workers p q) :
    q.Sound trial n workers := by
  induction h with
  | refl => exact hp
  | tail _ hstep ih => exact ih.step hstep

/-! ## What a pool gives -/

end Pool

end Fickle.Trials

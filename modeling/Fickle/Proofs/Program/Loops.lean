import Fickle.Program.Typed

/-! # Loops

What holds of the calls and of the body of a loop, and lasts from one action to the next, holds of
the loop.
-/

namespace Fickle.Program

variable {m : Type → Type} [Monad m]

/-- A property of actions that loops have if their bodies do. -/
structure Closed (m : Type → Type) [Monad m] (C : {β : Type} → m β → Prop) : Prop where
  pure : ∀ {β : Type} (a : β), C (pure a)
  bind : ∀ {β γ : Type} {p : m β} {f : β → m γ}, C p → (∀ a, C (f a)) → C (p >>= f)

variable {C : {β : Type} → m β → Prop} {β : Type}

theorem Closed.loop (h : Closed m C) {body : Nat → m β} (hbody : ∀ i, C (body i)) (n i : Nat) :
    C (Program.loop body n i) := by
  induction n generalizing i with
  | zero => exact h.pure []
  | succ n ih => exact h.bind (hbody i) fun b => h.bind (ih (i + 1)) fun bs => h.pure (b :: bs)

variable [MonadLiftT Program m]

theorem Closed.repeatWith (h : Closed m C) {site : Site} {n : UInt64}
    (hcall : C (liftM (kindaRepeat site n))) {body : Nat → m β} (hbody : ∀ i, C (body i)) :
    C (Program.repeatWith site n body) :=
  h.bind hcall fun count => h.bind (h.loop hbody count.toNat 0) fun bs => h.pure (count, bs)

theorem Closed.maybeForEach (h : Closed m C) {ι : Type} {site : Site}
    (hcall : C (liftM (maybeFor site))) {body : ι → m β} (hbody : ∀ x, C (body x))
    (items : List ι) : C (Program.maybeForEach site body items) := by
  induction items with
  | nil => exact h.pure []
  | cons x items ih =>
    apply h.bind hcall
    intro through
    split
    · exact h.bind (hbody x) fun b => h.bind ih fun bs => h.pure (b :: bs)
    · exact ih

end Fickle.Program

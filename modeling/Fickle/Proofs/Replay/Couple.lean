import Fickle.Program.Typed
import Fickle.Proofs.Program
import Fickle.Proofs.Sampling

/-! # Programs that go alike

Two programs are coupled when they take the same steps, on sessions that look the same. They may
pass different arguments to a call, if a relation allows it.
-/

namespace Fickle

/-- What a program sees of a session: neither its mode, nor its stream, nor its drift model. -/
structure Session.Alike (s t : Session) : Prop where
  registry : s.registry = t.registry
  profile : s.profile = t.profile
  chaos : s.chaos = t.chaos
  instability : s.instability = t.instability
  next : s.next = t.next
  tally : s.tally = t.tally

structure Host.Alike (a b : Host) : Prop where
  session : a.session.Alike b.session
  printed : a.printed = b.printed

namespace Program

/-- Two programs with the same steps. Arguments of calls are related by `R`, and the outcome of a
call is known to be one that its construct yields. -/
inductive Couples (R : Args Binary64 → Args Binary64 → Prop) :
    {α : Type} → Program α → Program α → Prop where
  | pure {α : Type} (a : α) : Couples R (pure a) (pure a)
  | throw {α : Type} (f : Fault) : Couples R (throw f : Program α) (throw f)
  | bind {α β : Type} {p q : Program α} {f g : α → Program β} (hp : Couples R p q)
      (hf : ∀ a, Couples R (f a) (g a)) : Couples R (p >>= f) (q >>= g)
  | session {α : Type} {f g : Session → Program α}
      (h : ∀ s t, s.Alike t → Couples R (f s) (g t)) : Couples R (session >>= f) (session >>= g)
  | report (e e' : Event) : Couples R (report e) (report e')
  | print (line : String) : Couples R (print line) (print line)
  | evaluate {α : Type} {args args' : Args Binary64} {f g : Outcome Binary64 → Program α}
      (c : Construct) (site : Site) (hargs : R args args')
      (h : ∀ o, c.Yields o → Couples R (f o) (g o)) :
      Couples R (evaluate c site args >>= f) (evaluate c site args' >>= g)
  | setPersonality (name : String) : Couples R (setPersonality name) (setPersonality name)
  | setChaosLevel (level : UInt8) : Couples R (setChaosLevel level) (setChaosLevel level)
  | recordFallback (m m' : String) : Couples R (recordFallback m) (recordFallback m')

/-! ## Constructs with their own types -/

section

variable {R : Args Binary64 → Args Binary64 → Prop} {α β : Type}

/-- A view that gives something for each outcome of a construct. -/
def Fits (c : Construct) (view : Outcome Binary64 → Option β) : Prop :=
  ∀ o, c.Yields o → (view o).isSome = true

theorem fits_asBool {c : Construct} (hc : c.yieldsBool = true) : Fits c Outcome.asBool? := by
  intro o ho
  unfold Construct.Yields at ho
  unfold Construct.yieldsBool at hc
  cases hb : c.behaviour <;> rw [hb] at ho hc <;> cases hc
  all_goals
    obtain ⟨b, rfl⟩ := ho
    rfl

theorem fits_asInt {c : Construct} (hc : c.behaviour = .integer) : Fits c Outcome.asInt? := by
  intro o ho
  unfold Construct.Yields at ho
  rw [hc] at ho
  obtain ⟨v, rfl⟩ := ho
  rfl

theorem fits_asFloat {c : Construct} (hc : c.behaviour ∈ [.float, .spread, .drift]) :
    Fits c Outcome.asFloat? := by
  intro o ho
  unfold Construct.Yields at ho
  cases hb : c.behaviour <;> rw [hb] at ho hc <;> simp at hc
  all_goals
    obtain ⟨v, rfl⟩ := ho
    rfl

theorem fits_asCount {c : Construct} (hc : c.behaviour = .count) : Fits c Outcome.asCount? := by
  intro o ho
  unfold Construct.Yields at ho
  rw [hc] at ho
  obtain ⟨n, rfl⟩ := ho
  rfl

theorem fits_asTernary {c : Construct} (hc : c.behaviour = .choice) :
    Fits c Outcome.asTernary? := by
  intro o ho
  unfold Construct.Yields at ho
  rw [hc] at ho
  obtain ⟨v, rfl, -⟩ := ho
  rfl

theorem couples_call {c : Construct} {view : Outcome Binary64 → Option β} (hview : Fits c view)
    (site : Site) {args args' : Args Binary64} (hargs : R args args') :
    Couples R (call c view site args) (call c view site args') := by
  unfold call
  apply Couples.evaluate c site hargs
  intro o ho
  obtain ⟨v, hv⟩ := Option.isSome_iff_exists.mp (hview o ho)
  unfold expect
  rw [hv]
  exact Couples.pure v

theorem couples_evaluate (hR : ∀ args, R args args) (c : Construct) (site : Site)
    (args : Args Binary64) : Couples R (evaluate c site args) (evaluate c site args) := by
  have h := Couples.evaluate (f := pure) (g := pure) c site (hR args) fun o _ => Couples.pure o
  rw [bind_pure] at h
  exact h

end

end Program

end Fickle

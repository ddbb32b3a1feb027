import Fickle.Proofs.Session.Evaluate

/-! # Runs beside a recording

A recording writes down what is decided and changes nothing of it. On a session that is not recorded
a program comes to the same.
-/

namespace Fickle

namespace Session

/-- The session with its recording left out. -/
def unrecorded (s : Session) : Session := { s with mode := .live }

/-- What is drawn does not depend on whether it is written down. -/
theorem evaluate_unrecorded {s : Session} (h : s.isReplaying = false) (c : Construct) (site : Site)
    (args : Args Binary64) :
    s.unrecorded.evaluate c site args =
      (s.evaluate c site args).map fun r => (r.1, r.2.unrecorded) := by
  rw [evaluate_of_not_replaying h, evaluate_of_not_replaying (s := s.unrecorded) rfl]
  rcases args.check c with f | ⟨⟩
  · rfl
  · rfl

theorem alike_unrecorded (s : Session) : s.Alike s.unrecorded := ⟨rfl, rfl, rfl, rfl, rfl, rfl⟩

end Session

/-- The second host does without a recording that the first one may have, and is else the same to a
program. -/
structure Host.Beside (a b : Host) : Prop where
  live : a.session.isReplaying = false
  session : b.session = a.session.unrecorded
  clock : b.clock = a.clock

namespace Program

variable {β γ : Type}

/-- The program comes to the same on a host beside. -/
def InStep (p : Program β) : Prop :=
  ∀ a b : Host, a.Beside b → (p.play b).1 = (p.play a).1 ∧ (p.play a).2.Beside (p.play b).2

theorem inStep_bind {p : Program β} {f : β → Program γ} (hp : InStep p) (hf : ∀ x, InStep (f x)) :
    InStep (p >>= f) := by
  intro a b hab
  obtain ⟨hres, hafter⟩ := hp a b hab
  rw [play_bind, play_bind]
  rcases hplay : p.play a with ⟨r, a'⟩
  rcases hplay' : p.play b with ⟨r', b'⟩
  rw [hplay, hplay'] at hres hafter
  cases hres
  rcases r with f | x
  · exact ⟨rfl, hafter⟩
  · exact hf x a' b' hafter

theorem inStep_evaluate (c : Construct) (site : Site) (args : Args Binary64) :
    InStep (evaluate c site args) := by
  intro a b hab
  have heval := Session.evaluate_unrecorded hab.live c site args
  rw [← hab.session] at heval
  have hclock :
      ((evaluate c site args).play b).2.clock = ((evaluate c site args).play a).2.clock := by
    rw [clock_play_evaluate, clock_play_evaluate, hab.clock]
  -- The call on the second session is that on the first with the log left out.
  rcases ha : a.session.evaluate c site args with f | ⟨o, s⟩
  · rw [ha] at heval
    obtain ⟨hres, hsession, -⟩ := session_play_evaluate_of_error ha
    obtain ⟨hres', hsession', -⟩ := session_play_evaluate_of_error heval
    refine ⟨hres'.trans hres.symm, ?_, ?_, hclock⟩
    · rw [hsession, hab.live]
    · rw [hsession, hsession', hab.session]
  · rw [ha] at heval
    obtain ⟨hres, hsession, -⟩ := session_play_evaluate_of_ok ha
    obtain ⟨hres', hsession', -⟩ := session_play_evaluate_of_ok heval
    refine ⟨hres'.trans hres.symm, ?_, ?_, hclock⟩
    · rw [hsession]
      exact (Session.yields_of_evaluate_eq_ok hab.live ha).2
    · rw [hsession, hsession']

theorem inStep_call (c : Construct) (view : Outcome Binary64 → Option β) (site : Site)
    (args : Args Binary64) : InStep (call c view site args) := by
  apply inStep_bind (inStep_evaluate c site args)
  intro o a b hab
  have hmisfit : misfit b.session c o = misfit a.session c o := by
    unfold misfit
    rw [hab.live, hab.session]
    rfl
  rw [play_expect, play_expect, hmisfit]
  rcases view o with _ | v
  · exact ⟨rfl, hab⟩
  · exact ⟨rfl, hab⟩

theorem inStep_setPersonality (name : String) : InStep (setPersonality name) := by
  intro a b hab
  have hregistry : b.session.registry = a.session.registry := by rw [hab.session]; rfl
  rw [play_setPersonality, play_setPersonality, hregistry]
  rcases a.session.registry.get name with f | profile
  · exact ⟨rfl, hab⟩
  · refine ⟨rfl, hab.live, ?_, hab.clock⟩
    exact congrArg (fun s : Session => { s with profile }) hab.session

theorem inStep_setChaosLevel (level : UInt8) : InStep (setChaosLevel level) := by
  intro a b hab
  rw [play_setChaosLevel, play_setChaosLevel]
  rcases ChaosLevel.ofNat level with f | chaos
  · exact ⟨rfl, hab⟩
  · refine ⟨rfl, hab.live, ?_, hab.clock⟩
    exact congrArg (fun s : Session => { s with chaos }) hab.session

theorem inStep_session {f : Session → Program β} (hf : ∀ s, InStep (f s))
    (hsame : ∀ s t, s.Alike t → f s = f t) : InStep (session >>= f) := by
  intro a b hab
  have hnext : f b.session = f a.session := by
    rw [hab.session]
    exact (hsame _ _ a.session.alike_unrecorded).symm
  rw [play_bind, play_session, play_bind, play_session]
  dsimp only
  rw [hnext]
  exact hf a.session a b hab

theorem Plain.inStep {p : Program β} (hp : p.Plain) : InStep p := by
  induction hp with
  | pure x => exact fun a b hab => ⟨rfl, hab⟩
  | throw hf => exact fun a b hab => ⟨rfl, hab⟩
  | bind hp hf ihp ihf => exact inStep_bind ihp ihf
  | look hf hsame ih => exact inStep_session ih hsame
  | report e => exact fun a b hab => ⟨rfl, hab.live, hab.session, hab.clock⟩
  | print line => exact fun a b hab => ⟨rfl, hab.live, hab.session, hab.clock⟩
  | evaluate c site args => exact inStep_evaluate c site args
  | call hview site args => exact inStep_call _ _ site args
  | setPersonality name => exact inStep_setPersonality name
  | setChaosLevel level => exact inStep_setChaosLevel level
  | recordFallback message =>
    exact fun a b hab =>
      ⟨rfl, hab.live, congrArg Session.recordFallback hab.session, hab.clock⟩

end Program

end Fickle

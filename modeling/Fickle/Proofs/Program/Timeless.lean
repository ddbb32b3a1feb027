import Fickle.Proofs.Program.Loops
import Fickle.Proofs.Program.Plain
import Fickle.Proofs.Session.Move

/-! # What does without the time

Only a drifting variable that is read gives away what the clock has read. Whatever else is done in a
world comes to the same at any time.
-/

namespace Fickle

variable {β γ : Type}

/-! ## Programs -/

namespace Program

/-- The program neither looks at the clock nor sets it. -/
def Timeless (p : Program β) : Prop :=
  ∀ (h : Host) (clock : Clock),
    p.play { h with clock } = ((p.play h).1, { (p.play h).2 with clock })

theorem timeless_bind {p : Program β} {f : β → Program γ} (hp : p.Timeless)
    (hf : ∀ x, (f x).Timeless) : (p >>= f).Timeless := by
  intro h clock
  rw [play_bind, play_bind, hp h clock]
  rcases p.play h with ⟨e | x, h'⟩
  · rfl
  · exact hf x h' clock

theorem timeless_session {f : Session → Program β} (hf : ∀ s, (f s).Timeless) :
    (session >>= f).Timeless := by
  intro h clock
  exact hf h.session h clock

theorem timeless_evaluate (c : Construct) (site : Site) (args : Args Binary64) :
    (evaluate c site args).Timeless := by
  intro h clock
  rw [play_evaluate, play_evaluate]
  dsimp only
  rcases h.session.evaluate c site args with f | ⟨o, s⟩
  · dsimp only
    split
    · rfl
    · rfl
  · dsimp only
    split
    · rfl
    · rfl

theorem timeless_call (c : Construct) (view : Outcome Binary64 → Option β) (site : Site)
    (args : Args Binary64) : (call c view site args).Timeless := by
  apply timeless_bind (timeless_evaluate c site args)
  intro o h clock
  rw [play_expect, play_expect]
  rcases view o with _ | v
  · rfl
  · rfl

theorem timeless_setPersonality (name : String) : (setPersonality name).Timeless := by
  intro h clock
  rw [play_setPersonality, play_setPersonality]
  dsimp only
  rcases h.session.registry.get name with f | profile
  · rfl
  · rfl

theorem timeless_setChaosLevel (level : UInt8) : (setChaosLevel level).Timeless := by
  intro h clock
  rw [play_setChaosLevel, play_setChaosLevel]
  rcases ChaosLevel.ofNat level with f | chaos
  · rfl
  · rfl

theorem Plain.timeless {p : Program β} (hp : p.Plain) : p.Timeless := by
  induction hp with
  | pure x => exact fun h clock => rfl
  | throw hf => exact fun h clock => rfl
  | bind hp hf ihp ihf => exact timeless_bind ihp ihf
  | look hf hsame ih => exact timeless_session ih
  | report e => exact fun h clock => rfl
  | print line => exact fun h clock => rfl
  | evaluate c site args => exact timeless_evaluate c site args
  | call hview site args => exact timeless_call _ _ site args
  | setPersonality name => exact timeless_setPersonality name
  | setChaosLevel level => exact timeless_setChaosLevel level
  | recordFallback message => exact fun h clock => rfl

end Program

/-! ## Acts -/

/-- The worlds differ in nothing but times: what their clocks read, and what has been stamped on
their variables. -/
structure World.SameButTimes (v w : World) : Prop where
  host : ∃ clock, w.host = { v.host with clock }
  vars : v.vars.map DriftVar.shown = w.vars.map DriftVar.shown

theorem World.SameButTimes.view {v w : World} (h : v.SameButTimes w) : w.view = v.view := by
  obtain ⟨clock, hhost⟩ := h.host
  unfold World.view World.session
  rw [hhost, h.vars]

theorem World.SameButTimes.tick {v w : World} (h : v.SameButTimes w) :
    v.tick.SameButTimes w.tick := by
  obtain ⟨clock, hhost⟩ := h.host
  refine ⟨⟨⟨w.readings 0⟩, ?_⟩, h.vars⟩
  unfold World.tick
  rw [hhost]

namespace Act

/-- What the clock reads makes no difference to the act. -/
def Timeless (p : Act β) : Prop :=
  ∀ v w, v.SameButTimes w →
    (p.play w).1 = (p.play v).1 ∧ (p.play v).2.SameButTimes (p.play w).2

theorem timeless_settle (r : Except Fault β) : Timeless (ExceptT.mk (pure r)) :=
  fun _ _ h => ⟨rfl, h⟩

theorem timeless_attempt {p : Act β} {f : Except Fault β → Act γ} (hp : p.Timeless)
    (hf : ∀ r, (f r).Timeless) : (p.attempt f).Timeless := by
  intro v w h
  obtain ⟨hres, hafter⟩ := hp v w h
  have hplay (x : World) : (p.attempt f).play x = (f (p.play x).1).play (p.play x).2 := rfl
  rw [hplay, hplay, hres]
  exact hf _ _ _ hafter

theorem timeless_bind {p : Act β} {f : β → Act γ} (hp : p.Timeless)
    (hf : ∀ x, (f x).Timeless) : (p >>= f).Timeless := by
  intro v w h
  obtain ⟨hres, hafter⟩ := hp v w h
  rw [play_bind, play_bind]
  rcases hv : p.play v with ⟨r, v'⟩
  rcases hw : p.play w with ⟨r', w'⟩
  rw [hv, hw] at hres hafter
  cases hres
  rcases r with e | x
  · exact ⟨rfl, hafter⟩
  · exact hf x v' w' hafter

theorem closed_timeless : Program.Closed Act Timeless :=
  ⟨fun a => timeless_settle (.ok a), timeless_bind⟩

theorem timeless_ofProgram {p : Program β} (hp : p.Timeless) : (ofProgram p).Timeless := by
  intro v w h
  obtain ⟨clock, hhost⟩ := h.host
  have hplay (x : World) : (ofProgram p).play x =
      ((p.play x.host).1, { x with host := (p.play x.host).2 }) := rfl
  rw [hplay, hplay, hhost, hp v.host clock]
  exact ⟨rfl, ⟨clock, rfl⟩, h.vars⟩

theorem timeless_look : look.Timeless :=
  fun _ _ h => ⟨congrArg Except.ok h.view, h⟩

theorem timeless_driftVar (site : Site) (nominal : Binary64) :
    (driftVar site nominal).Timeless := by
  intro v w h
  have hlength := congrArg List.length h.vars
  rw [List.length_map, List.length_map] at hlength
  refine ⟨congrArg Except.ok hlength.symm, h.tick.host, ?_⟩
  show (v.vars ++ [_]).map _ = (w.vars ++ [_]).map _
  rw [List.map_append, List.map_append, h.vars]
  rfl

theorem timeless_assign (i : Nat) (nominal : Binary64) (time : Duration → Duration) :
    (assign i nominal time).Timeless := by
  intro v w h
  rw [play_assign, play_assign]
  obtain ⟨hv, hw⟩ | ⟨x, y, hv, hw, hxy⟩ := DriftVar.getElem?_of_shown h.vars i
  · rw [hv, hw]
    exact ⟨rfl, h⟩
  · rw [hv, hw]
    refine ⟨rfl, h.tick.host, DriftVar.map_shown_set h.vars i ?_⟩
    exact congrArg (fun t => (t.1, nominal, (0 : UInt64))) hxy

end Act

/-! ## Actions -/

/-- The action reads no drifting variable. -/
def Action.Timeless {β : Type} : Action β → Prop
  | operate _ | driftVar _ _ | assign _ _ _ | look | settle _ => True
  | timeDrift _ => False
  | attempt a next => a.Timeless ∧ ∀ r, (next r).Timeless
  | repeatWith _ _ body => ∀ i, (body i).Timeless
  | maybeForEach _ body _ => ∀ x, (body x).Timeless

theorem Action.Timeless.act {a : Action β} (h : a.Timeless) : a.act.Timeless := by
  induction a with
  | operate op => exact Act.timeless_ofProgram op.plain.timeless
  | driftVar site nominal => exact Act.timeless_driftVar site nominal
  | timeDrift i => exact h.elim
  | assign i nominal time => exact Act.timeless_assign i nominal time
  | look => exact Act.timeless_look
  | settle r => exact Act.timeless_settle r
  | attempt a next iha ihnext =>
    exact Act.timeless_attempt (iha h.1) fun r => ihnext r (h.2 r)
  | repeatWith site n body ih =>
    exact Act.closed_timeless.repeatWith
      (Act.timeless_ofProgram (Operation.kindaRepeat site n).plain.timeless) fun i => ih i (h i)
  | maybeForEach site body items ih =>
    exact Act.closed_timeless.maybeForEach
      (Act.timeless_ofProgram (Operation.maybeFor site).plain.timeless) (fun x => ih x (h x)) items

end Fickle

import Fickle.Proofs.Program.Loops
import Fickle.Proofs.Replay.Fidelity
import Fickle.Proofs.Session.Move

/-! # Scripts

A script may do with a session all that there is to do, each step chosen by what came of the steps
before it. A host that is reached by scripts has a session that is reached by moves.
-/

namespace Fickle

variable {β γ : Type}

/-! ## What a script does -/

/-- The log with the given auto-seeded flag. -/
def Log.flagged (flag : Bool) (l : Log) : Log := { l with autoSeeded := flag }

def Mode.flagged (flag : Bool) : Mode → Mode
  | .live => .live
  | .recording log => .recording (log.flagged flag)
  | .replaying cursor => .replaying cursor

/-- The session with the given auto-seeded flag, which its log shares. -/
def Session.flagged (flag : Bool) (s : Session) : Session :=
  { s with autoSeeded := flag, mode := s.mode.flagged flag }

/-- Only `isAutoSeeded` gives the auto-seeded flag away. -/
inductive Script : Type → Type 1 where
  | operate {β : Type} (op : Operation β) : Script β
  | driftVar (site : Site) (nominal : Binary64) : Script DriftVar
  | timeDrift (v : DriftVar) : Script (Except Fault Binary64 × DriftVar)
  /-- All that there is to see of the session. -/
  | look : Script Session
  | isAutoSeeded : Script Bool
  | now : Script Duration
  /-- Time passes. -/
  | setClock (clock : Clock) : Script Unit
  | reseed (seed : UInt64) : Script Unit
  | restart (settings : Settings) (drawn : UInt64) : Script Unit
  | startRecording : Script Unit
  | stopRecording : Script (Option Log)
  | finishReplay : Script Unit
  | settle {β : Type} (r : Except Fault β) : Script β
  | attempt {β γ : Type} (a : Script β) (next : Except Fault β → Script γ) : Script γ
  | repeatWith {β : Type} (site : Site) (n : UInt64) (body : Nat → Script β) :
    Script (UInt64 × List β)
  | maybeForEach {ι β : Type} (site : Site) (body : ι → Script β) (items : List ι) :
    Script (List β)

/-- Goes on with what came of `p`, be it a fault. -/
def Program.attempt (p : Program β) (next : Except Fault β → Program γ) : Program γ :=
  ExceptT.mk fun h =>
    let (r, h) := p.play h
    (next r).play h

def Script.program {β : Type} : Script β → Program β
  | operate op => op.program
  | driftVar site nominal => Program.driftVar site nominal
  | timeDrift v => ExceptT.lift (Program.timeDrift v)
  | look => return (← Program.session).flagged false
  | isAutoSeeded => return (← Program.session).autoSeeded
  | now => return (← get).clock.now
  | setClock clock => modify fun h => { h with clock }
  | reseed seed => Program.reseed seed
  | restart settings drawn => Program.restart settings drawn
  | startRecording => Program.startRecording
  | stopRecording => return (← Program.stopRecording).map (Log.flagged false)
  | finishReplay => Program.finishReplay
  | settle r => Program.ofExcept r
  | attempt a next => a.program.attempt fun r => (next r).program
  | repeatWith site n body => Program.repeatWith site n fun i => (body i).program
  | maybeForEach site body items => Program.maybeForEach site (fun x => (body x).program) items

/-- The script begins a run, or ends one, only by moves that satisfy `P`. -/
def Script.Within (P : Move → Prop) {β : Type} : Script β → Prop
  | operate _ | driftVar _ _ | timeDrift _ | look | isAutoSeeded | now | setClock _
  | settle _ => True
  | reseed seed => P (.reseed seed)
  | restart settings drawn => P (.restart settings drawn)
  | startRecording => P .startRecording
  | stopRecording => P .stopRecording
  | finishReplay => P .finishReplay
  | attempt a next => a.Within P ∧ ∀ r, (next r).Within P
  | repeatWith _ _ body => ∀ i, (body i).Within P
  | maybeForEach _ body _ => ∀ x, (body x).Within P

theorem Script.within_of_forall {P : Move → Prop} (hP : ∀ m, P m) (c : Script β) : c.Within P := by
  induction c with
  | operate | driftVar | timeDrift | look | isAutoSeeded | now | setClock | settle => trivial
  | reseed | restart | startRecording | stopRecording | finishReplay => exact hP _
  | attempt a next iha ihnext => exact ⟨iha, ihnext⟩
  | repeatWith site n body ih => exact ih
  | maybeForEach site body items ih => exact ih

namespace Program

/-! ## Runs -/

theorem play_attempt (p : Program β) (next : Except Fault β → Program γ) (h : Host) :
    (p.attempt next).play h = (next (p.play h).1).play (p.play h).2 := rfl

@[simp]
theorem play_reseed (seed : UInt64) (h : Host) :
    (reseed seed).play h = (.ok (), { h with session := h.session.reseed seed }) := rfl

theorem play_restart (settings : Settings) (drawn : UInt64) (h : Host) :
    (restart settings drawn).play h = match h.session.restart settings drawn with
      | .ok s => (.ok (), { h with
          session := s
          journal := Host.openingEvents settings .sessionRestarted ++ h.journal })
      | .error f => (.error f, h) := by
  rw [restart, play_bind, play_session]
  dsimp only
  rw [play_bind, play_ofExcept]
  rcases h.session.restart settings drawn with f | s
  · rfl
  · unfold Host.openingEvents
    by_cases hrecord : settings.record = true
    · rw [if_pos hrecord]
      rfl
    · rw [if_neg hrecord]
      rfl

theorem play_stopRecording (h : Host) :
    stopRecording.play h = (.ok h.session.stopRecording.1, { h with
      session := h.session.stopRecording.2
      journal := (h.session.stopRecording.1.map fun log => .recordingStopped log.size).toList
        ++ h.journal }) := by
  rw [stopRecording, play_bind, play_session]
  dsimp only
  rcases h.session.stopRecording with ⟨_ | log, s⟩
  · rfl
  · rfl

theorem session_play_restart (settings : Settings) (drawn : UInt64) (h : Host) :
    ((restart settings drawn).play h).2.session = h.session.move (.restart settings drawn) := by
  rw [play_restart]
  unfold Session.move Session.accept
  dsimp only
  rcases h.session.restart settings drawn with f | s
  · rfl
  · rfl

theorem session_play_startRecording (h : Host) :
    (startRecording.play h).2.session = h.session.move .startRecording := by
  rw [play_startRecording]
  unfold Session.move Session.accept
  dsimp only
  rcases h.session.startRecording with f | s
  · rfl
  · rfl

theorem session_play_stopRecording (h : Host) :
    (stopRecording.play h).2.session = h.session.move .stopRecording := by
  rw [play_stopRecording]
  rfl

theorem exists_play_finishReplay (h : Host) : ∃ journal, finishReplay.play h =
    (h.session.finishReplay.1, { h with session := h.session.finishReplay.2, journal }) := by
  rw [finishReplay, play_bind, play_session]
  dsimp only
  split
  · exact ⟨_, rfl⟩
  · exact ⟨_, rfl⟩

theorem session_play_finishReplay (h : Host) :
    (finishReplay.play h).2.session = h.session.move .finishReplay := by
  obtain ⟨journal, hplay⟩ := exists_play_finishReplay h
  rw [hplay]
  rfl

variable {P : Move → Prop}

theorem closed_moves : Closed Program (Moves P) :=
  ⟨fun _ _ => .refl _, moves_bind⟩

end Program

theorem Script.play_timeDrift (v : DriftVar) (h : Host) :
    (timeDrift v).program.play h =
      let read := v.aging.touch h.clock.now
      let r := (Program.call .timeDrift Outcome.asFloat? v.site (.drift read.1)).play h
      (.ok (r.1, { v with aging := read.2 }), r.2) := rfl

theorem Script.play_stopRecording (h : Host) :
    stopRecording.program.play h = (.ok (h.session.stopRecording.1.map (Log.flagged false)),
      (Program.stopRecording.play h).2) := by
  rw [program, Program.play_bind, Program.play_stopRecording]
  rfl

open Program in
theorem Script.moves {P : Move → Prop} (hP : ∀ m : Move, m.goesOn = true → P m) (c : Script β)
    (hc : c.Within P) : c.program.Moves P := by
  induction c with
  | operate op => exact op.plain.moves hP
  | driftVar site nominal => exact fun h => .refl _
  | timeDrift v =>
    intro h
    have hplain : Plain (call .timeDrift Outcome.asFloat? v.site
        (.drift (v.aging.touch h.clock.now).1)) := Plain.call (fits_asFloat (by decide)) _ _
    -- Touching the variable is no move of the session, only the call is.
    exact hplain.moves hP h
  | look => exact fun h => .refl _
  | isAutoSeeded => exact fun h => .refl _
  | now => exact fun h => .refl _
  | setClock clock => exact fun h => .refl _
  | reseed seed => exact moves_of_session_play hc fun h => rfl
  | restart settings drawn => exact moves_of_session_play hc (session_play_restart settings drawn)
  | startRecording => exact moves_of_session_play hc session_play_startRecording
  | stopRecording =>
    apply moves_of_session_play hc
    intro h
    rw [Script.play_stopRecording]
    exact session_play_stopRecording h
  | finishReplay => exact moves_of_session_play hc session_play_finishReplay
  | settle r => exact fun h => .refl _
  | attempt a next iha ihnext =>
    exact fun h => (iha hc.1 h).trans (ihnext _ (hc.2 _) _)
  | repeatWith site n body ih =>
    exact closed_moves.repeatWith ((Operation.kindaRepeat site n).plain.moves hP)
      fun i => ih i (hc i)
  | maybeForEach site body items ih =>
    exact closed_moves.maybeForEach ((Operation.maybeFor site).plain.moves hP)
      (fun x => ih x (hc x)) items

/-! ## Moves in their sessions -/

namespace Program

/-- When the program succeeds on the host, what it gives and the host after it satisfy `Q`. -/
def After (p : Program β) (h : Host) (Q : β → Host → Prop) : Prop :=
  ∀ b, (p.play h).1 = .ok b → Q b (p.play h).2

/-- Each round of the loop begins on a host that satisfies `C`. -/
def Rounds (body : Nat → Program β) (C : Nat → Host → Prop) : Nat → Nat → Host → Prop
  | 0, _, _ => True
  | n + 1, i, h => C i h ∧ After (body i) h fun _ h => Rounds body C n (i + 1) h

/-- Each item that is let through comes upon a host that satisfies `C`. -/
def Visits {ι : Type} (site : Site) (body : ι → Program β) (C : ι → Host → Prop) :
    List ι → Host → Prop
  | [], _ => True
  | x :: xs, h => After (maybeFor site) h fun through h =>
    if through then C x h ∧ After (body x) h fun _ h => Visits site body C xs h
    else Visits site body C xs h

theorem rounds_of_forall {body : Nat → Program β} {C : Nat → Host → Prop} (hC : ∀ i h, C i h)
    (n i : Nat) (h : Host) : Rounds body C n i h := by
  induction n generalizing i h with
  | zero => trivial
  | succ n ih => exact ⟨hC i h, fun _ _ => ih (i + 1) _⟩

theorem visits_of_forall {ι : Type} {site : Site} {body : ι → Program β} {C : ι → Host → Prop}
    (hC : ∀ x h, C x h) (items : List ι) (h : Host) : Visits site body C items h := by
  induction items generalizing h with
  | nil => trivial
  | cons x items ih =>
    intro through _
    split
    · exact ⟨hC x _, fun _ _ => ih _⟩
    · exact ih _

variable {I : Session → Prop}

theorem preserves_bind {p : Program β} {f : β → Program γ} {h : Host}
    (hp : I (p.play h).2.session)
    (hf : After p h fun b h' => I h'.session → I ((f b).play h').2.session) :
    I ((p >>= f).play h).2.session := by
  have hfirst := hf
  unfold After at hfirst
  rw [play_bind]
  rcases hplay : p.play h with ⟨e | b, h'⟩ <;> rw [hplay] at hp hfirst
  · exact hp
  · exact hfirst b rfl hp

theorem Rounds.preserves {body : Nat → Program β} {C : Nat → Host → Prop}
    (hbody : ∀ i h, C i h → I h.session → I ((body i).play h).2.session) {n i : Nat} {h : Host}
    (hrounds : Rounds body C n i h) (hI : I h.session) :
    I ((Program.loop body n i).play h).2.session := by
  induction n generalizing i h with
  | zero => exact hI
  | succ n ih =>
    obtain ⟨hC, hafter⟩ := hrounds
    exact preserves_bind (hbody i h hC hI) fun b hb hround =>
      preserves_bind (ih (hafter b hb) hround) fun _ _ hrest => hrest

theorem Visits.preserves {ι : Type} {site : Site} {body : ι → Program β} {C : ι → Host → Prop}
    (hcall : ∀ h : Host, I h.session → I ((maybeFor site).play h).2.session)
    (hbody : ∀ x h, C x h → I h.session → I ((body x).play h).2.session) {items : List ι}
    {h : Host} (hvisits : Visits site body C items h) (hI : I h.session) :
    I ((Program.maybeForEach site body items).play h).2.session := by
  induction items generalizing h with
  | nil => exact hI
  | cons x items ih =>
    refine preserves_bind (hcall h hI) fun through hthrough hgate => ?_
    have hvisit := hvisits through hthrough
    cases through with
    | false => exact ih hvisit hgate
    | true =>
      obtain ⟨hC, hafter⟩ := hvisit
      exact preserves_bind (hbody x _ hC hgate) fun b hb hround =>
        preserves_bind (ih (hafter b hb) hround) fun _ _ hrest => hrest

end Program

/-- When the script is run on the host, each move by which it begins a run, or ends one, satisfies
`P` in the session in which it is made. -/
def Script.Heeds (P : Session → Move → Prop) {β : Type} : Script β → Host → Prop
  | operate _, _ | driftVar _ _, _ | timeDrift _, _ | look, _ | isAutoSeeded, _ | now, _
  | setClock _, _ | settle _, _ => True
  | reseed seed, h => P h.session (.reseed seed)
  | restart settings drawn, h => P h.session (.restart settings drawn)
  | startRecording, h => P h.session .startRecording
  | stopRecording, h => P h.session .stopRecording
  | finishReplay, h => P h.session .finishReplay
  | attempt a next, h =>
    a.Heeds P h ∧ (next (a.program.play h).1).Heeds P (a.program.play h).2
  | repeatWith site n body, h => Program.After (Program.kindaRepeat site n) h fun count h =>
    Program.Rounds (fun i => (body i).program) (fun i h => (body i).Heeds P h) count.toNat 0 h
  | maybeForEach site body items, h =>
    Program.Visits site (fun x => (body x).program) (fun x h => (body x).Heeds P h) items h

theorem Script.heeds_of_within {P : Move → Prop} {Q : Session → Move → Prop}
    (hPQ : ∀ s m, P m → Q s m) {c : Script β} (hc : c.Within P) (h : Host) : c.Heeds Q h := by
  induction c generalizing h with
  | operate | driftVar | timeDrift | look | isAutoSeeded | now | setClock | settle => trivial
  | reseed | restart | startRecording | stopRecording | finishReplay => exact hPQ _ _ hc
  | attempt a next iha ihnext => exact ⟨iha hc.1 h, ihnext _ (hc.2 _) _⟩
  | repeatWith site n body ih =>
    exact fun _ _ => Program.rounds_of_forall (fun i => ih i (hc i)) _ _ _
  | maybeForEach site body items ih =>
    exact Program.visits_of_forall (fun x => ih x (hc x)) _ _

/-- What moves keep, where each satisfies `P` in its session, a run keeps that heeds `P`. -/
theorem Script.Heeds.preserves {P : Session → Move → Prop} {I : Session → Prop}
    (hgoes : ∀ s t m, m.goesOn = true → s.accept m = .ok t → I s → I t)
    (hmove : ∀ s t m, P s m → s.accept m = .ok t → I s → I t) {c : Script β} {h : Host}
    (hc : c.Heeds P h) (hI : I h.session) : I (c.program.play h).2.session := by
  have hplain {β : Type} {p : Program β} (hp : p.Plain) (h : Host) (hI : I h.session) :
      I (p.play h).2.session := (hp.moves (fun _ hm => hm) h).preserves hgoes hI
  have hmoves {m : Move} {s : Session} (hm : P s m) (hs : I s) : I (s.move m) :=
    Session.move_of_accept (fun t ht => hmove s t m hm ht hs) hs
  induction c generalizing h with
  | operate op => exact hplain op.plain h hI
  | timeDrift v =>
    -- Touching the variable is no move of the session, only the call is.
    exact hplain (Program.Plain.call (Program.fits_asFloat (by decide)) _ _) h hI
  | driftVar | look | isAutoSeeded | now | setClock | settle => exact hI
  | reseed seed => exact hmoves hc hI
  | restart settings drawn =>
    show I ((Program.restart settings drawn).play h).2.session
    rw [Program.session_play_restart]
    exact hmoves hc hI
  | startRecording =>
    show I (Program.startRecording.play h).2.session
    rw [Program.session_play_startRecording]
    exact hmoves hc hI
  | stopRecording =>
    rw [play_stopRecording, Program.session_play_stopRecording]
    exact hmoves hc hI
  | finishReplay =>
    show I (Program.finishReplay.play h).2.session
    rw [Program.session_play_finishReplay]
    exact hmoves hc hI
  | attempt a next iha ihnext => exact ihnext _ hc.2 (iha hc.1 hI)
  | repeatWith site n body ih =>
    apply Program.preserves_bind (hplain (Operation.kindaRepeat site n).plain h hI)
    intro count hcount hI'
    exact Program.preserves_bind ((hc count hcount).preserves (fun i h hi => ih i hi) hI')
      fun _ _ hrest => hrest
  | maybeForEach site body items ih =>
    exact Program.Visits.preserves (hplain (Operation.maybeFor site).plain)
      (fun x h hx => ih x hx) hc hI

/-! ## What can be reached -/

/-- Scripts lead to the host from one with a new session, or with one that replays a log. -/
inductive Host.Reached (registry : Registry) : Host → Prop where
  | create {settings : Settings} {drawn : UInt64} {clock : Clock} {h : Host}
      (hcreate : Host.create settings registry drawn clock = .ok h) : Reached registry h
  | replay {log : Log} {s : Session} (hreplay : Session.replay log registry = .ok s)
      (clock : Clock) : Reached registry (Host.ofSession s clock)
  | run {β : Type} {h : Host} (hr : Reached registry h) (c : Script β) :
    Reached registry (c.program.play h).2

/-- What new sessions have and moves keep, every session has that can be reached. -/
theorem Host.Reached.induct {registry : Registry} {I : Session → Prop} {h : Host}
    (hr : h.Reached registry)
    (hcreate : ∀ settings drawn s, Session.create settings registry drawn = .ok s → I s)
    (hreplay : ∀ log s, Session.replay log registry = .ok s → I s)
    (hmove : ∀ s t m, s.accept m = .ok t → I s → I t) : I h.session := by
  induction hr with
  | create h => exact hcreate _ _ _ (Host.of_create_eq_ok h).1
  | replay h clock => exact hreplay _ _ h
  | run hr c ih =>
    have hmoves := c.moves (fun _ _ => trivial) (c.within_of_forall fun _ => trivial)
    exact (hmoves _).preserves (fun s t m _ => hmove s t m) ih

end Fickle

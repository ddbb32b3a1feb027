import Fickle.Proofs.Program.Plain
import Fickle.Proofs.Replay.Echo

/-! # Moves of a session

Whatever is done with a session, it changes by nine moves. What each of them keeps, a run keeps.
-/

namespace Fickle

/-- A change of a session. Where the session refuses it, nothing changes. -/
inductive Move where
  | evaluate (c : Construct) (site : Site) (args : Args Binary64)
  | recordFallback
  | setPersonality (name : String)
  | setChaosLevel (level : UInt8)
  | reseed (seed : UInt64)
  | restart (settings : Settings) (drawn : UInt64)
  | startRecording
  | stopRecording
  | finishReplay

/-- The moves of plain programs: they go on with the run and begin none. -/
def Move.goesOn : Move → Bool
  | evaluate _ _ _ | recordFallback | setPersonality _ | setChaosLevel _ => true
  | reseed _ | restart _ _ | startRecording | stopRecording | finishReplay => false

namespace Session

/-- The session after a move, unless it is refused. -/
def accept (s : Session) : Move → Except Fault Session
  | .evaluate c site args => (s.evaluate c site args).map Prod.snd
  | .recordFallback => .ok s.recordFallback
  | .setPersonality name => s.setPersonality name
  | .setChaosLevel level => s.setChaosLevel level
  | .reseed seed => .ok (s.reseed seed)
  | .restart settings drawn => s.restart settings drawn
  | .startRecording => s.startRecording
  | .stopRecording => .ok s.stopRecording.2
  | .finishReplay => .ok s.finishReplay.2

def move (s : Session) (m : Move) : Session :=
  match s.accept m with
  | .ok t => t
  | .error _ => s

/-- `t` comes of `s` by moves that satisfy `P`. -/
def Leads (P : Move → Prop) (s t : Session) : Prop :=
  ∃ ms : List Move, (∀ m ∈ ms, P m) ∧ ms.foldl move s = t

variable {P : Move → Prop} {s t u : Session}

theorem Leads.refl (s : Session) : s.Leads P s := ⟨[], by simp, rfl⟩

theorem Leads.trans (h : s.Leads P t) (h' : t.Leads P u) : s.Leads P u := by
  obtain ⟨ms, hms, rfl⟩ := h
  obtain ⟨ms', hms', rfl⟩ := h'
  refine ⟨ms ++ ms', ?_, List.foldl_append⟩
  intro m hm
  rcases List.mem_append.mp hm with hm | hm
  · exact hms m hm
  · exact hms' m hm

theorem leads_move {m : Move} (hm : P m) (s : Session) : s.Leads P (s.move m) :=
  ⟨[m], by simpa using hm, rfl⟩

theorem exists_of_accept_evaluate {c : Construct} {site : Site} {args : Args Binary64}
    (h : s.accept (.evaluate c site args) = .ok t) : ∃ o, s.evaluate c site args = .ok (o, t) := by
  unfold accept at h
  dsimp only at h
  rcases heval : s.evaluate c site args with f | ⟨o, t'⟩
  · rw [heval] at h
    cases h
  · rw [heval] at h
    cases h
    exact ⟨o, rfl⟩

theorem move_of_accept {I : Session → Prop} {m : Move} (hmove : ∀ t, s.accept m = .ok t → I t)
    (hs : I s) : I (s.move m) := by
  unfold move
  rcases haccept : s.accept m with f | t
  · exact hs
  · exact hmove t haccept

/-- What every accepted move keeps holds at the end of a run. -/
theorem Leads.preserves {I : Session → Prop} (h : s.Leads P t)
    (hmove : ∀ s t m, P m → s.accept m = .ok t → I s → I t) (hs : I s) : I t := by
  obtain ⟨ms, hms, rfl⟩ := h
  induction ms generalizing s with
  | nil => exact hs
  | cons m ms ih =>
    obtain ⟨hm, hms⟩ := List.forall_mem_cons.mp hms
    exact ih (move_of_accept (fun t ht => hmove s t m hm ht hs) hs) hms

end Session

/-! ## Programs -/

namespace Program

variable {β γ : Type} {P : Move → Prop}

/-- The program moves the session by moves that satisfy `P`. -/
def Moves (P : Move → Prop) (p : Program β) : Prop :=
  ∀ h : Host, h.session.Leads P (p.play h).2.session

theorem moves_of_session_play {p : Program β} {m : Move} (hm : P m)
    (hp : ∀ h, (p.play h).2.session = h.session.move m) : Moves P p := by
  intro h
  rw [hp h]
  exact Session.leads_move hm _

theorem moves_bind {p : Program β} {f : β → Program γ} (hp : Moves P p) (hf : ∀ a, Moves P (f a)) :
    Moves P (p >>= f) := by
  intro h
  have hfirst := hp h
  rw [play_bind]
  rcases hplay : p.play h with ⟨e | a, h'⟩
  · rw [hplay] at hfirst
    exact hfirst
  · rw [hplay] at hfirst
    exact hfirst.trans (hf a h')

theorem session_play_evaluate (c : Construct) (site : Site) (args : Args Binary64) (h : Host) :
    ((evaluate c site args).play h).2.session = h.session.move (.evaluate c site args) := by
  unfold Session.move Session.accept
  dsimp only
  rcases heval : h.session.evaluate c site args with f | ⟨o, s⟩
  · exact (session_play_evaluate_of_error heval).2.1
  · exact (session_play_evaluate_of_ok heval).2.1

/-- The fault of a call whose outcome does not fit. -/
def misfit (s : Session) (c : Construct) (o : Outcome Binary64) : Fault :=
  if s.isReplaying then .badLog (.misfit o c) else .invalidArgument c (.produced o)

theorem play_expect (c : Construct) (view : Outcome Binary64 → Option β) (o : Outcome Binary64)
    (h : Host) :
    (expect c view o).play h = match view o with
      | some v => (.ok v, h)
      | none => (.error (misfit h.session c o), h) := by
  unfold expect misfit
  rcases view o with _ | v
  · dsimp only
    rw [play_bind, play_session]
    dsimp only
    split
    · rfl
    · rfl
  · rfl

theorem session_play_call (c : Construct) (view : Outcome Binary64 → Option β) (site : Site)
    (args : Args Binary64) (h : Host) :
    ((call c view site args).play h).2.session = h.session.move (.evaluate c site args) := by
  rw [← session_play_evaluate, call, play_bind]
  rcases (evaluate c site args).play h with ⟨f | o, h'⟩
  · rfl
  · dsimp only
    rw [play_expect]
    rcases view o with _ | v
    · rfl
    · rfl

theorem session_play_setPersonality (name : String) (h : Host) :
    ((setPersonality name).play h).2.session = h.session.move (.setPersonality name) := by
  rw [setPersonality, play_change]
  unfold Session.move Session.accept
  dsimp only
  rcases h.session.setPersonality name with f | s
  · rfl
  · rfl

theorem session_play_setChaosLevel (level : UInt8) (h : Host) :
    ((setChaosLevel level).play h).2.session = h.session.move (.setChaosLevel level) := by
  rw [setChaosLevel, play_change]
  unfold Session.move Session.accept
  dsimp only
  rcases h.session.setChaosLevel level with f | s
  · rfl
  · rfl

/-- A plain program moves the session by moves that go on with the run. -/
theorem Plain.moves (hP : ∀ m : Move, m.goesOn = true → P m) {p : Program β} (hp : p.Plain) :
    p.Moves P := by
  induction hp with
  | pure a => exact fun h => .refl _
  | throw hf => exact fun h => .refl _
  -- The one case that runs two programs: the moves of the second follow on those of the first.
  | bind hp hf ihp ihf => exact moves_bind ihp ihf
  -- Looking at the session moves nothing, so the rest is played on the same host.
  | look hf hsame ih =>
    intro h
    rw [play_bind, play_session]
    exact ih h.session h
  | report e => exact fun h => .refl _
  | print line => exact fun h => .refl _
  | evaluate c site args =>
    exact moves_of_session_play (hP _ rfl) (session_play_evaluate c site args)
  | call hview site args =>
    exact moves_of_session_play (hP _ rfl) (session_play_call _ _ site args)
  | setPersonality name => exact moves_of_session_play (hP _ rfl) (session_play_setPersonality name)
  | setChaosLevel level => exact moves_of_session_play (hP _ rfl) (session_play_setChaosLevel level)
  | recordFallback message =>
    exact moves_of_session_play (m := .recordFallback) (hP _ rfl) fun h => rfl

end Program

end Fickle

import Fickle.Program

/-! # Running programs -/

namespace Fickle.Program

variable {α β : Type}

@[simp]
theorem play_pure (a : α) (h : Host) : (pure a : Program α).play h = (.ok a, h) := rfl

@[simp]
theorem play_throw (f : Fault) (h : Host) : (throw f : Program α).play h = (.error f, h) := rfl

theorem play_bind (p : Program α) (f : α → Program β) (h : Host) :
    (p >>= f).play h = match p.play h with
      | (.ok a, h') => (f a).play h'
      | (.error e, h') => (.error e, h') := by
  have hbind : (p >>= f).play h = ExceptT.bindCont f (p.play h).1 (p.play h).2 := rfl
  rw [hbind]
  rcases p.play h with ⟨e | a, h'⟩
  · rfl
  · rfl

theorem play_bind_of_ok {p : Program α} {h : Host} {a : α} (hp : (p.play h).1 = .ok a)
    (f : α → Program β) : (p >>= f).play h = (f a).play (p.play h).2 := by
  rw [play_bind]
  rcases hplay : p.play h with ⟨r, h'⟩
  rw [hplay] at hp
  cases hp
  rfl

@[simp]
theorem play_report (e : Event) (h : Host) : (report e).play h = (.ok (), h.report e) := rfl

@[simp]
theorem play_print (line : String) (h : Host) :
    (print line).play h = (.ok (), { h with printed := line :: h.printed }) := rfl

@[simp]
theorem play_setSession (s : Session) (h : Host) :
    (setSession s).play h = (.ok (), { h with session := s }) := rfl

@[simp]
theorem play_session (h : Host) : session.play h = (.ok h.session, h) := rfl

@[simp]
theorem play_ofExcept (r : Except Fault β) (h : Host) : (ofExcept r).play h = (r, h) := rfl

theorem play_evaluate (c : Construct) (site : Site) (args : Args Binary64) (h : Host) :
    (evaluate c site args).play h = match h.session.evaluate c site args with
      | .ok (outcome, s) =>
        (.ok outcome, { (if h.session.scalesOdds args then h.report .oddsScaled else h) with
          session := s })
      | .error f => (.error f, if f.isDivergence then h.report .replayDiverged else h) := by
  rw [evaluate, play_bind, play_session]
  dsimp only
  rcases h.session.evaluate c site args with f | ⟨outcome, s⟩
  · dsimp only
    split
    · rfl
    · rfl
  · dsimp only
    split
    · rfl
    · rfl

theorem clock_play_evaluate (c : Construct) (site : Site) (args : Args Binary64) (h : Host) :
    ((evaluate c site args).play h).2.clock = h.clock := by
  rw [play_evaluate]
  rcases h.session.evaluate c site args with f | ⟨o, s⟩
  · dsimp only
    split
    · rfl
    · rfl
  · dsimp only
    split
    · rfl
    · rfl

/-- An action that changes the session, if it can, and reports the change. -/
theorem play_change (change : Session → Except Fault Session) (e : Event) (h : Host) :
    Program.play (do
        setSession (← ofExcept (change (← session)))
        report e) h =
      match change h.session with
      | .ok s => (.ok (), { h with session := s, journal := e :: h.journal })
      | .error f => (.error f, h) := by
  rw [play_bind, play_session]
  dsimp only
  rw [play_bind, play_ofExcept]
  rcases change h.session with f | s
  · rfl
  · rfl

theorem play_setPersonality (name : String) (h : Host) :
    (setPersonality name).play h =
      match h.session.registry.get name with
      | .ok profile =>
        (.ok (), { h with session.profile := profile, journal := .personalityChanged :: h.journal })
      | .error f => (.error f, h) := by
  rw [setPersonality, play_change]
  unfold Session.setPersonality
  rcases h.session.registry.get name with f | profile
  · rfl
  · rfl

theorem play_setChaosLevel (level : UInt8) (h : Host) :
    (setChaosLevel level).play h =
      match ChaosLevel.ofNat level with
      | .ok chaos =>
        (.ok (), { h with session.chaos := chaos, journal := .chaosChanged :: h.journal })
      | .error f => (.error f, h) := by
  rw [setChaosLevel, play_change]
  unfold Session.setChaosLevel
  rcases ChaosLevel.ofNat level with f | chaos
  · rfl
  · rfl

theorem play_startRecording (h : Host) :
    startRecording.play h =
      match h.session.startRecording with
      | .ok s => (.ok (), { h with session := s, journal := .recordingStarted :: h.journal })
      | .error f => (.error f, h) := by
  rw [startRecording, play_change]

theorem fst_play_stopRecording (h : Host) :
    (stopRecording.play h).1 = .ok h.session.stopRecording.1 := by
  rw [stopRecording, play_bind, play_session]
  dsimp only
  rcases h.session.stopRecording with ⟨_ | log, s⟩
  · rfl
  · rfl

theorem fst_play_finishReplay (h : Host) :
    (finishReplay.play h).1 = h.session.finishReplay.1 := by
  rw [finishReplay, play_bind, play_session]
  dsimp only
  split
  · rfl
  · rfl

end Fickle.Program

import Fickle.Proofs.Session.Evaluate
import Fickle.Proofs.Session.Script

/-! # Beginnings of a run

Of a session that begins again, only what it begins with can be told afterwards. There is one such
session for each registry, personality, chaos level, drift model and seed.
-/

namespace Fickle

namespace Session

/-! ## Fresh sessions -/

/-- The session at the start of a run, which is recorded or not. -/
def opened (registry : Registry) (profile : Profile Binary64) (chaos : ChaosLevel)
    (drift : DriftModel Binary64) (seed : UInt64) (autoSeeded record : Bool) : Session where
  registry := registry
  profile := profile
  chaos := chaos
  seed := seed
  autoSeeded := autoSeeded
  stream := Stream.ofSeed seed
  instability := Instability.calm
  next := 0
  mode := if record then .recording (Log.empty profile.name chaos seed autoSeeded) else .live
  drift := drift
  tally := Tally.zero

/-- The session back at the start of a run. -/
def afresh (s : Session) (seed : UInt64) (autoSeeded record : Bool) : Session :=
  opened s.registry s.profile s.chaos s.drift seed autoSeeded record

variable {r : Registry} {s t : Session}

theorem create_eq (settings : Settings) (registry : Registry) (drawn : UInt64) :
    create settings registry drawn = (do
      let profile ← registry.get settings.personality
      let chaos ← settings.chaos
      return opened registry profile chaos settings.drift (settings.seed.getD drawn)
        settings.seed.isNone settings.record) := by
  unfold create
  rcases registry.get settings.personality with f | profile
  · rfl
  rcases settings.chaos with f | chaos
  · rfl
  cases hrecord : settings.record
  · rfl
  · rfl

theorem restart_eq_create (s : Session) (settings : Settings) (drawn : UInt64) :
    s.restart settings drawn = create settings s.registry drawn := by
  rw [create_eq]
  unfold restart
  rcases s.registry.get settings.personality with f | profile
  · rfl
  rcases settings.chaos with f | chaos
  · rfl
  cases hrecord : settings.record
  · rfl
  · rfl

theorem create_of_restart {settings : Settings} {drawn : UInt64}
    (h : s.restart settings drawn = .ok t) : create settings s.registry drawn = .ok t := by
  rw [← restart_eq_create]
  exact h

theorem of_startRecording_eq_ok (h : s.startRecording = .ok t) :
    s.isReplaying = false ∧ t = s.afresh s.seed s.autoSeeded true := by
  unfold startRecording at h
  split at h
  · cases h
  · rename_i hlive
    cases h
    exact ⟨eq_false_of_ne_true hlive, rfl⟩

theorem reseed_of_not_replaying (h : s.isReplaying = false) (seed : UInt64) :
    s.reseed seed = s.afresh seed false s.isRecording := by
  unfold isReplaying at h
  unfold reseed rewind isRecording
  rcases hmode : s.mode with _ | log | cursor
  · rfl
  · rfl
  · rw [hmode] at h
    cases h

theorem reseed_of_replaying (h : s.isReplaying = true) (seed : UInt64) :
    s.reseed seed = s.rewind seed false := by
  obtain ⟨log, k, hmode⟩ := exists_cursor h
  unfold reseed rewind
  rw [hmode]

/-- The settings of a session whose next run has a chosen seed. -/
def settings (s : Session) (seed : UInt64) (record : Bool) : Settings where
  personality := s.profile.name
  chaosLevel := s.chaos.val
  seed := some seed
  record := record
  drift := s.drift

theorem snd_stopRecording_eq (s : Session) :
    s.stopRecording.2 = s ∨ s.stopRecording.2 = { s with mode := .live } := by
  unfold stopRecording
  rcases s.mode with _ | log | cursor
  · exact .inl rfl
  · exact .inr rfl
  · exact .inl rfl

theorem snd_finishReplay_eq (s : Session) :
    s.finishReplay.2 = s ∨ s.finishReplay.2 = { s with mode := .live } := by
  unfold finishReplay
  rcases s.mode with _ | log | cursor
  · exact .inl rfl
  · exact .inl rfl
  · exact .inr rfl

/-- The profile is the one that the registry has under its name. -/
structure Registered (r : Registry) (s : Session) : Prop where
  registry : s.registry = r
  profile : r.get s.profile.name = .ok s.profile

/-- A session begins again as a new one of its own settings does. -/
theorem Registered.create_settings (h : s.Registered r) (seed : UInt64) (record : Bool)
    (drawn : UInt64) :
    create (s.settings seed record) r drawn = .ok (s.afresh seed false record) := by
  have hchaos : (s.settings seed record).chaos = .ok s.chaos :=
    (ChaosLevel.ofNat_eq_ok_iff _ _).mpr rfl
  obtain ⟨rfl, hprofile⟩ := h
  rw [create_eq, hchaos]
  unfold settings
  dsimp only
  rw [hprofile]
  rfl

/-! ## Moves -/

theorem of_create_eq_opened {settings : Settings} {drawn : UInt64}
    (h : create settings r drawn = .ok s) :
    ∃ profile chaos, r.get settings.personality = .ok profile ∧ settings.chaos = .ok chaos ∧
      s = opened r profile chaos settings.drift (settings.seed.getD drawn) settings.seed.isNone
        settings.record := by
  rw [create_eq] at h
  obtain ⟨profile, hget, h⟩ := bind_eq_ok_iff.mp h
  obtain ⟨chaos, hchaos, h⟩ := bind_eq_ok_iff.mp h
  cases h
  exact ⟨profile, chaos, hget, hchaos, rfl⟩

theorem registered_of_create {settings : Settings} {drawn : UInt64}
    (h : create settings r drawn = .ok s) : s.Registered r := by
  obtain ⟨profile, chaos, hget, -, rfl⟩ := of_create_eq_opened h
  exact ⟨rfl, Registry.get_name hget⟩

theorem registered_of_replay {log : Log} (h : replay log r = .ok s) : s.Registered r := by
  obtain ⟨t, hcreate, h⟩ := bind_eq_ok_iff.mp h
  cases h
  have hregistered := registered_of_create hcreate
  exact ⟨hregistered.registry, hregistered.profile⟩

/-- What changes neither the registry nor the profile. -/
theorem Registered.congr (h : s.Registered r) (hregistry : t.registry = s.registry)
    (hprofile : t.profile = s.profile) : t.Registered r := by
  obtain ⟨rfl, hget⟩ := h
  exact ⟨hregistry, by rw [hprofile, hget]⟩

/-- What an accepted move makes of a session. -/
inductive Accepts (s : Session) : Move → Session → Prop where
  | decides {c : Construct} {site : Site} {args : Args Binary64} {o : Outcome Binary64} {t : Session}
      (heval : s.evaluate c site args = .ok (o, t)) : Accepts s (.evaluate c site args) t
  | fallsBack : Accepts s .recordFallback s.recordFallback
  | setsProfile {name : String} {profile : Profile Binary64}
      (hget : s.registry.get name = .ok profile) : Accepts s (.setPersonality name) { s with profile }
  | setsChaos {level : UInt8} (chaos : ChaosLevel) : Accepts s (.setChaosLevel level) { s with chaos }
  | reseeds (seed : UInt64) (hlive : s.isReplaying = false) :
      Accepts s (.reseed seed) (s.afresh seed false s.isRecording)
  | rewinds (seed : UInt64) (hreplaying : s.isReplaying = true) :
      Accepts s (.reseed seed) (s.rewind seed false)
  | restarts {settings : Settings} {drawn : UInt64} {t : Session}
      (hcreate : create settings s.registry drawn = .ok t) : Accepts s (.restart settings drawn) t
  | records : Accepts s .startRecording (s.afresh s.seed s.autoSeeded true)
  | stays {m : Move} (hm : m = .stopRecording ∨ m = .finishReplay) : Accepts s m s
  | goesLive {m : Move} (hm : m = .stopRecording ∨ m = .finishReplay) :
      Accepts s m { s with mode := .live }

theorem accepts_of_accept {m : Move} (hmove : s.accept m = .ok t) : s.Accepts m t := by
  cases m with
  | evaluate c site args =>
    obtain ⟨o, heval⟩ := exists_of_accept_evaluate hmove
    exact .decides heval
  | recordFallback =>
    cases hmove
    exact .fallsBack
  | setPersonality name =>
    obtain ⟨profile, hget, hmove⟩ := bind_eq_ok_iff.mp hmove
    cases hmove
    exact .setsProfile hget
  | setChaosLevel level =>
    obtain ⟨chaos, -, hmove⟩ := bind_eq_ok_iff.mp hmove
    cases hmove
    exact .setsChaos chaos
  | reseed seed =>
    cases hmove
    rcases hreplaying : s.isReplaying
    · rw [reseed_of_not_replaying hreplaying]
      exact .reseeds seed hreplaying
    · rw [reseed_of_replaying hreplaying]
      exact .rewinds seed hreplaying
  | restart settings drawn => exact .restarts (create_of_restart hmove)
  | startRecording =>
    obtain ⟨-, rfl⟩ := of_startRecording_eq_ok hmove
    exact .records
  | stopRecording =>
    cases hmove
    rcases s.snd_stopRecording_eq with heq | heq
    · rw [heq]
      exact .stays (.inl rfl)
    · rw [heq]
      exact .goesLive (.inl rfl)
  | finishReplay =>
    cases hmove
    rcases s.snd_finishReplay_eq with heq | heq
    · rw [heq]
      exact .stays (.inr rfl)
    · rw [heq]
      exact .goesLive (.inr rfl)

theorem Registered.accept (h : s.Registered r) {m : Move} (hmove : s.accept m = .ok t) :
    t.Registered r := by
  cases accepts_of_accept hmove with
  | decides heval =>
    have hbooked := Booked.of_evaluate_eq_ok heval
    exact h.congr hbooked.registry hbooked.profile
  | setsProfile hget =>
    obtain ⟨rfl, -⟩ := h
    exact ⟨rfl, Registry.get_name hget⟩
  | restarts hcreate =>
    rw [h.registry] at hcreate
    exact registered_of_create hcreate
  | fallsBack | setsChaos _ | reseeds _ _ | rewinds _ _ | records | stays _ | goesLive _ =>
    exact h.congr rfl rfl

end Session

theorem Host.Reached.registered {r : Registry} {h : Host} (hr : h.Reached r) :
    h.session.Registered r :=
  hr.induct (fun _ _ _ => Session.registered_of_create) (fun _ _ => Session.registered_of_replay)
    fun _ _ _ hmove hregistered => hregistered.accept hmove

end Fickle

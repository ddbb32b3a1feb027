import Fickle.Proofs.Session.Recording

/-! # Saving a recording

The header of a log has one byte for the length of a name. A log that is handed out has the name of
a profile of the registry, and nothing but a long name keeps it from being saved.
-/

namespace Fickle

/-! ## The name in a log -/

namespace Session

variable {registry : Registry} {s t : Session} {log : Log}

theorem of_mode_opened {profile : Profile Binary64} {chaos : ChaosLevel}
    {drift : DriftModel Binary64} {seed : UInt64} {autoSeeded record : Bool}
    (h : (opened registry profile chaos drift seed autoSeeded record).mode = .recording log) :
    log = Log.empty profile.name chaos seed autoSeeded := by
  cases record with
  | false => cases h
  | true =>
    cases h
    rfl

theorem exists_personality_of_book (d : Decision) (l : Luck)
    (h : (s.book d l).mode = .recording log) :
    ∃ log₀, s.mode = .recording log₀ ∧ log.personality = log₀.personality := by
  obtain ⟨log₀, hmode⟩ := exists_log_of_book h
  unfold book at h
  rw [hmode] at h
  cases h
  exact ⟨log₀, hmode, rfl⟩

theorem exists_personality_of_evaluate {c : Construct} {site : Site} {args : Args Binary64}
    {o : Outcome Binary64} (heval : s.evaluate c site args = .ok (o, t))
    (hlog : t.mode = .recording log) :
    ∃ log₀, s.mode = .recording log₀ ∧ log.personality = log₀.personality := by
  rcases hreplaying : s.isReplaying
  · obtain ⟨-, -, rfl⟩ := of_evaluate_eq_ok_of_not_replaying hreplaying heval
    exact exists_personality_of_book _ (luck c args o s.profile) hlog
  · obtain ⟨log', k, hmode⟩ := exists_cursor hreplaying
    obtain ⟨d, -, -, rfl⟩ := of_evaluate_eq_ok_of_replaying hmode heval
    cases hlog

/-- After a move a log either begins, with the name of the profile in force, or goes on under the
name that it has. -/
theorem begins_or_goes_on {m : Move} (hmove : s.accept m = .ok t)
    (hlog : t.mode = .recording log) :
    log = Log.empty t.profile.name t.chaos t.seed t.autoSeeded ∨
      ∃ log₀, s.mode = .recording log₀ ∧ log.personality = log₀.personality := by
  cases accepts_of_accept hmove with
  | decides heval => exact .inr (exists_personality_of_evaluate heval hlog)
  | fallsBack | setsProfile _ | setsChaos _ | stays _ => exact .inr ⟨log, hlog, rfl⟩
  | reseeds _ _ | records => exact .inl (of_mode_opened hlog)
  | restarts hcreate =>
    obtain ⟨profile, chaos, -, -, rfl⟩ := of_create_eq_opened hcreate
    exact .inl (of_mode_opened hlog)
  | rewinds seed hreplaying =>
    -- A replay is wound back and goes on replaying, so there is no log at all.
    obtain ⟨log', k, hmode⟩ := exists_cursor hreplaying
    unfold rewind at hlog
    rw [hmode] at hlog
    cases hlog
  | goesLive _ => cases hlog

/-- The name in the log, where there is one, is that of a profile of the registry. -/
def WritesKnown (registry : Registry) (s : Session) : Prop :=
  ∀ log, s.mode = .recording log → ∃ p, registry.get log.personality = .ok p

theorem writesKnown_of_create {settings : Settings} {drawn : UInt64}
    (h : create settings registry drawn = .ok s) : s.WritesKnown registry := by
  obtain ⟨profile, chaos, hget, -, rfl⟩ := of_create_eq_opened h
  intro log hlog
  rw [of_mode_opened hlog]
  exact ⟨profile, Registry.get_name hget⟩

theorem writesKnown_of_replay {log : Log} (h : replay log registry = .ok s) :
    s.WritesKnown registry := by
  obtain ⟨t, -, h⟩ := bind_eq_ok_iff.mp h
  cases h
  exact nofun

theorem WritesKnown.accept (h : s.WritesKnown registry) {m : Move} (hmove : s.accept m = .ok t)
    (hregistered : t.Registered registry) : t.WritesKnown registry := by
  intro log hlog
  rcases begins_or_goes_on hmove hlog with rfl | ⟨log₀, hlog₀, hname⟩
  · exact ⟨t.profile, hregistered.profile⟩
  · rw [hname]
    exact h log₀ hlog₀

end Session

theorem Host.Reached.writesKnown {registry : Registry} {h : Host} (hr : h.Reached registry) :
    h.session.WritesKnown registry := by
  have hboth := hr.induct (I := fun s => s.Registered registry ∧ s.WritesKnown registry)
    (fun _ _ _ hcreate =>
      ⟨Session.registered_of_create hcreate, Session.writesKnown_of_create hcreate⟩)
    (fun _ _ hreplay =>
      ⟨Session.registered_of_replay hreplay, Session.writesKnown_of_replay hreplay⟩)
    fun _ _ _ hmove ⟨hregistered, hknown⟩ =>
      ⟨hregistered.accept hmove, hknown.accept hmove (hregistered.accept hmove)⟩
  exact hboth.2

/-! ## Saving -/

/-- The host hands out the log, when it stops to record or when it ends. -/
def Host.HandsOut (h : Host) (log : Log) : Prop :=
  (Program.stopRecording.play h).1 = .ok (some log) ∨
    ∃ summary, (Program.teardown.play h).1 = .ok summary ∧ summary.recording = some log

theorem Host.mode_of_handsOut {h : Host} {log : Log} (hlog : h.HandsOut log) :
    h.session.mode = .recording log := by
  rcases hlog with hstop | ⟨summary, hsummary, hrecording⟩
  · rw [Program.fst_play_stopRecording] at hstop
    exact Session.fst_stopRecording_eq_some_iff.mp (Except.ok.inj hstop)
  · cases hsummary
    rw [Session.recording_summary] at hrecording
    exact Session.fst_stopRecording_eq_some_iff.mp hrecording

/-- A log that is handed out has the name of a profile of the registry. It is saved if that name is
short enough for the header, and refused for its name if not. -/
theorem Host.Reached.short_names_are_saved {registry : Registry} {h : Host}
    (hr : h.Reached registry) {log : Log} (hlog : h.HandsOut log) :
    (∃ p ∈ registry.profiles, p.name = log.personality) ∧
      ((∃ bs, log.encode = .ok bs) ↔ log.personality.utf8ByteSize ≤ Log.Header.maxNameLength) ∧
      ∀ f, log.encode = .error f → f = .badLog .nameTooLong := by
  obtain ⟨p, hget⟩ := hr.writesKnown log (mode_of_handsOut hlog)
  refine ⟨⟨p, Registry.mem_of_get hget⟩, ?_, fun f hf => ((Log.encode_eq_error_iff log f).mp hf).2⟩
  constructor
  · rintro ⟨bs, hbs⟩
    exact ((Log.encode_eq_ok_iff log bs).mp hbs).1
  · intro hshort
    exact ⟨_, (Log.encode_eq_ok_iff log _).mpr ⟨hshort, rfl⟩⟩

def Script.decideOnce : Script Bool := .operate (.maybe ⟨1⟩ true)

theorem Host.Reached.short_names_are_saved_playful :
    ∃ (h : Host) (log : Log) (bs : List UInt8), h.Reached Registry.builtin ∧ h.HandsOut log ∧
      log.size = 1 ∧ log.encode = .ok bs := by
  obtain ⟨h₀, hcreate⟩ : ∃ h₀, Host.create { Settings.standard with record := true }
      Registry.builtin 7 Clock.zero = .ok h₀ := ⟨_, rfl⟩
  have hr := (Reached.create hcreate).run Script.decideOnce
  obtain ⟨log, hlog, hsize, hshort⟩ :
      ∃ log, (Script.decideOnce.program.play h₀).2.session.stopRecording.1 = some log ∧
        log.size = 1 ∧ log.personality.utf8ByteSize ≤ Log.Header.maxNameLength := by
    cases hcreate
    exact ⟨_, rfl, by decide +kernel, by decide +kernel⟩
  have hout : Host.HandsOut (Script.decideOnce.program.play h₀).2 log := by
    left
    rw [Program.fst_play_stopRecording, hlog]
  obtain ⟨-, hsaved, -⟩ := hr.short_names_are_saved hout
  obtain ⟨bs, hbs⟩ := hsaved.mpr hshort
  exact ⟨_, log, bs, hr, hout, hsize, hbs⟩

/-! ## Long names -/

/-- Under each personality of a registry a host begins a log that it hands out. -/
theorem Host.exists_handsOut {registry : Registry} {name : String} {p : Profile Binary64}
    (hget : registry.get name = .ok p) :
    ∃ (h : Host) (log : Log), h.Reached registry ∧ h.HandsOut log ∧ log.personality = p.name := by
  let settings : Settings := { Settings.standard with personality := name, record := true }
  obtain ⟨s, hcreate, hlog⟩ : ∃ s, Session.create settings registry 7 = .ok s ∧
      ∃ log, s.stopRecording.1 = some log ∧ log.personality = p.name := by
    rw [Session.create_eq]
    dsimp only [settings]
    rw [hget]
    exact ⟨_, rfl, _, rfl, rfl⟩
  obtain ⟨log, hstop, hname⟩ := hlog
  have hhost : Host.create settings registry 7 Clock.zero =
      .ok { ofSession s Clock.zero with journal := openingEvents settings .sessionStarted } := by
    unfold Host.create
    rw [hcreate]
    rfl
  refine ⟨_, log, .create hhost, .inl ?_, hname⟩
  rw [Program.fst_play_stopRecording, ← hstop]
  rfl

/-- Whatever profile gets in under a long name, there are recordings under it that are not saved. -/
theorem Registry.exists_not_saved {r r' : Registry} {p : Profile Binary64}
    (h : r.register p = .ok r') (hlong : Log.Header.maxNameLength < p.name.utf8ByteSize) :
    ∃ (h : Host) (log : Log), h.Reached r' ∧ h.HandsOut log ∧
      log.encode = .error (.badLog .nameTooLong) := by
  obtain ⟨h, log, hr, hout, hname⟩ := Host.exists_handsOut (get_of_register h)
  rw [← hname] at hlong
  exact ⟨h, log, hr, hout, (Log.encode_eq_error_iff log _).mpr ⟨hlong, rfl⟩⟩

def Text.letters (n : Nat) : String := String.ofList (List.replicate n 'n')

theorem Text.utf8ByteSize_letters (n : Nat) : (letters n).utf8ByteSize = n := by
  induction n with
  | zero => rfl
  | succ n ih =>
    unfold letters at ih ⊢
    rw [List.replicate_succ, String.ofList_cons, String.utf8ByteSize_append, ih,
      String.utf8ByteSize_singleton]
    exact Nat.add_comm 1 n

theorem Text.isBlankText_letters (n : Nat) : isBlankText (letters (n + 1)) = false := by
  have hletter : isBlank 'n' = false := by decide
  simp [isBlankText, letters, hletter]

/-- The profile of the reliable personality under a name that no header can carry. -/
def Profile.longNamed : Profile Binary64 :=
  { Personality.reliable.profile with name := Text.letters 256 }

theorem Profile.sound_longNamed : Profile.longNamed.Sound :=
  Personality.reliable.sound_profile.rename (Text.isBlankText_letters 255)

theorem Profile.maxNameLength_lt_longNamed :
    Log.Header.maxNameLength < Profile.longNamed.name.utf8ByteSize := by
  show 255 < (Text.letters 256).utf8ByteSize
  rw [Text.utf8ByteSize_letters]
  decide

theorem Registry.find?_longNamed : Registry.builtin.find? Profile.longNamed.name = none := by
  have hshort : ∀ p ∈ Registry.builtin.profiles,
      p.name.utf8ByteSize ≤ Log.Header.maxNameLength := by decide +kernel
  refine List.find?_eq_none.mpr fun p hp hname => ?_
  have hlong := Profile.maxNameLength_lt_longNamed
  rw [← eq_of_beq hname] at hlong
  exact absurd (hshort p hp) (Nat.not_le.mpr hlong)

theorem Registry.register_longNamed :
    Registry.builtin.register Profile.longNamed =
      .ok ⟨Profile.longNamed :: Registry.builtin.profiles⟩ :=
  register_eq_ok Profile.sound_longNamed find?_longNamed

theorem Registry.long_name_is_not_saved :
    ∃ (registry : Registry) (h : Host) (log : Log),
      Registry.builtin.register Profile.longNamed = .ok registry ∧ registry.Built ∧
        h.Reached registry ∧ h.HandsOut log ∧ log.encode = .error (.badLog .nameTooLong) := by
  obtain ⟨h, log, hr, hout, hencode⟩ :=
    Registry.exists_not_saved Registry.register_longNamed Profile.maxNameLength_lt_longNamed
  exact ⟨_, h, log, Registry.register_longNamed, Registry.Built.builtin.register
    Registry.register_longNamed, hr, hout, hencode⟩

end Fickle

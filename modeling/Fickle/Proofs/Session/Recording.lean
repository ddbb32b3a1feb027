import Fickle.Proofs.Session.Beginning

/-! # Recordings are well formed

Whatever has been done with a session, its profile is the one that its registry has under that
name, and a log that it writes tells what it has decided since its run began. Such a log can be
read back from its bytes.
-/

namespace Fickle

/-! ## What a session keeps to -/

namespace Session

/-- The session writes the log, from the first decision of its run on. -/
structure Keeps (log : Log) (s : Session) : Prop where
  records : s.Records log
  yields : ∀ d ∈ log.decisions, d.construct.Yields d.outcome
  seed : log.seed = s.seed
  autoSeeded : log.autoSeeded = s.autoSeeded

/-- What holds of a session with the registry at any time. -/
structure Coherent (r : Registry) (s : Session) : Prop extends s.Registered r where
  decisions : s.tally.decisions = s.next
  keeps : ∀ log, s.mode = .recording log → s.Keeps log

variable {registry : Registry} {s t : Session}

theorem Coherent.sound (h : s.Coherent registry) (hsound : ∀ p ∈ registry.profiles, p.Sound) :
    s.profile.Sound :=
  hsound _ (Registry.mem_of_get h.profile).1

/-- A change of what a session decides under, but not of what it has decided. -/
theorem Coherent.adjust (h : s.Coherent registry) (hsound : ∀ p ∈ registry.profiles, p.Sound)
    (hregistered : t.Registered registry) (hnext : t.next = s.next)
    (hdecisions : t.tally.decisions = s.tally.decisions) (hmode : t.mode = s.mode)
    (hseed : t.seed = s.seed) (hautoSeeded : t.autoSeeded = s.autoSeeded) :
    t.Coherent registry := by
  refine ⟨hregistered, by rw [hdecisions, hnext, h.decisions], ?_⟩
  intro log hlog
  obtain ⟨hrecords, hyields, hlogSeed, hlogFlag⟩ := h.keeps log (hmode.symm.trans hlog)
  refine ⟨⟨hlog, hnext.trans hrecords.next, ?_, ?_, hrecords.storable, hrecords.numbered⟩,
    hyields, hlogSeed.trans hseed.symm, hlogFlag.trans hautoSeeded.symm⟩
  · exact hsound _ (Registry.mem_of_get hregistered.profile).1
  · rw [hregistered.registry]
    exact hsound

theorem coherent_opened (hsound : ∀ p ∈ registry.profiles, p.Sound) {profile : Profile Binary64}
    (hprofile : registry.get profile.name = .ok profile) (chaos : ChaosLevel)
    (drift : DriftModel Binary64) (seed : UInt64) (autoSeeded record : Bool) :
    (opened registry profile chaos drift seed autoSeeded record).Coherent registry := by
  refine ⟨⟨rfl, hprofile⟩, rfl, ?_⟩
  intro log hmode
  cases record with
  | false => cases hmode
  | true =>
    cases hmode
    exact ⟨⟨rfl, rfl, hsound _ (Registry.mem_of_get hprofile).1, hsound, nofun, rfl⟩, nofun, rfl,
      rfl⟩

theorem Coherent.afresh (h : s.Coherent registry) (hsound : ∀ p ∈ registry.profiles, p.Sound)
    (seed : UInt64) (autoSeeded record : Bool) :
    (s.afresh seed autoSeeded record).Coherent registry := by
  obtain ⟨⟨rfl, hprofile⟩, -, -⟩ := h
  exact coherent_opened hsound hprofile s.chaos s.drift seed autoSeeded record

/-- A session that writes no log is coherent as soon as its counters agree. -/
theorem Registered.coherent (h : s.Registered registry) (hdecisions : s.tally.decisions = s.next)
    (hmode : s.isRecording = false) : s.Coherent registry := by
  refine ⟨h, hdecisions, ?_⟩
  intro log hlog
  unfold isRecording at hmode
  rw [hlog] at hmode
  cases hmode

theorem coherent_of_create (hsound : ∀ p ∈ registry.profiles, p.Sound) {settings : Settings}
    {drawn : UInt64} (h : create settings registry drawn = .ok s) : s.Coherent registry := by
  obtain ⟨profile, chaos, hget, -, rfl⟩ := of_create_eq_opened h
  exact coherent_opened hsound (Registry.get_name hget) _ _ _ _ _

theorem coherent_of_replay (hsound : ∀ p ∈ registry.profiles, p.Sound) {log : Log}
    (h : replay log registry = .ok s) : s.Coherent registry := by
  have hregistered := registered_of_replay h
  obtain ⟨t, hcreate, h⟩ := bind_eq_ok_iff.mp h
  cases h
  exact hregistered.coherent (coherent_of_create hsound hcreate).decisions rfl

/-! ## Moves -/

theorem exists_log_of_book {log : Log} {d : Decision} {l : Luck}
    (h : (s.book d l).mode = .recording log) : ∃ log₀, s.mode = .recording log₀ := by
  unfold book at h
  rcases hmode : s.mode with _ | log₀ | cursor
  · rw [hmode] at h
    cases h
  · exact ⟨log₀, rfl⟩
  · rw [hmode] at h
    cases h

theorem Coherent.evaluate (h : s.Coherent registry) {c : Construct} {site : Site}
    {args : Args Binary64} {o : Outcome Binary64} (heval : s.evaluate c site args = .ok (o, t)) :
    t.Coherent registry := by
  have hbooked := Booked.of_evaluate_eq_ok heval
  refine ⟨h.congr hbooked.registry hbooked.profile, ?_, ?_⟩
  · rw [hbooked.decisions, hbooked.next, h.decisions]
  intro log hmode
  -- Only a run that is drawn can write a log: a replay goes on replaying.
  rcases hreplaying : s.isReplaying
  · obtain ⟨hcheck, rfl, rfl⟩ := of_evaluate_eq_ok_of_not_replaying hreplaying heval
    obtain ⟨log₀, hs⟩ := exists_log_of_book hmode
    have hkeeps := h.keeps log₀ hs
    have hrecords := hkeeps.records.book hcheck site (sample c args (s.setting c) s.stream).2
      s.stream (luck c args (sample c args (s.setting c) s.stream).1 s.profile)
    have hlog := hrecords.mode.symm.trans hmode
    cases hlog
    refine ⟨hrecords, ?_, hkeeps.seed, hkeeps.autoSeeded⟩
    intro d hd
    rcases Log.mem_extend.mp hd with hd | hd
    · exact hkeeps.yields d hd
    · rw [List.mem_singleton.mp hd]
      exact yields_sample hcheck _ _
  · obtain ⟨log', k, hcursor⟩ := exists_cursor hreplaying
    obtain ⟨d, -, -, rfl⟩ := of_evaluate_eq_ok_of_replaying hcursor heval
    cases hmode

theorem Coherent.accept (h : s.Coherent registry) (hsound : ∀ p ∈ registry.profiles, p.Sound)
    {m : Move} (hmove : s.accept m = .ok t) : t.Coherent registry := by
  have hregistered := h.toRegistered.accept hmove
  cases accepts_of_accept hmove with
  | decides heval => exact h.evaluate heval
  | fallsBack | setsProfile _ | setsChaos _ | stays _ =>
    exact h.adjust hsound hregistered rfl rfl rfl rfl rfl
  | reseeds _ _ | records => exact h.afresh hsound _ _ _
  | restarts hcreate =>
    rw [h.registry] at hcreate
    exact coherent_of_create hsound hcreate
  | rewinds seed hreplaying =>
    obtain ⟨log, k, hmode⟩ := exists_cursor hreplaying
    have hrecording : (s.rewind seed false).isRecording = false := by
      unfold isRecording rewind
      rw [hmode]
    exact hregistered.coherent rfl hrecording
  | goesLive _ => exact hregistered.coherent h.decisions rfl

end Session

theorem Host.Reached.coherent {registry : Registry} (hsound : ∀ p ∈ registry.profiles, p.Sound)
    {h : Host} (hr : h.Reached registry) : h.session.Coherent registry :=
  hr.induct (fun _ _ _ => Session.coherent_of_create hsound)
    (fun _ _ => Session.coherent_of_replay hsound)
    fun _ _ _ hmove hcoherent => hcoherent.accept hsound hmove

/-! ## Logs -/

/-- The log tells what the session that writes it has decided. -/
structure Log.Faithful (log : Log) (s : Session) : Prop where
  size : log.size = s.next
  decisions : s.tally.decisions = s.next
  seq : ∀ i d, log.decisions[i]? = some d → d.seq = UInt64.ofNat i
  within : ∀ d ∈ log.decisions, Scalar.within 0.0 1.0 d.probability = true
  isNaN : ∀ d ∈ log.decisions, d.probability.isNaN = false
  yields : ∀ d ∈ log.decisions, d.construct.Yields d.outcome
  seed : log.seed = s.seed
  autoSeeded : log.autoSeeded = s.autoSeeded

/-- The log meets what is asked of a log when it is read. -/
structure Log.Decodable (log : Log) : Prop where
  storable : ∀ d ∈ log.decisions, d.Storable
  ascending : log.Fits → log.decisions.toList.Pairwise fun a b => a.seq < b.seq
  decode : log.Fits → ∀ bs, log.encode = .ok bs → Log.decode bs = .ok log

namespace Session

variable {log : Log} {s : Session} {registry : Registry}

theorem Records.seq (h : s.Records log) {i : Nat} {d : Decision}
    (hd : log.decisions[i]? = some d) : d.seq = UInt64.ofNat i := by
  have hseq : (log.decisions.toList.map Decision.seq)[i]? = some d.seq := by
    rw [List.getElem?_map, Array.getElem?_toList, hd]
    rfl
  have hlt : i < log.size := (Array.getElem?_eq_some_iff.mp hd).1
  rw [h.numbered, List.getElem?_map, List.getElem?_range hlt] at hseq
  exact (Option.some.inj hseq).symm

theorem Records.decodable (h : s.Records log) : log.Decodable where
  storable := h.storable
  ascending := h.ascending
  decode hfits bs hencode := by
    obtain ⟨hname, rfl⟩ := (Log.encode_eq_ok_iff log bs).mp hencode
    exact Log.decode_sealed (h.readable hname hfits) (Log.hasUnknown_flags log)
      (Log.isAutoSeeded_flags log)

theorem Coherent.faithful (h : s.Coherent registry) (hmode : s.mode = .recording log) :
    log.Faithful s := by
  have hkeeps := h.keeps log hmode
  have hrecords := hkeeps.records
  have hwithin (d : Decision) (hd : d ∈ log.decisions) := (hrecords.storable d hd).probability
  exact ⟨hrecords.next.symm, h.decisions, fun i d => hrecords.seq, hwithin,
    fun d hd => Binary64.isNaN_eq_false_of_within (hwithin d hd), hkeeps.yields, hkeeps.seed,
    hkeeps.autoSeeded⟩

theorem fst_stopRecording_eq_some_iff :
    s.stopRecording.1 = some log ↔ s.mode = .recording log := by
  unfold stopRecording
  rcases s.mode with _ | log' | cursor
  · simp
  · simp
  · simp

theorem recording_summary (s : Session) : s.summary.recording = s.stopRecording.1 := by
  unfold summary stopRecording
  rcases s.mode with _ | log | cursor
  · rfl
  · rfl
  · rfl

end Session

/-- On a host with a registry that profiles have been registered with, the profile in use is a
valid one of the registry, and a log that is written is faithful at any time. A log that is handed
out can be read back from its bytes. -/
theorem Host.Reached.recording_wellFormed {registry : Registry} (hbuilt : registry.Built)
    {h : Host} (hr : h.Reached registry) :
    h.session.registry = registry ∧
      registry.get h.session.profile.name = .ok h.session.profile ∧
      h.session.profile.validate = .ok () ∧
      (∀ log, h.session.mode = .recording log → log.Faithful h.session) ∧
      (∀ log, (Program.stopRecording.play h).1 = .ok (some log) → log.Decodable) ∧
      ∀ summary log, (Program.teardown.play h).1 = .ok summary → summary.recording = some log →
        log.Decodable := by
  have hcoherent := hr.coherent hbuilt.sound
  -- The log that is handed out is the one that is being written, so the invariant speaks of it.
  have hdecodable (log : Log) (hlog : h.session.stopRecording.1 = some log) : log.Decodable :=
    (hcoherent.keeps log (Session.fst_stopRecording_eq_some_iff.mp hlog)).records.decodable
  have hvalid : h.session.profile.validate = .ok () := by
    have hsound := hbuilt.sound _ (Registry.mem_of_get hcoherent.profile).1
    unfold Profile.validate
    rw [hsound]
  refine ⟨hcoherent.registry, hcoherent.profile, hvalid, fun log => hcoherent.faithful, ?_, ?_⟩
  · intro log hstop
    rw [Program.fst_play_stopRecording] at hstop
    exact hdecodable log (Except.ok.inj hstop)
  · intro summary log hsummary hlog
    cases hsummary
    rw [Session.recording_summary] at hlog
    exact hdecodable log hlog

/-- Decides once, starts the stream again, and decides once more. -/
def Script.reseedBetween : Script Bool :=
  .attempt (.operate (.maybe ⟨1⟩ true)) fun _ =>
    .attempt (.reseed 9) fun _ => .operate (.sometimes ⟨2⟩ false)

/-- After a new seed the log begins again, and it tells the one decision since then. -/
theorem Host.Reached.recording_wellFormed_reseedBetween :
    Registry.builtin.Built ∧ ∃ h : Host, h.Reached Registry.builtin ∧
      ∃ log, h.session.mode = .recording log ∧ log.Faithful h.session ∧ log.Decodable ∧
        log.size = 1 ∧ log.seed = 9 := by
  obtain ⟨h₀, hcreate⟩ : ∃ h₀, Host.create { Settings.standard with record := true }
      Registry.builtin 7 Clock.zero = .ok h₀ := ⟨_, rfl⟩
  have hr := (Reached.create hcreate).run Script.reseedBetween
  obtain ⟨hrecording, hnext, hseed⟩ :
      (Script.reseedBetween.program.play h₀).2.session.isRecording = true ∧
        (Script.reseedBetween.program.play h₀).2.session.next = 1 ∧
        (Script.reseedBetween.program.play h₀).2.session.seed = 9 := by
    cases hcreate
    decide +kernel
  obtain ⟨log, hmode⟩ := Session.exists_log hrecording
  obtain ⟨-, -, -, hfaithful, hstop, -⟩ := hr.recording_wellFormed .builtin
  have hlog : (Program.stopRecording.play (Script.reseedBetween.program.play h₀).2).1 =
      .ok (some log) := by
    rw [Program.fst_play_stopRecording, Session.fst_stopRecording_eq_some_iff.mpr hmode]
  have hwritten := hfaithful log hmode
  exact ⟨.builtin, _, hr, log, hmode, hwritten, hstop log hlog, hwritten.size.trans hnext,
    hwritten.seed.trans hseed⟩

end Fickle

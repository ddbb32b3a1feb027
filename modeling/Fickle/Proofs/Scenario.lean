import Fickle.Proofs.Scenario.Mixed
import Fickle.Proofs.Session.Beginning

/-! # Scenarios raise no false alarm

The recorded run of a scenario, its rerun, its log that is saved and loaded, and its replay all
agree, so that the check of the scenario finds nothing.
-/

namespace Fickle

theorem Registry.get_builtin (p : Personality) :
    builtin.get p.name = .ok (p.profile : Profile Binary64) := by
  cases p <;> rfl

theorem Personality.name_fits (p : Personality) :
    (p.profile : Profile Binary64).name.utf8ByteSize ≤ Log.Header.maxNameLength := by
  cases p <;> decide

theorem ChaosLevel.exists_ofNat_eq_ok {level : UInt8} (hlevel : 1 ≤ level ∧ level ≤ 10) :
    ∃ chaos, ofNat level = .ok chaos :=
  ⟨⟨level, hlevel.1, hlevel.2⟩, (ofNat_eq_ok_iff _ _).mpr rfl⟩

theorem Program.run_eq_play {β : Type} (p : Program β) (h : Host) : p.run h = p.play h := rfl

namespace Scenario

variable {s : Scenario} {p : Personality} {outcomes : List (Outcome Binary64)} {tally : Tally}
  {log : Log}

/-- The session that each of the live runs begins with. -/
def opened (s : Scenario) (p : Personality) (chaos : ChaosLevel) : Session :=
  Session.opened Registry.builtin p.profile chaos DriftModel.standard s.seed false false

theorem host_eq (hpersonality : s.personality = p.name) {chaos : ChaosLevel}
    (hchaos : ChaosLevel.ofNat s.chaosLevel = .ok chaos) (clock : Clock) :
    s.host clock = .ok (Host.ofSession (s.opened p chaos) clock) := by
  unfold host
  rw [Session.create_eq]
  have hget : Registry.builtin.get (Settings.seeded s.personality s.chaosLevel s.seed).personality =
      .ok p.profile := by
    rw [← Registry.get_builtin p, ← hpersonality]
    rfl
  have hlevel : (Settings.seeded s.personality s.chaosLevel s.seed).chaos = .ok chaos := hchaos
  rw [hget, hlevel]
  rfl

/-- What has to agree with the recorded run does: a rerun on a fresh session, the log after a trip
through its bytes, and the replay of the log, whatever the clock reads. -/
structure Agrees (s : Scenario) (outcomes : List (Outcome Binary64)) (tally : Tally) (log : Log) :
    Prop where
  record : s.recordRun = .ok (outcomes, tally, log)
  decisions : tally.decisions = s.calls
  unfavorable : tally.unfavorable ≤ s.calls
  size : log.size = s.calls
  probabilities : ∀ d ∈ log.decisions, Scalar.within 0.0 1.0 d.probability = true
  rerun : ∃ h, s.host Clock.zero = .ok h ∧ ((Mixed.run s.calls).play h).1 = .ok outcomes
  load : log.encode >>= Log.decode = .ok log
  replay : ∃ t, Session.replay log Registry.builtin = .ok t ∧ ∀ clock,
    ((Mixed.run s.calls).play (Host.ofSession t clock)).1 = .ok outcomes ∧
      (Program.finishReplay.play ((Mixed.run s.calls).play (Host.ofSession t clock)).2).1 = .ok ()

theorem play_recorded {h h₁ : Host} (hstart : Program.startRecording.play h = (.ok (), h₁))
    (hrun : ((Mixed.run s.calls).play h₁).1 = .ok outcomes)
    (hrec : ((Mixed.run s.calls).play h₁).2.session.Records log) :
    (s.recorded.play h).1 =
      .ok (outcomes, ((Mixed.run s.calls).play h₁).2.session.tally, some log) := by
  have hfirst : (Program.startRecording.play h).1 = .ok () := by rw [hstart]
  rw [recorded, Program.play_bind_of_ok hfirst, hstart, Program.play_bind_of_ok hrun,
    Program.play_bind, Program.play_session]
  dsimp only
  rw [Program.play_bind_of_ok hrec.fst_play_stopRecording]
  rfl

theorem recordRun_eq {h : Host} (hhost : s.host Clock.zero = .ok h)
    (hplay : (s.recorded.play h).1 = .ok (outcomes, tally, some log)) :
    s.recordRun = .ok (outcomes, tally, log) := by
  have hrun : (s.recorded.run h).1 = .ok (outcomes, tally, some log) := hplay
  unfold recordRun
  rw [hhost]
  show (s.recorded.run h).1 >>= _ = _
  rw [hrun]
  rfl

theorem exists_agrees (hpersonality : s.personality = p.name)
    (hlevel : 1 ≤ s.chaosLevel ∧ s.chaosLevel ≤ 10)
    (hmemory : s.calls * Log.recordSize < 2 ^ 64) :
    ∃ outcomes tally log, s.Agrees outcomes tally log := by
  obtain ⟨chaos, hchaos⟩ := ChaosLevel.exists_ofNat_eq_ok hlevel
  have hcalls : s.calls ≤ 2 ^ 64 := by
    unfold Log.recordSize at hmemory
    omega
  have hhost := host_eq hpersonality hchaos
  have hregistry := Registry.Built.builtin.sound
  -- The run is recorded on one host, and made again on the host as it was before.
  let t := s.opened p chaos
  let h₁ : Host := { Host.ofSession t Clock.zero with
    session := t.recorder, journal := [.recordingStarted] }
  have hstart : Program.startRecording.play (Host.ofSession t Clock.zero) = (.ok (), h₁) := by
    have hlive : (Host.ofSession t Clock.zero).session.isReplaying = false := rfl
    rw [Program.play_startRecording, Session.startRecording_eq hlive]
    rfl
  have hbeside : h₁.Beside (Host.ofSession t Clock.zero) := ⟨rfl, rfl, rfl⟩
  have hrecords : h₁.session.Records t.freshLog :=
    Session.records_recorder p.sound_profile hregistry
  obtain ⟨ds, hrec, -, hecho⟩ := Mixed.echoes_run s.calls h₁ t.freshLog hrecords
  obtain ⟨outcomes, hrun, -, hmade⟩ := Mixed.makes_run hcalls h₁ rfl
  have hrerun := (Mixed.inStep_run s.calls h₁ _ hbeside).1
  have hsize : (t.freshLog.extend ds).size = s.calls := by
    rw [← hrec.next, hmade.next]
    exact Nat.zero_add _
  have hfits : (t.freshLog.extend ds).Fits := by
    unfold Log.Fits
    rw [hsize]
    exact hmemory
  have hget : Registry.builtin.get (t.freshLog.extend ds).personality = .ok p.profile :=
    Registry.get_name (Registry.get_builtin p)
  exact ⟨outcomes, _, _, {
    record := recordRun_eq (hhost _) (play_recorded hstart hrun hrec)
    decisions := hmade.decisions.trans (Nat.zero_add _)
    unfavorable := Nat.le_trans hmade.unfavorable (Nat.le_of_eq (Nat.zero_add _))
    size := hsize
    probabilities := fun d hd => (hrec.storable d hd).probability
    rerun := ⟨_, hhost _, hrerun.trans hrun⟩
    load := Log.encode_bind_decode (hrec.readable p.name_fits hfits)
    replay := by
      refine ⟨_, Session.replay_eq hget, fun clock => ?_⟩
      obtain ⟨hres, -, hrest⟩ := hecho (Host.ofSession _ clock) []
        ⟨t.alike_reader ds DriftModel.standard, rfl⟩ (t.expects_reader ds DriftModel.standard)
      exact ⟨hres.trans hrun, hrest.fst_play_finishReplay⟩ }⟩

/-! ## The check -/

theorem sameOutcomes_iff (as bs : List (Outcome Binary64)) :
    sameOutcomes as bs = true ↔ as = bs := by
  induction as generalizing bs with
  | nil => cases bs <;> simp [sameOutcomes]
  | cons a as ih => cases bs <;> simp [sameOutcomes, ih, Outcome.bitEq_iff]

theorem check_ok {β : Type} (b : β) : check (.ok b) = pure b := rfl

theorem require_true {well : Bool} (h : well = true) (what : String) :
    require well what = pure () := by
  rw [h]
  rfl

/-- A loop that comes upon nothing that is amiss notes nothing. -/
theorem forIn_require {ds : Array Decision} {well : Decision → Bool}
    (h : ∀ d ∈ ds, well d = true) (what : Decision → String) :
    (forIn ds PUnit.unit fun d _ => do
      require (well d) (what d)
      pure (.yield PUnit.unit) : Check PUnit) = pure PUnit.unit := by
  have hlist : ∀ d ∈ ds.toList, well d = true := fun d hd => h d (Array.mem_toList_iff.mp hd)
  rw [← Array.forIn_toList]
  generalize ds.toList = ds at hlist ⊢
  induction ds with
  | nil => rfl
  | cons d ds ih =>
    obtain ⟨hd, hds⟩ := List.forall_mem_cons.mp hlist
    rw [List.forIn_cons, require_true hd, pure_bind, pure_bind]
    exact ih hds

/-- Where all agrees the check goes through to its end and notes nothing. -/
theorem Agrees.checks_eq (h : s.Agrees outcomes tally log) :
    s.checks = pure (tally.decisions, tally.unfavorable) := by
  have hsize : (log.size == tally.decisions) = true := by
    rw [h.size, h.decisions]
    exact beq_self_eq_true _
  have hsame : sameOutcomes outcomes outcomes = true := (sameOutcomes_iff _ _).mpr rfl
  obtain ⟨host, hhost, hrerun⟩ := h.rerun
  obtain ⟨t, ht, hreplay⟩ := h.replay
  obtain ⟨hreplayed, hfinish⟩ := hreplay ⟨Duration.ofSecs 3600⟩
  unfold checks
  rw [h.record, check_ok, pure_bind]
  dsimp only
  rw [require_true hsize, pure_bind, forIn_require h.probabilities, pure_bind, hhost, check_ok,
    pure_bind, Program.run_eq_play, hrerun, check_ok, pure_bind, require_true hsame, pure_bind,
    h.load, check_ok, pure_bind, require_true ((Log.bitEq_iff log log).mpr rfl), pure_bind, ht,
    check_ok, pure_bind, Program.run_eq_play]
  rcases hplay : (Mixed.run s.calls).play (Host.ofSession t ⟨Duration.ofSecs 3600⟩) with ⟨r, later⟩
  rw [hplay] at hreplayed hfinish
  cases hreplayed
  dsimp only at hfinish ⊢
  rw [check_ok, pure_bind, require_true hsame, pure_bind, Program.run_eq_play, hfinish]

theorem Agrees.run_eq (h : s.Agrees outcomes tally log) :
    s.run = ⟨s, tally.decisions, tally.unfavorable, []⟩ := by
  unfold run
  rw [h.checks_eq]
  rfl

/-- A scenario of a built-in personality passes at every chaos level, with every seed and at every
length: its runs agree, and it reports what was counted in them and nothing else. Its log has to be
one whose bytes can be counted, as they can for any log that is held in memory. -/
theorem run_raises_no_alarm (hpersonality : s.personality = p.name)
    (hlevel : 1 ≤ s.chaosLevel ∧ s.chaosLevel ≤ 10)
    (hmemory : s.calls * Log.recordSize < 2 ^ 64) :
    s.run.passed = true ∧ s.run.violations = [] ∧ s.run.decisions = s.calls ∧
      s.run.unfavorable ≤ s.calls ∧ (∀ i < s.calls, Mixed.Exact i) ∧
      ∃ outcomes tally log, s.Agrees outcomes tally log ∧
        s.run = ⟨s, tally.decisions, tally.unfavorable, []⟩ := by
  obtain ⟨outcomes, tally, log, h⟩ := exists_agrees hpersonality hlevel hmemory
  have hexact : ∀ i < s.calls, Mixed.Exact i := by
    intro i hi
    unfold Log.recordSize at hmemory
    exact Mixed.exact_of_lt (by omega)
  rw [h.run_eq]
  exact ⟨rfl, rfl, h.decisions, h.unfavorable, hexact, outcomes, tally, log, h, rfl⟩

theorem run_raises_no_alarm_playful :
    (Scenario.mk "playful_chaos_10" "playful" 10 10007 60).run.passed = true ∧
      (Scenario.mk "playful_chaos_10" "playful" 10 10007 60).run.decisions = 60 := by
  obtain ⟨hpassed, -, hdecisions, -⟩ := run_raises_no_alarm (p := .playful)
    (s := ⟨"playful_chaos_10", "playful", 10, 10007, 60⟩) rfl (by decide) (by decide)
  exact ⟨hpassed, hdecisions⟩

end Scenario

end Fickle

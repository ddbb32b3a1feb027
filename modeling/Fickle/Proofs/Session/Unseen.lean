import Fickle.Proofs.Session.Evaluate

/-! # Reads of drifting variables go unseen

A read of a drifting variable draws nothing and counts for nothing, and a call whose arguments are
refused does nothing at all. Such calls may come and go without any trace but in the numbers of the
decisions, and what a read gives depends on nothing that has been decided before it.
-/

namespace Fickle

/-! ## Without numbers -/

/-- The log without its reads of drifting variables, and without numbers. -/
def Log.bare (l : Log) : Log :=
  { l with
    decisions := (l.decisions.filter fun d => d.construct ≠ .timeDrift).map fun d =>
      { d with seq := 0 } }

def Mode.bare : Mode → Mode
  | .live => .live
  | .recording log => .recording log.bare
  | .replaying cursor => .replaying cursor

/-- The session without the number of its decisions, of its neutral ones, and in its log. -/
def Session.bare (s : Session) : Session :=
  { s with next := 0, mode := s.mode.bare, tally := { s.tally with decisions := 0, neutral := 0 } }

theorem Log.bare_bare (l : Log) : l.bare.bare = l.bare := by
  unfold bare
  congr 1
  apply Array.ext'
  simp [List.filter_map, Function.comp_def]

theorem Log.bare_push (l : Log) (d : Decision) :
    (l.push d).bare =
      if d.construct = .timeDrift then l.bare else l.bare.push { d with seq := 0 } := by
  by_cases h : d.construct = .timeDrift <;> simp [bare, push, h]

theorem Log.bare_push_bare (l : Log) (d : Decision) :
    (l.bare.push { d with seq := 0 }).bare = (l.push d).bare := by
  rw [bare_push, bare_push, bare_bare]

namespace Session

variable {s t : Session}

theorem isReplaying_bare (s : Session) : s.bare.isReplaying = s.isReplaying := by
  unfold isReplaying bare
  rcases s.mode with _ | log | cursor <;> rfl

/-- What a decision leaves is told by what there was without numbers. -/
theorem bare_book (s : Session) (stream : Stream) (d : Decision) (l : Luck) :
    (({ s.bare with stream } : Session).book { d with seq := 0 } l).bare =
      (({ s with stream } : Session).book d l).bare := by
  unfold book bare
  rcases s.mode with _ | log | cursor
  · cases l <;> rfl
  · have hlog := Log.bare_push_bare log d
    cases l <;> simpa [Mode.bare, Tally.record] using hlog
  · cases l <;> rfl

theorem bare_book_of_drift {d : Decision} (h : d.construct = .timeDrift) (s : Session) :
    (s.book d .neutral).bare = s.bare := by
  unfold book bare
  rcases s.mode with _ | log | cursor
  · rfl
  · simp [Mode.bare, Tally.record, Instability.record, Log.bare_push, h]
  · rfl

/-! ## Calls -/

/-- The probability and the outcome of a call, unless it fails. -/
def answer (s : Session) (q : Call) : Except Fault (Binary64 × Outcome Binary64) :=
  (s.evaluate q.construct q.site q.args).map fun r => (s.effective q.construct, r.1)

def after (s : Session) (q : Call) : Session := s.move (.evaluate q.construct q.site q.args)

end Session

/-- The call reads a drifting variable, or its arguments are refused. -/
def Call.Idle (q : Call) : Prop :=
  q.construct = .timeDrift ∨ ∃ f, q.args.check q.construct = .error f

namespace Session

variable {s t : Session} {q : Call}

theorem answer_of_not_replaying (h : s.isReplaying = false) (q : Call) :
    s.answer q = (q.args.check q.construct).map fun _ =>
      (s.effective q.construct, (sample q.construct q.args (s.setting q.construct) s.stream).1) := by
  unfold answer
  rw [evaluate_of_not_replaying h]
  rcases q.args.check q.construct with f | ⟨⟩ <;> rfl

theorem after_of_refused {f : Fault} (hcheck : q.args.check q.construct = .error f) (s : Session) :
    s.after q = s := by
  unfold after Session.move accept
  dsimp only
  rw [evaluate_of_check_eq_error hcheck]
  rfl

theorem after_of_taken (h : s.isReplaying = false) (hcheck : q.args.check q.construct = .ok ()) :
    s.after q =
      let drawn := sample q.construct q.args (s.setting q.construct) s.stream
      ({ s with stream := drawn.2 } : Session).book
        ⟨UInt64.ofNat s.next, q.site, q.construct, s.effective q.construct, drawn.1⟩
        (luck q.construct q.args drawn.1 s.profile) := by
  unfold after Session.move accept
  dsimp only
  rw [evaluate_of_not_replaying h, hcheck]
  rfl

theorem isReplaying_after (h : s.isReplaying = false) (q : Call) :
    (s.after q).isReplaying = false := by
  rcases hcheck : q.args.check q.construct with f | ⟨⟩
  · rw [after_of_refused hcheck, h]
  · rw [after_of_taken h hcheck]
    exact (isReplaying_book _ _ _).trans h

theorem sample_drift (d : DriftSample Binary64) (setting : Setting Binary64) (g : Stream) :
    sample .timeDrift (.drift d) setting g =
      (.float (setting.drift.value (driftStrength setting.profile setting.chaos) d), g) := rfl

theorem exists_drift_of_check {args : Args Binary64} (h : args.check .timeDrift = .ok ()) :
    ∃ d, args = .drift d := by
  cases Args.fit_of_check h with
  | drift d => exact ⟨d, rfl⟩

theorem bare_after_of_idle (h : s.isReplaying = false) (hidle : q.Idle) :
    (s.after q).bare = s.bare := by
  rcases hcheck : q.args.check q.construct with f | ⟨⟩
  · rw [after_of_refused hcheck]
  · rcases hidle with hdrift | ⟨f, hf⟩
    · obtain ⟨c, site, args⟩ := q
      cases hdrift
      obtain ⟨d, rfl⟩ := exists_drift_of_check hcheck
      rw [after_of_taken h hcheck, sample_drift]
      exact bare_book_of_drift rfl s
    · rw [hcheck] at hf
      cases hf

/-- Sessions that are the same without numbers answer a call alike and stay the same. -/
theorem answer_and_bare_after (h : s.isReplaying = false) (hbare : s.bare = t.bare) (q : Call) :
    s.answer q = t.answer q ∧ (s.after q).bare = (t.after q).bare := by
  have ht : t.isReplaying = false := by
    rw [← isReplaying_bare, ← hbare, isReplaying_bare, h]
  have heffective : s.effective q.construct = t.effective q.construct :=
    show s.bare.effective q.construct = t.bare.effective q.construct by rw [hbare]
  have hsetting : s.setting q.construct = t.setting q.construct :=
    show s.bare.setting q.construct = t.bare.setting q.construct by rw [hbare]
  have hstream : s.stream = t.stream := show s.bare.stream = t.bare.stream by rw [hbare]
  have hprofile : s.profile = t.profile := show s.bare.profile = t.bare.profile by rw [hbare]
  constructor
  · rw [answer_of_not_replaying h, answer_of_not_replaying ht, heffective, hsetting, hstream]
  · rcases hcheck : q.args.check q.construct with f | ⟨⟩
    · rw [after_of_refused hcheck, after_of_refused hcheck, hbare]
    · rw [after_of_taken h hcheck, after_of_taken ht hcheck]
      dsimp only
      rw [← bare_book s, ← bare_book t, hbare, heffective, hsetting, hstream, hprofile]

/-! ## Runs -/

/-- Calls one after another, some of them marked: the answers, with the marks of their calls. -/
def transcript (s : Session) :
    List (Call × Bool) → List (Except Fault (Binary64 × Outcome Binary64) × Bool)
  | [] => []
  | (q, marked) :: steps => (s.answer q, marked) :: (s.after q).transcript steps

def afterAll (s : Session) (steps : List (Call × Bool)) : Session :=
  steps.foldl (fun s step => s.after step.1) s

/-- Leaving out idle calls leaves out their answers, and nothing else. -/
theorem unmarked_are_unseen {steps : List (Call × Bool)} (h : s.isReplaying = false)
    (hbare : s.bare = t.bare) (hidle : ∀ step ∈ steps, step.2 = false → step.1.Idle) :
    (s.transcript steps).filter Prod.snd = t.transcript (steps.filter Prod.snd) ∧
      (s.afterAll steps).bare = (t.afterAll (steps.filter Prod.snd)).bare := by
  induction steps generalizing s t with
  | nil => exact ⟨rfl, hbare⟩
  | cons step steps ih =>
    obtain ⟨q, marked⟩ := step
    obtain ⟨hq, hrest⟩ := List.forall_mem_cons.mp hidle
    have hlive := isReplaying_after h q
    -- An unmarked call is idle, and the other session stands still meanwhile.
    cases marked with
    | false => exact ih hlive ((bare_after_of_idle h (hq rfl)).trans hbare) hrest
    | true =>
      obtain ⟨hanswer, hafter⟩ := answer_and_bare_after h hbare q
      obtain ⟨hanswers, hend⟩ := ih hlive hafter hrest
      refine ⟨?_, hend⟩
      simp only [transcript, List.filter_cons_of_pos, hanswer, hanswers]

theorem after_keeps (h : s.isReplaying = false) (q : Call) :
    (s.after q).profile = s.profile ∧ (s.after q).chaos = s.chaos ∧ (s.after q).drift = s.drift := by
  rcases hcheck : q.args.check q.construct with f | ⟨⟩
  · rw [after_of_refused hcheck]
    exact ⟨rfl, rfl, rfl⟩
  · rw [after_of_taken h hcheck]
    exact ⟨rfl, rfl, rfl⟩

theorem afterAll_keeps (h : s.isReplaying = false) (steps : List (Call × Bool)) :
    (s.afterAll steps).isReplaying = false ∧ (s.afterAll steps).profile = s.profile ∧
      (s.afterAll steps).chaos = s.chaos ∧ (s.afterAll steps).drift = s.drift := by
  induction steps generalizing s with
  | nil => exact ⟨h, rfl, rfl, rfl⟩
  | cons step steps ih =>
    obtain ⟨hprofile, hchaos, hdrift⟩ := after_keeps h step.1
    obtain ⟨hlive, hprofiles, hchaoses, hdrifts⟩ := ih (isReplaying_after h step.1)
    exact ⟨hlive, hprofiles.trans hprofile, hchaoses.trans hchaos, hdrifts.trans hdrift⟩

theorem evaluate_drift (h : s.isReplaying = false) (site : Site) (d : DriftSample Binary64) :
    (s.evaluate .timeDrift site (.drift d)).map Prod.fst =
      ((Args.drift d).check .timeDrift).map fun _ =>
        .float (s.drift.value (driftStrength s.profile s.chaos) d) := by
  rw [evaluate_of_not_replaying h]
  rcases (Args.drift d).check .timeDrift with f | ⟨⟩
  · rfl
  · rfl

/-- Two sequences of calls that are the same but for idle ones, the unmarked ones, leave the same
answers to the marked ones and the same session without numbers. A read of a drifting variable
gives what its sample makes of the profile, the chaos level and the drift model, whatever has been
called before it. -/
theorem drift_reads_go_unseen (h : s.isReplaying = false) :
    (∀ steps steps' : List (Call × Bool),
      (∀ step ∈ steps ++ steps', step.2 = false → step.1.Idle) →
      steps.filter Prod.snd = steps'.filter Prod.snd →
        (s.transcript steps).filter Prod.snd = (s.transcript steps').filter Prod.snd ∧
        (s.afterAll steps).stream = (s.afterAll steps').stream ∧
        (s.afterAll steps).instability = (s.afterAll steps').instability ∧
        (s.afterAll steps).bare = (s.afterAll steps').bare) ∧
    ∀ (steps : List (Call × Bool)) (site : Site) (d : DriftSample Binary64),
      ((s.afterAll steps).evaluate .timeDrift site (.drift d)).map Prod.fst =
        ((Args.drift d).check .timeDrift).map fun _ =>
          .float (s.drift.value (driftStrength s.profile s.chaos) d) := by
  constructor
  · intro steps steps' hidle hmarked
    -- Both sequences are set against the same one, of their marked calls.
    obtain ⟨hanswers, hend⟩ := unmarked_are_unseen h rfl fun step hstep =>
      hidle step (List.mem_append_left steps' hstep)
    obtain ⟨hanswers', hend'⟩ := unmarked_are_unseen h rfl fun step hstep =>
      hidle step (List.mem_append_right steps hstep)
    rw [← hmarked] at hanswers' hend'
    have hbare : (s.afterAll steps).bare = (s.afterAll steps').bare := hend.trans hend'.symm
    have hstream : (s.afterAll steps).bare.stream = (s.afterAll steps').bare.stream := by
      rw [hbare]
    have hinstability :
        (s.afterAll steps).bare.instability = (s.afterAll steps').bare.instability := by
      rw [hbare]
    exact ⟨hanswers.trans hanswers'.symm, hstream, hinstability, hbare⟩
  · intro steps site d
    obtain ⟨hlive, hprofile, hchaos, hdrift⟩ := afterAll_keeps h steps
    rw [evaluate_drift hlive, hprofile, hchaos, hdrift]

def firstRead : DriftSample Binary64 := ⟨100.0, .zero, 1, .zero⟩

/-- Two conditions, with a read and a call with refused arguments between them. -/
def conditionsAroundRead : List (Call × Bool) :=
  [(⟨.maybe, ⟨1⟩, .condition true⟩, true), (⟨.timeDrift, ⟨2⟩, .drift firstRead⟩, false),
    (⟨.sometimes, ⟨3⟩, .unit⟩, false), (⟨.maybe, ⟨1⟩, .condition true⟩, true)]

theorem drift_reads_go_unseen_between :
    ∃ s : Session, s.isReplaying = false ∧
      (s.afterAll conditionsAroundRead).next = 3 ∧
      (s.afterAll (conditionsAroundRead.filter Prod.snd)).next = 2 ∧
      (s.transcript conditionsAroundRead).filter Prod.snd =
        (s.transcript (conditionsAroundRead.filter Prod.snd)).filter Prod.snd ∧
      (s.afterAll conditionsAroundRead).stream =
        (s.afterAll (conditionsAroundRead.filter Prod.snd)).stream ∧
      ((s.afterAll conditionsAroundRead).evaluate .timeDrift ⟨2⟩ (.drift firstRead)).map Prod.fst =
        .ok (.float (s.drift.value (driftStrength s.profile s.chaos) firstRead)) := by
  obtain ⟨s, hcreate⟩ : ∃ s, create Settings.standard Registry.builtin 7 = .ok s := ⟨_, rfl⟩
  have hlive : s.isReplaying = false := by
    cases hcreate
    rfl
  obtain ⟨hunseen, hread⟩ := drift_reads_go_unseen hlive
  have hidle : ∀ step ∈ conditionsAroundRead ++ conditionsAroundRead.filter Prod.snd,
      step.2 = false → step.1.Idle := by
    have hrefused : ∃ f, (Args.unit : Args Binary64).check .sometimes = .error f := ⟨_, rfl⟩
    simpa [conditionsAroundRead, Call.Idle] using hrefused
  obtain ⟨hanswers, hstream, -, -⟩ := hunseen conditionsAroundRead _ hidle rfl
  refine ⟨s, hlive, ?_, ?_, hanswers, hstream, ?_⟩
  · cases hcreate
    decide +kernel
  · cases hcreate
    decide +kernel
  · rw [hread]
    rfl

end Session
end Fickle

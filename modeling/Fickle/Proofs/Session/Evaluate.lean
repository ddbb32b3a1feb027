import Fickle.Proofs.Session.Move

/-! # A call fails or is booked

A call with good arguments fails only in a replay, where the log does not go on with it. A call
that fails leaves the session as it was, and every other call is counted once.
-/

namespace Fickle

/-! ## Counting -/

/-- The luck of one more decision is counted. -/
inductive Tally.OneMore (t t' : Tally) : Prop where
  | favorable (h : t'.favorable = t.favorable + 1) (hu : t'.unfavorable = t.unfavorable)
      (hn : t'.neutral = t.neutral)
  | unfavorable (h : t'.unfavorable = t.unfavorable + 1) (hf : t'.favorable = t.favorable)
      (hn : t'.neutral = t.neutral)
  | neutral (h : t'.neutral = t.neutral + 1) (hf : t'.favorable = t.favorable)
      (hu : t'.unfavorable = t.unfavorable)

namespace Tally

theorem oneMore_record (t : Tally) (l : Luck) : t.OneMore (t.record l) := by
  cases l with
  | favorable => exact .favorable rfl rfl rfl
  | unfavorable => exact .unfavorable rfl rfl rfl
  | neutral => exact .neutral rfl rfl rfl

@[simp]
theorem decisions_record (t : Tally) (l : Luck) : (t.record l).decisions = t.decisions + 1 := by
  cases l <;> rfl

@[simp]
theorem fallbacks_record (t : Tally) (l : Luck) : (t.record l).fallbacks = t.fallbacks := by
  cases l <;> rfl

end Tally

namespace Session

/-- `t` comes of `s` by one decision: it is counted, and what no decision changes is the same. -/
structure Booked (s t : Session) : Prop where
  next : t.next = s.next + 1
  decisions : t.tally.decisions = s.tally.decisions + 1
  luck : s.tally.OneMore t.tally
  fallbacks : t.tally.fallbacks = s.tally.fallbacks
  registry : t.registry = s.registry
  profile : t.profile = s.profile
  chaos : t.chaos = s.chaos
  seed : t.seed = s.seed
  autoSeeded : t.autoSeeded = s.autoSeeded
  drift : t.drift = s.drift

theorem booked_book (s : Session) (stream : Stream) (mode : Mode) (d : Decision) (l : Luck) :
    s.Booked (({ s with stream, mode } : Session).book d l) where
  next := rfl
  decisions := Tally.decisions_record _ l
  luck := Tally.oneMore_record _ l
  fallbacks := Tally.fallbacks_record _ l
  registry := rfl
  profile := rfl
  chaos := rfl
  seed := rfl
  autoSeeded := rfl
  drift := rfl

/-! ## One call -/

variable {s t : Session} {log : Log} {k : Nat} {c : Construct} {site : Site} {args : Args Binary64}
  {o : Outcome Binary64} {f : Fault}

theorem evaluate_eq_error_iff_of_not_replaying (h : s.isReplaying = false) :
    s.evaluate c site args = .error f ↔ args.check c = .error f := by
  rw [evaluate_of_not_replaying h]
  rcases args.check c with f' | ⟨⟩
  · simp only [Except.error.injEq]
  · simp

theorem of_evaluate_eq_ok_of_not_replaying (h : s.isReplaying = false)
    (heval : s.evaluate c site args = .ok (o, t)) :
    args.check c = .ok () ∧ o = (sample c args (s.setting c) s.stream).1 ∧
      t = ({ s with stream := (sample c args (s.setting c) s.stream).2 } : Session).book
        ⟨UInt64.ofNat s.next, site, c, s.effective c, o⟩ (luck c args o s.profile) := by
  rw [evaluate_of_not_replaying h] at heval
  rcases hcheck : args.check c with f | ⟨⟩
  · rw [hcheck] at heval
    cases heval
  · rw [hcheck] at heval
    cases heval
    exact ⟨rfl, rfl, rfl⟩

theorem of_evaluate_eq_ok_of_replaying (h : s.mode = .replaying ⟨log, k⟩)
    (heval : s.evaluate c site args = .ok (o, t)) :
    ∃ d, log.lookup k s.next c site args = .ok d ∧ o = d.outcome ∧
      t = ({ s with mode := .replaying ⟨log, k + 1⟩ } : Session).book
        ⟨UInt64.ofNat s.next, site, c, d.probability, o⟩ (luck c args o s.profile) := by
  rw [evaluate_of_replaying h] at heval
  rcases hlookup : log.lookup k s.next c site args with f | d
  · rw [hlookup] at heval
    cases heval
  · rw [hlookup] at heval
    cases heval
    exact ⟨d, rfl, rfl, rfl⟩

theorem exists_cursor (h : s.isReplaying = true) : ∃ log k, s.mode = .replaying ⟨log, k⟩ := by
  unfold isReplaying at h
  rcases hmode : s.mode with _ | log | ⟨log, k⟩
  · rw [hmode] at h
    cases h
  · rw [hmode] at h
    cases h
  · exact ⟨log, k, rfl⟩

theorem exists_log (h : s.isRecording = true) : ∃ log, s.mode = .recording log := by
  unfold isRecording at h
  rcases hmode : s.mode with _ | log | cursor
  · rw [hmode] at h
    cases h
  · exact ⟨log, rfl⟩
  · rw [hmode] at h
    cases h

theorem isReplaying_book (s : Session) (d : Decision) (l : Luck) :
    (s.book d l).isReplaying = s.isReplaying := by
  unfold book isReplaying
  rcases s.mode with _ | log | cursor
  · rfl
  · rfl
  · rfl

theorem yields_of_evaluate_eq_ok (h : s.isReplaying = false)
    (heval : s.evaluate c site args = .ok (o, t)) : c.Yields o ∧ t.isReplaying = false := by
  obtain ⟨hcheck, ho, rfl⟩ := of_evaluate_eq_ok_of_not_replaying h heval
  refine ⟨?_, (isReplaying_book _ _ _).trans h⟩
  rw [ho]
  exact yields_sample hcheck _ _

/-- A call is answered where the log goes on with a decision of its construct and its site. -/
theorem exists_evaluate_eq_error_iff_of_replaying (h : s.mode = .replaying ⟨log, k⟩) :
    (∃ f, s.evaluate c site args = .error f) ↔
      (∃ f, args.check c = .error f) ∨
        ¬ ∃ d, log.decisions[k]? = some d ∧ d.construct = c ∧ d.site = site := by
  rw [evaluate_of_replaying h]
  -- The lookup decides it: the session adds no fault of its own.
  rcases hlookup : log.lookup k s.next c site args with f | d
  · refine ⟨fun _ => ?_, fun _ => ⟨f, rfl⟩⟩
    rcases hcheck : args.check c with f' | ⟨⟩
    · exact .inl ⟨f', rfl⟩
    · refine .inr ?_
      rintro ⟨d, hd, hc, hs⟩
      -- A decision that goes on with the call would have been found.
      have hfound : log.lookup k s.next c site args = .ok d :=
        Log.lookup_eq_ok_iff.mpr ⟨hcheck, hd, hc, hs⟩
      rw [hlookup] at hfound
      cases hfound
  · obtain ⟨hcheck, hd, hc, hs⟩ := Log.lookup_eq_ok_iff.mp hlookup
    constructor
    · rintro ⟨f, ⟨⟩⟩
    · rintro (⟨f, hf⟩ | hnone)
      · rw [hcheck] at hf
        cases hf
      · exact absurd ⟨d, hd, hc, hs⟩ hnone

theorem Booked.of_evaluate_eq_ok (heval : s.evaluate c site args = .ok (o, t)) : s.Booked t := by
  rcases hreplaying : s.isReplaying
  · obtain ⟨-, -, rfl⟩ := of_evaluate_eq_ok_of_not_replaying hreplaying heval
    exact booked_book s _ s.mode _ _
  · obtain ⟨log, k, hmode⟩ := exists_cursor hreplaying
    obtain ⟨d, -, -, rfl⟩ := of_evaluate_eq_ok_of_replaying hmode heval
    exact booked_book s s.stream _ _ _

end Session

/-! ## Faults of a live run -/

namespace Args

theorem flaw?_ne_produced (args : Args Binary64) (o : Outcome Binary64) :
    args.flaw? ≠ some (.produced o) := by
  unfold flaw?
  grind

theorem isMisfit_of_check {c : Construct} {args : Args Binary64} {f : Fault}
    (h : args.check c = .error f) : f.isMisfit = false := by
  unfold check at h
  split at h
  · cases h
    rfl
  · split at h
    · rename_i flaw hflaw
      cases h
      cases flaw with
      | produced o => exact absurd hflaw (flaw?_ne_produced args o)
      | _ => rfl
    · cases h

end Args

namespace Program

variable {β γ : Type} {P : β → Prop} {Q : γ → Prop}

/-- Outside a replay every outcome that the program meets fits, and its result satisfies `P`. -/
def Fair (P : β → Prop) (p : Program β) : Prop :=
  ∀ h : Host, h.session.isReplaying = false →
    (p.play h).2.session.isReplaying = false ∧
      match (p.play h).1 with
      | .ok b => P b
      | .error f => f.isMisfit = false

theorem fair_bind {p : Program β} {f : β → Program γ} (hp : Fair P p)
    (hf : ∀ b, P b → Fair Q (f b)) : Fair Q (p >>= f) := by
  intro h hlive
  have hfirst := hp h hlive
  rw [play_bind]
  rcases hplay : p.play h with ⟨e | b, h'⟩
  · rw [hplay] at hfirst
    exact hfirst
  · rw [hplay] at hfirst
    exact hf b hfirst.2 h' hfirst.1

theorem fair_evaluate (c : Construct) (site : Site) (args : Args Binary64) :
    Fair (c.Yields ·) (evaluate c site args) := by
  intro h hlive
  rcases heval : h.session.evaluate c site args with f | ⟨o, s⟩
  · obtain ⟨hres, hsession, -⟩ := session_play_evaluate_of_error heval
    rw [hres, hsession]
    exact ⟨hlive, Args.isMisfit_of_check
      ((Session.evaluate_eq_error_iff_of_not_replaying hlive).mp heval)⟩
  · obtain ⟨hres, hsession, -⟩ := session_play_evaluate_of_ok heval
    rw [hres, hsession]
    exact (Session.yields_of_evaluate_eq_ok hlive heval).symm

theorem fair_call {c : Construct} {view : Outcome Binary64 → Option β} (hview : Fits c view)
    (site : Site) (args : Args Binary64) : Fair (fun _ => True) (call c view site args) := by
  apply fair_bind (fair_evaluate c site args)
  intro o ho h hlive
  obtain ⟨v, hv⟩ := Option.isSome_iff_exists.mp (hview o ho)
  rw [play_expect, hv]
  exact ⟨hlive, trivial⟩

theorem fair_setPersonality (name : String) : Fair (fun _ => True) (setPersonality name) := by
  intro h hlive
  rw [play_setPersonality]
  rcases hget : h.session.registry.get name with f | profile
  · refine ⟨hlive, ?_⟩
    unfold Registry.get at hget
    split at hget
    · cases hget
    · cases hget
      rfl
  · exact ⟨hlive, trivial⟩

theorem fair_setChaosLevel (level : UInt8) : Fair (fun _ => True) (setChaosLevel level) := by
  intro h hlive
  rw [play_setChaosLevel]
  rcases hlevel : ChaosLevel.ofNat level with f | chaos
  · refine ⟨hlive, ?_⟩
    unfold ChaosLevel.ofNat at hlevel
    split at hlevel
    · cases hlevel
    · cases hlevel
      rfl
  · exact ⟨hlive, trivial⟩

theorem Fair.weaken {p : Program β} (h : Fair P p) : Fair (fun _ => True) p := by
  intro host hlive
  have hfair := h host hlive
  refine ⟨hfair.1, ?_⟩
  rcases hplay : (p.play host).1 with f | b
  · rw [hplay] at hfair
    exact hfair.2
  · trivial

/-- In a live run the faults of a plain program come of its arguments and its settings. -/
theorem Plain.fair {p : Program β} (hp : p.Plain) : Fair (fun _ => True) p := by
  induction hp with
  | pure a => exact fun h hlive => ⟨hlive, trivial⟩
  | throw hf => exact fun h hlive => ⟨hlive, hf⟩
  | bind hp hf ihp ihf => exact fair_bind ihp fun b _ => ihf b
  | look hf hsame ih =>
    intro h hlive
    rw [play_bind, play_session]
    exact ih h.session h hlive
  | report e => exact fun h hlive => ⟨hlive, trivial⟩
  | print line => exact fun h hlive => ⟨hlive, trivial⟩
  | evaluate c site args => exact (fair_evaluate c site args).weaken
  | call hview site args => exact fair_call hview site args
  | setPersonality name => exact fair_setPersonality name
  | setChaosLevel level => exact fair_setChaosLevel level
  | recordFallback message => exact fun h hlive => ⟨hlive, trivial⟩

theorem isMisfit_play_timeDrift {h : Host} (hlive : h.session.isReplaying = false) (v : DriftVar)
    {f : Fault} (hf : ((timeDrift v).run h).1.1 = .error f) : f.isMisfit = false := by
  have hcall := fair_call (fits_asFloat (c := .timeDrift) (by decide)) v.site
    (.drift (v.aging.touch h.clock.now).1) h hlive
  have hresult : ((call .timeDrift Outcome.asFloat? v.site
    (.drift (v.aging.touch h.clock.now).1)).play h).1 = .error f := hf
  rw [hresult] at hcall
  exact hcall.2

/-! ## All or nothing -/

/-- The program books one decision, or it fails and leaves nothing but an entry in the journal. -/
structure Atomic (p : Program β) (h : Host) : Prop where
  fails : ∀ f, (p.play h).1 = .error f → ∃ journal, (p.play h).2 = { h with journal }
  books : ∀ b, (p.play h).1 = .ok b → h.session.Booked (p.play h).2.session

theorem atomic_throw (f : Fault) (h : Host) : Atomic (throw f : Program β) h where
  fails _ _ := ⟨h.journal, rfl⟩
  books _ hb := by cases hb

theorem atomic_evaluate (c : Construct) (site : Site) (args : Args Binary64) (h : Host) :
    Atomic (evaluate c site args) h := by
  rcases heval : h.session.evaluate c site args with f | ⟨o, s⟩
  · refine ⟨fun f' _ => ?_, fun o ho => ?_⟩
    · rw [play_evaluate, heval]
      dsimp only
      split
      · exact ⟨_, rfl⟩
      · exact ⟨_, rfl⟩
    · rw [(session_play_evaluate_of_error heval).1] at ho
      cases ho
  · obtain ⟨hres, hsession, -⟩ := session_play_evaluate_of_ok heval
    refine ⟨fun f hf => ?_, fun o' _ => ?_⟩
    · rw [hres] at hf
      cases hf
    · rw [hsession]
      exact .of_evaluate_eq_ok heval

theorem atomic_evaluateNamed (name : String) (site : Site) (args : Args Binary64) (h : Host) :
    Atomic (evaluateNamed name site args) h := by
  unfold evaluateNamed
  split
  · exact atomic_evaluate _ site args h
  · exact atomic_throw _ h

theorem fst_play_evaluate (c : Construct) (site : Site) (args : Args Binary64) (h : Host) :
    ((evaluate c site args).play h).1 = (h.session.evaluate c site args).map Prod.fst := by
  rcases heval : h.session.evaluate c site args with f | ⟨o, s⟩
  · exact (session_play_evaluate_of_error heval).1
  · exact (session_play_evaluate_of_ok heval).1

theorem fst_play_evaluate_eq_error_iff {c : Construct} {site : Site} {args : Args Binary64}
    {h : Host} {f : Fault} :
    ((evaluate c site args).play h).1 = .error f ↔ h.session.evaluate c site args = .error f := by
  rw [fst_play_evaluate]
  rcases h.session.evaluate c site args with f' | ⟨o, s⟩
  · simp [Except.map]
  · simp [Except.map]

end Program

/-- How calls end on a host that replays no log. -/
structure Host.Decides (h : Host) : Prop where
  error_iff : ∀ c site args f,
    ((Program.evaluate c site args).play h).1 = .error f ↔ args.check c = .error f
  yields : ∀ c site args, args.check c = .ok () →
    ∃ o, ((Program.evaluate c site args).play h).1 = .ok o ∧ c.Yields o
  fits : ∀ {β : Type} (op : Operation β) f, (op.program.play h).1 = .error f → f.isMisfit = false
  fits_timeDrift : ∀ v f, ((Program.timeDrift v).run h).1.1 = .error f → f.isMisfit = false

theorem Host.decides {h : Host} (hlive : h.session.isReplaying = false) : h.Decides where
  error_iff c site args f :=
    Program.fst_play_evaluate_eq_error_iff.trans
      (Session.evaluate_eq_error_iff_of_not_replaying hlive)
  yields c site args hcheck := by
    have hfair := (Program.fair_evaluate c site args h hlive).2
    rcases hplay : ((Program.evaluate c site args).play h).1 with f | o
    · rw [Program.fst_play_evaluate_eq_error_iff,
        Session.evaluate_eq_error_iff_of_not_replaying hlive, hcheck] at hplay
      cases hplay
    · rw [hplay] at hfair
      exact ⟨o, rfl, hfair⟩
  fits op f hf := by
    have hfair := (op.plain.fair h hlive).2
    rw [hf] at hfair
    exact hfair
  fits_timeDrift v f := Program.isMisfit_play_timeDrift hlive v

/-- On any host a call books one decision or changes nothing. In a live or a recorded run it fails
just when its arguments are refused; a replay also has to go on with its construct and its site. -/
theorem Program.evaluate_books_or_fails (h : Host) :
    (∀ c site args, Atomic (evaluate c site args) h) ∧
      (∀ name site args, Atomic (evaluateNamed name site args) h ∧
        ((∃ f, ((evaluateNamed name site args).play h).1 = .error f) ↔
          ∀ c, Construct.ofName? name = some c →
            ∃ f, ((evaluate c site args).play h).1 = .error f)) ∧
      (h.session.isReplaying = false → h.Decides) ∧
      ∀ log k, h.session.mode = .replaying ⟨log, k⟩ → ∀ c site args,
        ((∃ f, ((evaluate c site args).play h).1 = .error f) ↔
          (∃ f, args.check c = .error f) ∨
            ¬ ∃ d, log.decisions[k]? = some d ∧ d.construct = c ∧ d.site = site) := by
  refine ⟨fun c site args => atomic_evaluate c site args h, fun name site args => ⟨?_, ?_⟩,
    Host.decides, fun log k hmode c site args => ?_⟩
  · exact atomic_evaluateNamed name site args h
  · -- A name of no construct is a fault of its own, before any call is made.
    unfold evaluateNamed
    rcases Construct.ofName? name with _ | c
    · constructor
      · rintro - c ⟨⟩
      · exact fun _ => ⟨_, rfl⟩
    · constructor
      · rintro hf c ⟨⟩
        exact hf
      · exact fun hf => hf c rfl
  · simp only [fst_play_evaluate_eq_error_iff]
    exact Session.exists_evaluate_eq_error_iff_of_replaying hmode

end Fickle

import Fickle.Proofs.Log.Codec
import Fickle.Proofs.Program

/-! # A replay looks its answers up

While a log is replayed, the answer to a call is read off the log at the place that the calls
before it have reached. Nothing else that a program does moves that place.
-/

namespace Fickle

/-! ## The lookup -/

/-- The recorded decision at place `k`, if a call with good arguments may have it. The fault names
the number `seq` of the call. -/
def Log.lookup (l : Log) (k seq : Nat) (c : Construct) (site : Site) (args : Args Binary64) :
    Except Fault Decision :=
  match args.check c with
  | .error f => .error f
  | .ok () =>
    match l.decisions[k]? with
    | none => .error (.replayExhausted seq site c)
    | some d =>
      if d.construct ≠ c then .error (.replayDivergence seq site d.construct c)
      else if d.site ≠ site then .error (.replaySiteMismatch seq c d.site site)
      else .ok d

theorem Log.lookup_eq_ok_iff {l : Log} {k seq : Nat} {c : Construct} {site : Site}
    {args : Args Binary64} {d : Decision} :
    l.lookup k seq c site args = .ok d ↔
      args.check c = .ok () ∧ l.decisions[k]? = some d ∧ d.construct = c ∧ d.site = site := by
  unfold lookup
  rcases args.check c with f | ⟨⟩
  · simp
  rcases l.decisions[k]? with _ | d'
  · simp
  dsimp only
  by_cases hc : d'.construct = c
  · by_cases hs : d'.site = site
    · rw [if_neg (not_not_intro hc), if_neg (not_not_intro hs)]
      constructor
      · rintro ⟨⟩
        exact ⟨rfl, rfl, hc, hs⟩
      · rintro ⟨-, ⟨⟩, -⟩
        rfl
    · rw [if_neg (not_not_intro hc), if_pos hs]
      constructor
      · rintro ⟨⟩
      · rintro ⟨-, ⟨⟩, -, hs'⟩
        exact absurd hs' hs
  · rw [if_pos hc]
    constructor
    · rintro ⟨⟩
    · rintro ⟨-, ⟨⟩, hc', -⟩
      exact absurd hc' hc

theorem Log.drop_eq_cons_iff {l : Log} {k : Nat} {d : Decision} {ds : List Decision} :
    l.decisions.toList.drop k = d :: ds ↔
      l.decisions[k]? = some d ∧ l.decisions.toList.drop (k + 1) = ds := by
  rw [← Array.getElem?_toList, ← List.head?_drop, ← List.tail_drop]
  rcases l.decisions.toList.drop k with _ | ⟨d', ds'⟩
  · simp
  · rw [List.cons.injEq, List.head?_cons, List.tail_cons, Option.some_inj]

/-- A call is served where the decisions go on with one of its construct and its site. -/
theorem Log.exists_lookup_iff {l : Log} {k seq : Nat} {c : Construct} {site : Site}
    {args : Args Binary64} :
    (∃ d, l.lookup k seq c site args = .ok d) ↔
      args.check c = .ok () ∧
        ∃ d ds, l.decisions.toList.drop k = d :: ds ∧ (c, site) = (d.construct, d.site) := by
  constructor
  · rintro ⟨d, hl⟩
    obtain ⟨hargs, hd, rfl, rfl⟩ := Log.lookup_eq_ok_iff.mp hl
    exact ⟨hargs, d, _, Log.drop_eq_cons_iff.mpr ⟨hd, rfl⟩, rfl⟩
  · rintro ⟨hargs, d, ds, hdrop, hkey⟩
    cases hkey
    exact ⟨d, Log.lookup_eq_ok_iff.mpr ⟨hargs, (Log.drop_eq_cons_iff.mp hdrop).1, rfl, rfl⟩⟩

namespace Session

theorem evaluate_of_replaying {s : Session} {log : Log} {k : Nat}
    (h : s.mode = .replaying ⟨log, k⟩) (c : Construct) (site : Site) (args : Args Binary64) :
    s.evaluate c site args = match log.lookup k s.next c site args with
      | .error f => .error f
      | .ok d =>
        let s' : Session := { s with mode := .replaying ⟨log, k + 1⟩ }
        .ok (d.outcome, s'.book ⟨UInt64.ofNat s.next, site, c, d.probability, d.outcome⟩
          (luck c args d.outcome s.profile)) := by
  unfold evaluate resolve Log.lookup
  rw [h]
  rcases args.check c with f | ⟨⟩
  · rfl
  unfold Cursor.advance
  dsimp only
  rcases log.decisions[k]? with _ | d
  · rfl
  dsimp only
  by_cases hc : d.construct = c
  case neg =>
    rw [if_pos hc, if_pos hc]
    rfl
  by_cases hs : d.site = site
  case neg =>
    rw [if_neg (not_not_intro hc), if_neg (not_not_intro hc), if_pos hs, if_pos hs]
    rfl
  rw [if_neg (not_not_intro hc), if_neg (not_not_intro hc), if_neg (not_not_intro hs),
    if_neg (not_not_intro hs)]
  rfl

end Session

/-! ## Requests -/

/-- What a program may ask of a host while a log is replayed. -/
inductive Request : Type 1 where
  | evaluate (c : Construct) (site : Site) (args : Args Binary64)
  | welp {β : Type} (text : β → String) (primary : Option β) (fallback : β)
  | welpResult {β : Type} (text : β → String) (primary : Except String β) (fallback : β)
  | setPersonality (name : String)
  | setChaosLevel (level : UInt8)
  | reseed (seed : UInt64)
  | startRecording
  | stopRecording
  /-- Time passes between two requests. -/
  | setClock (clock : Clock)

structure Call where
  construct : Construct
  site : Site
  args : Args Binary64

namespace Request

def call? : Request → Option Call
  | evaluate c site args => some ⟨c, site, args⟩
  | welp _ _ _ | welpResult _ _ _ | setPersonality _ | setChaosLevel _ | reseed _
  | startRecording | stopRecording | setClock _ => none

/-- Runs the request. It gives an outcome if it is a call. -/
def perform : Request → Program (Option (Outcome Binary64))
  | evaluate c site args => do return some (← Program.evaluate c site args)
  | welp text primary fallback => do
    let _ ← Program.welp text primary fallback
    return none
  | welpResult text primary fallback => do
    let _ ← Program.welpResult text primary fallback
    return none
  | setPersonality name => do
    Program.setPersonality name
    return none
  | setChaosLevel level => do
    Program.setChaosLevel level
    return none
  | reseed seed => do
    Program.reseed seed
    return none
  | startRecording => do
    Program.startRecording
    return none
  | stopRecording => do
    let _ ← Program.stopRecording
    return none
  | setClock clock => do
    modify fun h => { h with clock }
    return none

/-- A request with what came of it. -/
abbrev Answered := Request × Except Fault (Option (Outcome Binary64))

/-- Runs requests one after the other, whether they fail or not. -/
def performAll : List Request → Host → List Answered × Host
  | [], h => ([], h)
  | r :: rs, h =>
    let (answer, h) := r.perform.play h
    let (answers, h) := performAll rs h
    ((r, answer) :: answers, h)

def hasOutcome : Except Fault (Option (Outcome Binary64)) → Bool
  | .ok (some _) => true
  | .ok none | .error _ => false

def outcomes (answers : List Answered) : Nat := answers.countP fun x => hasOutcome x.2

end Request

/-! ## One request -/

/-- The host replays the log and has come to place `k` of it. -/
structure Host.Reads (log : Log) (k : Nat) (h : Host) : Prop where
  mode : h.session.mode = .replaying ⟨log, k⟩
  le : k ≤ log.size

namespace Request

variable {log : Log} {k : Nat} {h : Host}

theorem play_evaluate_eq (c : Construct) (site : Site) (args : Args Binary64) (h : Host) :
    ((evaluate c site args).perform.play h).1 =
      ((Program.evaluate c site args).play h).1.map some := by
  rw [perform, Program.play_bind]
  rcases (Program.evaluate c site args).play h with ⟨e | o, h'⟩
  · rfl
  · rfl

theorem answer_evaluate (hr : h.Reads log k) (c : Construct) (site : Site)
    (args : Args Binary64) :
    ((Program.evaluate c site args).play h).1 =
      (log.lookup k h.session.next c site args).map Decision.outcome := by
  rw [Program.play_evaluate, Session.evaluate_of_replaying hr.mode]
  rcases log.lookup k h.session.next c site args with f | d
  · rfl
  · rfl

theorem hasOutcome_evaluate_iff (hr : h.Reads log k) (c : Construct) (site : Site)
    (args : Args Binary64) :
    hasOutcome ((evaluate c site args).perform.play h).1 = true ↔
      ∃ d, log.lookup k h.session.next c site args = .ok d := by
  rw [play_evaluate_eq, answer_evaluate hr]
  rcases log.lookup k h.session.next c site args with f | d
  · constructor
    · rintro ⟨⟩
    · rintro ⟨d, ⟨⟩⟩
  · exact ⟨fun _ => ⟨d, rfl⟩, fun _ => rfl⟩

theorem startRecording_of_reads (hr : h.Reads log k) :
    h.session.startRecording = .error .replayActive := by
  unfold Session.startRecording Session.isReplaying
  rw [hr.mode]
  rfl

theorem play_stopRecording_of_reads (hr : h.Reads log k) :
    Program.stopRecording.play h = (.ok none, h) := by
  have hstop : h.session.stopRecording = (none, h.session) := by
    unfold Session.stopRecording
    rw [hr.mode]
  rw [Program.stopRecording, Program.play_bind, Program.play_session]
  dsimp only
  rw [hstop]
  rfl

theorem play_finishReplay_of_reads (hr : h.Reads log k) :
    (Program.finishReplay.play h).1 =
      if k = log.size then .ok () else .error (.replayIncomplete k log.size) := by
  have hle := hr.le
  rw [Program.fst_play_finishReplay]
  unfold Session.finishReplay
  rw [hr.mode]
  dsimp only
  by_cases hk : k = log.size
  · rw [if_pos hk, if_neg (by omega)]
  · rw [if_neg hk, if_pos (by omega)]

theorem reads_evaluate (hr : h.Reads log k) (c : Construct) (site : Site) (args : Args Binary64) :
    ((evaluate c site args).perform.play h).2.Reads log
      (k + (hasOutcome ((evaluate c site args).perform.play h).1).toNat) := by
  rw [perform, Program.play_bind, Program.play_evaluate, Session.evaluate_of_replaying hr.mode]
  rcases hl : log.lookup k h.session.next c site args with f | d
  · dsimp only
    split
    · exact ⟨hr.mode, hr.le⟩
    · exact hr
  · have hd := (Log.lookup_eq_ok_iff.mp hl).2.1
    obtain ⟨hlt, -⟩ := Array.getElem?_eq_some_iff.mp hd
    exact ⟨rfl, hlt⟩

/-- What is no call gets no outcome and leaves the place in the log alone. -/
theorem reads_perform_of_call? (hr : h.Reads log k) {r : Request} (hcall : r.call? = none) :
    hasOutcome (r.perform.play h).1 = false ∧ (r.perform.play h).2.Reads log k := by
  cases r with
  | evaluate c site args => cases hcall
  | welp text primary fallback =>
    cases primary with
    | some v => exact ⟨rfl, hr⟩
    | none => exact ⟨rfl, hr.mode, hr.le⟩
  | welpResult text primary fallback =>
    cases primary with
    | ok v => exact ⟨rfl, hr⟩
    | error e => exact ⟨rfl, hr.mode, hr.le⟩
  | setPersonality name =>
    rw [perform, Program.play_bind, Program.play_setPersonality]
    rcases h.session.registry.get name with f | profile
    · exact ⟨rfl, hr⟩
    · exact ⟨rfl, hr.mode, hr.le⟩
  | setChaosLevel level =>
    rw [perform, Program.play_bind, Program.play_setChaosLevel]
    rcases ChaosLevel.ofNat level with f | chaos
    · exact ⟨rfl, hr⟩
    · exact ⟨rfl, hr.mode, hr.le⟩
  | reseed seed =>
    -- A new seed starts the stream again, but not the log.
    have hmode : (h.session.reseed seed).mode = .replaying ⟨log, k⟩ := by
      unfold Session.reseed Session.rewind
      rw [hr.mode]
    exact ⟨rfl, hmode, hr.le⟩
  | startRecording =>
    rw [perform, Program.play_bind, Program.play_startRecording, startRecording_of_reads hr]
    exact ⟨rfl, hr⟩
  | stopRecording =>
    rw [perform, Program.play_bind, play_stopRecording_of_reads hr]
    exact ⟨rfl, hr⟩
  | setClock clock => exact ⟨rfl, hr.mode, hr.le⟩

/-! ## Runs -/

theorem outcomes_cons (x : Answered) (xs : List Answered) :
    outcomes (x :: xs) = (hasOutcome x.2).toNat + outcomes xs := by
  rw [outcomes, List.countP_cons, outcomes, Nat.add_comm]
  cases hasOutcome x.2
  · rfl
  · rfl

theorem reads_perform (hr : h.Reads log k) (r : Request) :
    (r.perform.play h).2.Reads log (k + (hasOutcome (r.perform.play h).1).toNat) := by
  rcases hcall : r.call? with _ | call
  · obtain ⟨hnone, hr'⟩ := reads_perform_of_call? hr hcall
    rw [hnone]
    exact hr'
  · cases r
    case evaluate c site args => exact reads_evaluate hr c site args
    all_goals cases hcall

/-- Each outcome moves the place in the log by one, and nothing else moves it. -/
theorem reads_performAll (rs : List Request) (hr : h.Reads log k) :
    (performAll rs h).2.Reads log (k + outcomes (performAll rs h).1) := by
  induction rs generalizing h k with
  | nil => exact hr
  | cons r rs ih =>
    have hnext := ih (reads_perform hr r)
    rw [performAll, outcomes_cons, ← Nat.add_assoc]
    exact hnext

def Served (answers : List Answered) : Prop :=
  ∀ x ∈ answers, x.1.call?.isSome = true → hasOutcome x.2 = true

theorem served_cons (x : Answered) (xs : List Answered) :
    Served (x :: xs) ↔ (x.1.call?.isSome = true → hasOutcome x.2 = true) ∧ Served xs := by
  unfold Served
  rw [List.forall_mem_cons]

def calls (rs : List Request) : List Call := rs.filterMap call?

/-- From place `k` on, the calls are served and the log is used up just when they follow it. -/
theorem served_iff (rs : List Request) (hr : h.Reads log k) :
    (Served (performAll rs h).1 ∧ k + outcomes (performAll rs h).1 = log.size) ↔
      (calls rs).map (fun c => (c.construct, c.site)) =
        (log.decisions.toList.drop k).map (fun d => (d.construct, d.site)) ∧
      ∀ c ∈ calls rs, c.args.check c.construct = .ok () := by
  induction rs generalizing h k with
  | nil =>
    -- No calls are left: the log is used up just when no decisions are left either.
    have hle := hr.le
    have hdrop := List.drop_eq_nil_iff (l := log.decisions.toList) (i := k)
    rw [Array.length_toList] at hdrop
    simp only [performAll, Served, outcomes, calls, List.filterMap_nil, List.map_nil,
      List.countP_nil, List.not_mem_nil, false_implies, implies_true, true_and, and_true,
      Nat.add_zero, List.nil_eq, List.map_eq_nil_iff, hdrop]
    unfold Log.size at hle ⊢
    omega
  | cons r rs ih =>
    rw [performAll, served_cons, outcomes_cons, ← Nat.add_assoc, and_assoc]
    dsimp only
    rcases hcall : r.call? with _ | call
    · -- No call: the place stays, and neither list changes.
      obtain ⟨hnone, hr'⟩ := reads_perform_of_call? hr hcall
      have hcalls : calls (r :: rs) = calls rs := List.filterMap_cons_none hcall
      rw [hnone, hcalls, ← ih hr']
      simp
    · cases r
      case evaluate c site args =>
        have hcalls : calls (evaluate c site args :: rs) = ⟨c, site, args⟩ :: calls rs := rfl
        have hnext := reads_evaluate hr c site args
        have hlookup := (hasOutcome_evaluate_iff hr c site args).trans Log.exists_lookup_iff
        rw [hcalls, List.map_cons, List.forall_mem_cons]
        -- A call is served just when the next decision is of its construct and its site.
        by_cases hone : hasOutcome ((evaluate c site args).perform.play h).1 = true
        · obtain ⟨hargs, d, ds, hdrop, hkey⟩ := hlookup.mp hone
          rw [hone] at hnext ⊢
          rw [hdrop, ← (Log.drop_eq_cons_iff.mp hdrop).2, List.map_cons, hkey, List.cons_inj_right]
          simp only [hargs, implies_true, true_and]
          exact ih hnext
        · constructor
          · rintro ⟨hserved, -⟩
            exact absurd (hserved rfl) hone
          · rintro ⟨hkeys, hargs, -⟩
            obtain ⟨d, ds, hdrop, hkey, -⟩ := List.map_eq_cons_iff.mp hkeys.symm
            exact absurd (hlookup.mpr ⟨hargs, d, ds, hdrop, hkey.symm⟩) hone
      all_goals cases hcall

end Request

/-! ## A replay from its start -/

/-- The session that replays a log from its start. -/
def Session.reader (log : Log) (registry : Registry) (profile : Profile Binary64) : Session where
  registry := registry
  profile := profile
  chaos := log.chaos
  seed := log.seed
  autoSeeded := log.autoSeeded
  stream := Stream.ofSeed log.seed
  instability := Instability.calm
  next := 0
  mode := .replaying (Cursor.start log)
  drift := DriftModel.standard
  tally := Tally.zero

theorem Session.replay_eq {log : Log} {registry : Registry} {profile : Profile Binary64}
    (h : registry.get log.personality = .ok profile) :
    Session.replay log registry = .ok (Session.reader log registry profile) := by
  have hsettings : (Settings.seeded log.personality log.chaos.val log.seed).chaos =
      .ok log.chaos := (ChaosLevel.ofNat_eq_ok_iff _ _).mpr rfl
  have hname : (Settings.seeded log.personality log.chaos.val log.seed).personality =
      log.personality := rfl
  rw [Session.replay, Session.create, hname, h, hsettings]
  rfl

theorem Program.play_replay {log : Log} {registry : Registry} {profile : Profile Binary64}
    (h : registry.get log.personality = .ok profile) (host : Host) :
    (Program.replay log registry).play host =
      (.ok (), { host with
        session := Session.reader log registry profile
        journal := .replayStarted log.size :: .sessionStarted :: host.journal }) := by
  rw [Program.replay, Session.replay_eq h]
  rfl

/-- The host answers as a lookup in the log does that has come to place `k`. -/
structure Host.LooksUp (log : Log) (k : Nat) (h : Host) : Prop where
  le : k ≤ log.size
  remaining : h.session.remaining? = some (log.size - k)
  evaluate : ∀ c site args, ((Program.evaluate c site args).play h).1 =
    (log.lookup k h.session.next c site args).map Decision.outcome
  startRecording : (Program.startRecording.play h).1 = .error .replayActive
  stopRecording : (Program.stopRecording.play h).1 = .ok none
  finishReplay : (Program.finishReplay.play h).1 =
    if k = log.size then .ok () else .error (.replayIncomplete k log.size)

theorem Host.Reads.looksUp {log : Log} {k : Nat} {h : Host} (hr : h.Reads log k) :
    h.LooksUp log k where
  le := hr.le
  remaining := by
    unfold Session.remaining?
    rw [hr.mode]
    rfl
  evaluate := Request.answer_evaluate hr
  startRecording := by
    rw [Program.play_startRecording, Request.startRecording_of_reads hr]
  stopRecording := by rw [Request.play_stopRecording_of_reads hr]
  finishReplay := Request.play_finishReplay_of_reads hr

/-- A replay is a lookup: after any requests, the place in the log is the number of outcomes given,
and a whole run goes through to the end just when its calls follow the log. -/
theorem Program.replay_looks_up {log : Log} {registry : Registry} {profile : Profile Binary64}
    (h : registry.get log.personality = .ok profile) (host : Host) :
    ∃ h₀, (Program.replay log registry).play host = (.ok (), h₀) ∧
      ∀ rs : List Request,
        Host.LooksUp log (Request.outcomes (Request.performAll rs h₀).1)
          (Request.performAll rs h₀).2 ∧
        (Request.Served (Request.performAll rs h₀).1 ∧
            (Program.finishReplay.play (Request.performAll rs h₀).2).1 = .ok () ↔
          (Request.calls rs).map (fun c => (c.construct, c.site)) =
              log.decisions.toList.map (fun d => (d.construct, d.site)) ∧
            ∀ c ∈ Request.calls rs, c.args.check c.construct = .ok ()) := by
  refine ⟨_, Program.play_replay h host, ?_⟩
  intro rs
  -- The journal has grown by now, which no later answer depends on.
  generalize hh : ({ host with
    session := Session.reader log registry profile
    journal := .replayStarted log.size :: .sessionStarted :: host.journal } : Host) = h₀
  have hstart : h₀.Reads log 0 := by
    rw [← hh]
    exact ⟨rfl, Nat.zero_le _⟩
  have hend := Request.reads_performAll rs hstart
  rw [Nat.zero_add] at hend
  refine ⟨hend.looksUp, ?_⟩
  have hserved := Request.served_iff rs hstart
  rw [Nat.zero_add, List.drop_zero] at hserved
  rw [← hserved, Request.play_finishReplay_of_reads hend]
  have hok (k : Nat) : (if k = log.size then Except.ok ()
      else Except.error (Fault.replayIncomplete k log.size)) = .ok () ↔ k = log.size := by
    by_cases hk : k = log.size
    · simp [hk]
    · simp [hk]
  rw [hok]

/-- Another personality and another seed, and then nothing or the one call that has been recorded. -/
def Request.unsettled (last : List Request) : List Request :=
  .setPersonality "chaotic" :: .reseed 9 :: last

/-- The one recorded decision answers the one call, whatever has been changed in between, and only
then is the replay finished. -/
theorem Program.replay_looks_up_ofOneDecision :
    Registry.builtin.get Log.ofOneDecision.personality = .ok Personality.playful.profile ∧
      ∃ h₀, (Program.replay Log.ofOneDecision Registry.builtin).play
          (Host.ofSession (Session.reader Log.ofOneDecision Registry.builtin
            Personality.playful.profile) Clock.zero) = (.ok (), h₀) ∧
        (∃ h, (Request.performAll (Request.unsettled []) h₀).2 = h ∧
          ((Program.evaluate .maybe ⟨1⟩ (.condition false)).play h).1 = .ok (.bool true) ∧
          (Program.finishReplay.play h).1 = .error (.replayIncomplete 0 1)) ∧
        ∃ h, (Request.performAll
            (Request.unsettled [.evaluate .maybe ⟨1⟩ (.condition false)]) h₀).2 = h ∧
          (Program.finishReplay.play h).1 = .ok () := by
  have hget : Registry.builtin.get Log.ofOneDecision.personality =
      .ok Personality.playful.profile := rfl
  obtain ⟨h₀, hplay, hall⟩ := replay_looks_up hget (Host.ofSession (Session.reader
    Log.ofOneDecision Registry.builtin Personality.playful.profile) Clock.zero)
  have hlooks := (hall (Request.unsettled [])).1
  have hfollows := (hall (Request.unsettled [.evaluate .maybe ⟨1⟩ (.condition false)])).2.mpr
    ⟨rfl, List.forall_mem_singleton.mpr rfl⟩
  obtain rfl : h₀ = _ := (congrArg Prod.snd hplay).symm
  exact ⟨hget, _, hplay, ⟨_, rfl, hlooks.evaluate .maybe ⟨1⟩ (.condition false),
    hlooks.finishReplay⟩, _, rfl, hfollows.2⟩

end Fickle

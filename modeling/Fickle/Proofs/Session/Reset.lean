import Fickle.Proofs.Session.Beginning

/-! # A run depends on nothing that came before it

A session that begins again is the session that is new with the same settings. What a script does
with it then is what it does with the new one, up to the auto-seeded flag where that is kept.
-/

namespace Fickle

/-! ## Sessions that differ in their flag -/

namespace Session

/-- The sessions are the same up to their auto-seeded flags, and these have to be the same too if
`strict` holds. -/
structure Near (strict : Prop) (s t : Session) : Prop where
  flagged : s.flagged false = t.flagged false
  same : strict → s = t

variable {strict : Prop} {s t : Session}

theorem Near.refl (s : Session) : s.Near strict s := ⟨rfl, fun _ => rfl⟩

theorem isReplaying_flagged (flag : Bool) (s : Session) :
    (s.flagged flag).isReplaying = s.isReplaying := by
  unfold isReplaying flagged
  rcases s.mode with _ | log | cursor
  · rfl
  · rfl
  · rfl

theorem Near.isReplaying (h : s.Near strict t) : s.isReplaying = t.isReplaying := by
  rw [← isReplaying_flagged false s, h.flagged, isReplaying_flagged]

theorem Near.alike (h : s.Near strict t) : s.Alike t := by
  have halike : (s.flagged false).Alike (t.flagged false) := by
    rw [h.flagged]
    exact .refl _
  exact ⟨halike.registry, halike.profile, halike.chaos, halike.instability, halike.next,
    halike.tally⟩

/-! ### Changes -/

theorem book_flagged (flag : Bool) (s : Session) (d : Decision) (l : Luck) :
    (s.flagged flag).book d l = (s.book d l).flagged flag := by
  unfold book flagged
  rcases s.mode with _ | log | cursor
  · rfl
  · rfl
  · rfl

theorem evaluate_flagged (s : Session) (c : Construct) (site : Site) (args : Args Binary64) :
    (s.flagged false).evaluate c site args =
      (s.evaluate c site args).map fun r => (r.1, r.2.flagged false) := by
  -- The flag is in the mode as well, and what a call makes of that differs in a replay.
  rcases hreplaying : s.isReplaying
  · have hflagged : (s.flagged false).isReplaying = false := by
      rw [isReplaying_flagged, hreplaying]
    have hsetting : (s.flagged false).setting c = s.setting c := rfl
    have hstream : (s.flagged false).stream = s.stream := rfl
    rw [evaluate_of_not_replaying hreplaying, evaluate_of_not_replaying hflagged, hsetting, hstream]
    rcases args.check c with f | ⟨⟩
    · rfl
    · generalize sample c args (s.setting c) s.stream = drawn
      exact congrArg (fun t => Except.ok (drawn.1, t))
        (book_flagged false { s with stream := drawn.2 } _ _)
  · obtain ⟨log, k, hmode⟩ := exists_cursor hreplaying
    have hflagged : (s.flagged false).mode = .replaying ⟨log, k⟩ := by
      unfold flagged
      rw [hmode]
      rfl
    have hnext : (s.flagged false).next = s.next := rfl
    rw [evaluate_of_replaying hmode, evaluate_of_replaying hflagged, hnext]
    rcases log.lookup k s.next c site args with f | d
    · rfl
    · rfl

theorem flagged_flagged (flag flag' : Bool) (s : Session) :
    (s.flagged flag').flagged flag = s.flagged flag := by
  unfold flagged
  rcases s.mode with _ | log | cursor
  · rfl
  · rfl
  · rfl

theorem mode_flagged (flag : Bool) (s : Session) :
    (s.flagged flag).mode = s.mode.flagged flag := rfl

theorem stopRecording_flagged (s : Session) :
    (s.flagged false).stopRecording =
      (s.stopRecording.1.map (Log.flagged false), s.stopRecording.2.flagged false) := by
  unfold stopRecording
  rw [mode_flagged]
  rcases s.mode with _ | log | cursor
  · rfl
  · rfl
  · rfl

theorem finishReplay_flagged (s : Session) :
    (s.flagged false).finishReplay = (s.finishReplay.1, s.finishReplay.2.flagged false) := by
  unfold finishReplay
  rw [mode_flagged]
  rcases s.mode with _ | log | cursor
  · rfl
  · rfl
  · rfl

/-- What a move does to a session is not told by its flag. -/
theorem accept_flagged (s : Session) (m : Move) :
    ((s.flagged false).accept m).map (flagged false) = (s.accept m).map (flagged false) := by
  cases m with
  | evaluate c site args =>
    unfold accept
    dsimp only
    rw [evaluate_flagged]
    rcases s.evaluate c site args with f | ⟨o, t⟩
    · rfl
    · exact congrArg Except.ok (flagged_flagged false false t)
  | recordFallback => exact congrArg Except.ok (flagged_flagged false false s.recordFallback)
  | setPersonality name =>
    unfold accept
    dsimp only
    unfold setPersonality
    have hregistry : (s.flagged false).registry = s.registry := rfl
    rw [hregistry]
    rcases s.registry.get name with f | profile
    · rfl
    · exact congrArg Except.ok (flagged_flagged false false { s with profile })
  | setChaosLevel level =>
    unfold accept
    dsimp only
    unfold setChaosLevel
    rcases ChaosLevel.ofNat level with f | chaos
    · rfl
    · exact congrArg Except.ok (flagged_flagged false false { s with chaos })
  | reseed seed =>
    unfold accept reseed rewind flagged
    rcases s.mode with _ | log | cursor
    · rfl
    · rfl
    · rfl
  | restart settings drawn =>
    unfold accept
    dsimp only
    rw [restart_eq_create, restart_eq_create]
    rfl
  | startRecording =>
    unfold accept startRecording
    dsimp only
    rw [isReplaying_flagged]
    rcases s.isReplaying
    · rfl
    · rfl
  | stopRecording =>
    unfold accept
    dsimp only
    rw [stopRecording_flagged]
    exact congrArg Except.ok (flagged_flagged false false s.stopRecording.2)
  | finishReplay =>
    unfold accept
    dsimp only
    rw [finishReplay_flagged]
    exact congrArg Except.ok (flagged_flagged false false s.finishReplay.2)

theorem Near.accept (h : s.Near strict t) (m : Move) :
    (∃ f, s.accept m = .error f ∧ t.accept m = .error f) ∨
      ∃ s' t', s.accept m = .ok s' ∧ t.accept m = .ok t' ∧ s'.Near strict t' := by
  have hmap : (s.accept m).map (Session.flagged false) =
      (t.accept m).map (Session.flagged false) := by
    rw [← accept_flagged, h.flagged, accept_flagged]
  rcases map_eq_map_iff.mp hmap with hfail | ⟨s', t', hs, ht, hflag⟩
  · exact .inl hfail
  · refine .inr ⟨s', t', hs, ht, hflag, fun hstrict => ?_⟩
    rw [h.same hstrict, ht] at hs
    exact (Except.ok.inj hs).symm

theorem Near.move (h : s.Near strict t) (m : Move) : (s.move m).Near strict (t.move m) := by
  unfold Session.move
  rcases h.accept m with ⟨f, hs, ht⟩ | ⟨s', t', hs, ht, hnear⟩
  · rw [hs, ht]
    exact h
  · rw [hs, ht]
    exact hnear

theorem Near.stopRecording (h : s.Near strict t) :
    s.stopRecording.1.map (Log.flagged false) = t.stopRecording.1.map (Log.flagged false) := by
  have hstop : (s.flagged false).stopRecording.1 = (t.flagged false).stopRecording.1 := by
    rw [h.flagged]
  rw [stopRecording_flagged, stopRecording_flagged] at hstop
  exact hstop

theorem Near.finishReplay (h : s.Near strict t) : s.finishReplay.1 = t.finishReplay.1 := by
  have hfinish : (s.flagged false).finishReplay.1 = (t.flagged false).finishReplay.1 := by
    rw [h.flagged]
  rw [finishReplay_flagged, finishReplay_flagged] at hfinish
  exact hfinish

theorem Near.evaluate (h : s.Near strict t) (c : Construct) (site : Site) (args : Args Binary64) :
    (∃ f, s.evaluate c site args = .error f ∧ t.evaluate c site args = .error f) ∨
      ∃ o s' t', s.evaluate c site args = .ok (o, s') ∧ t.evaluate c site args = .ok (o, t') ∧
        s'.Near strict t' := by
  have hmap : (s.evaluate c site args).map (fun r => (r.1, r.2.flagged false)) =
      (t.evaluate c site args).map fun r => (r.1, r.2.flagged false) := by
    rw [← evaluate_flagged, h.flagged, evaluate_flagged]
  rcases map_eq_map_iff.mp hmap with hfail | ⟨⟨o, s'⟩, ⟨o', t'⟩, hs, ht, hflag⟩
  · exact .inl hfail
  · obtain ⟨rfl, hflag⟩ := Prod.mk.inj hflag
    refine .inr ⟨_, s', t', hs, ht, hflag, fun hstrict => ?_⟩
    rw [h.same hstrict, ht] at hs
    exact (Prod.mk.inj (Except.ok.inj hs)).2.symm

end Session

/-! ## Hosts -/

/-- The sessions are near, the clocks are the same, and both have printed the same lines after
what they had printed before. -/
structure Host.Near (strict : Prop) (before before' : List String) (a b : Host) : Prop where
  session : a.session.Near strict b.session
  clock : a.clock = b.clock
  printed : ∃ lines, a.printed = lines ++ before ∧ b.printed = lines ++ before'

namespace Program

variable {strict : Prop} {β γ : Type}

/-- The program does the same on hosts that are near. -/
def Tracks (strict : Prop) (p : Program β) : Prop :=
  ∀ before before' a b, Host.Near strict before before' a b →
    (p.play a).1 = (p.play b).1 ∧ Host.Near strict before before' (p.play a).2 (p.play b).2

theorem tracks_bind {p : Program β} {f : β → Program γ} (hp : Tracks strict p)
    (hf : ∀ x, Tracks strict (f x)) : Tracks strict (p >>= f) := by
  intro before before' a b hab
  obtain ⟨hres, hnear⟩ := hp before before' a b hab
  rw [play_bind, play_bind]
  rcases hplay : p.play a with ⟨r, a'⟩
  rcases hplay' : p.play b with ⟨r', b'⟩
  rw [hplay, hplay'] at hres hnear
  cases hres
  rcases r with f | x
  · exact ⟨rfl, hnear⟩
  · exact hf x before before' a' b' hnear

theorem closed_tracks : Closed Program (Tracks strict) :=
  ⟨fun _ _ _ _ _ h => ⟨rfl, h⟩, tracks_bind⟩

/-- A program whose next steps are told by what is the same of near sessions. -/
theorem tracks_session {f : Session → Program β} (hf : ∀ s, Tracks strict (f s))
    (hsame : ∀ s t, s.Near strict t → f s = f t) : Tracks strict (session >>= f) := by
  intro before before' a b hab
  rw [play_bind, play_session, play_bind, play_session]
  dsimp only
  rw [hsame a.session b.session hab.session]
  exact hf b.session before before' a b hab

theorem tracks_evaluate (c : Construct) (site : Site) (args : Args Binary64) :
    Tracks strict (evaluate c site args) := by
  intro before before' a b hab
  have hclock :
      ((evaluate c site args).play a).2.clock = ((evaluate c site args).play b).2.clock := by
    rw [clock_play_evaluate, clock_play_evaluate, hab.clock]
  -- Near sessions refuse the same calls, and answer the others alike.
  rcases hab.session.evaluate c site args with ⟨f, ha, hb⟩ | ⟨o, s, t, ha, hb, hnear⟩
  · obtain ⟨hres, hsession, hprinted⟩ := session_play_evaluate_of_error ha
    obtain ⟨hres', hsession', hprinted'⟩ := session_play_evaluate_of_error hb
    refine ⟨hres.trans hres'.symm, ?_, hclock, ?_⟩
    · rw [hsession, hsession']
      exact hab.session
    · rw [hprinted, hprinted']
      exact hab.printed
  · obtain ⟨hres, hsession, hprinted⟩ := session_play_evaluate_of_ok ha
    obtain ⟨hres', hsession', hprinted'⟩ := session_play_evaluate_of_ok hb
    refine ⟨hres.trans hres'.symm, ?_, hclock, ?_⟩
    · rw [hsession, hsession']
      exact hnear
    · rw [hprinted, hprinted']
      exact hab.printed

theorem tracks_call (c : Construct) (view : Outcome Binary64 → Option β) (site : Site)
    (args : Args Binary64) : Tracks strict (call c view site args) := by
  apply tracks_bind (tracks_evaluate c site args)
  intro o before before' a b hab
  have hmisfit : misfit a.session c o = misfit b.session c o := by
    unfold misfit
    rw [hab.session.isReplaying]
  rw [play_expect, play_expect, hmisfit]
  rcases view o with _ | v
  · exact ⟨rfl, hab⟩
  · exact ⟨rfl, hab⟩

/-- A move of the session that is reported tracks. -/
theorem tracks_change (m : Move) (e : Event) :
    Tracks strict (do
      setSession (← ofExcept ((← session).accept m))
      report e) := by
  intro before before' a b hab
  rw [play_change (fun s => s.accept m) e a, play_change (fun s => s.accept m) e b]
  rcases hab.session.accept m with ⟨f, ha, hb⟩ | ⟨s, t, ha, hb, hnear⟩
  · rw [ha, hb]
    exact ⟨rfl, hab⟩
  · rw [ha, hb]
    exact ⟨rfl, hnear, hab.clock, hab.printed⟩

theorem Plain.tracks {p : Program β} (hp : p.Plain) : Tracks strict p := by
  induction hp with
  | pure a => exact fun before before' a b hab => ⟨rfl, hab⟩
  | throw hf => exact fun before before' a b hab => ⟨rfl, hab⟩
  | bind hp hf ihp ihf => exact tracks_bind ihp ihf
  -- Near sessions show a plain program the same.
  | look hf hsame ih => exact tracks_session ih fun s t hst => hsame s t hst.alike
  | report e => exact fun before before' a b hab => ⟨rfl, hab.session, hab.clock, hab.printed⟩
  | print line =>
    intro before before' a b hab
    obtain ⟨lines, ha, hb⟩ := hab.printed
    exact ⟨rfl, hab.session, hab.clock, line :: lines, congrArg (line :: ·) ha,
      congrArg (line :: ·) hb⟩
  | evaluate c site args => exact tracks_evaluate c site args
  | call hview site args => exact tracks_call _ _ site args
  | setPersonality name => exact tracks_change (.setPersonality name) .personalityChanged
  | setChaosLevel level => exact tracks_change (.setChaosLevel level) .chaosChanged
  | recordFallback message =>
    intro before before' a b hab
    rcases hab.session.accept .recordFallback with ⟨f, ha, -⟩ | ⟨s, t, ha, hb, hnear⟩
    · cases ha
    · cases ha
      cases hb
      exact ⟨rfl, hnear, hab.clock, hab.printed⟩

end Program

/-! ## Scripts -/

/-- The script does not ask for the auto-seeded flag. -/
def Script.HidesFlag {β : Type} : Script β → Prop
  | isAutoSeeded => False
  | attempt a next => a.HidesFlag ∧ ∀ r, (next r).HidesFlag
  | repeatWith _ _ body => ∀ i, (body i).HidesFlag
  | maybeForEach _ body _ => ∀ x, (body x).HidesFlag
  | operate _ | driftVar _ _ | timeDrift _ | look | now | setClock _ | reseed _ | restart _ _
  | startRecording | stopRecording | finishReplay | settle _ => True

open Program in
/-- Near hosts can be told apart by their flags alone. -/
theorem Script.tracks {strict : Prop} {β : Type} (c : Script β) (hc : strict ∨ c.HidesFlag) :
    Tracks strict c.program := by
  induction c with
  | operate op => exact op.plain.tracks
  | driftVar site nominal =>
    -- A variable starts from the clock alone.
    intro before before' a b hab
    refine ⟨?_, hab⟩
    show (.ok ⟨site, Aging.declared nominal a.clock.now⟩ : Except Fault DriftVar) = _
    rw [hab.clock]
    rfl
  | timeDrift v =>
    intro before before' a b hab
    obtain ⟨hres, hnear⟩ := tracks_call .timeDrift Outcome.asFloat? v.site
      (.drift (v.aging.touch b.clock.now).1) before before' a b hab
    rw [play_timeDrift, play_timeDrift, hab.clock]
    dsimp only
    rw [hres]
    exact ⟨rfl, hnear⟩
  | look => exact fun before before' a b hab => ⟨congrArg Except.ok hab.session.flagged, hab⟩
  | isAutoSeeded =>
    intro before before' a b hab
    -- The one step that reads the flag.
    rcases hc with hstrict | ⟨⟨⟩⟩
    refine ⟨?_, hab⟩
    show (.ok a.session.autoSeeded : Except Fault Bool) = _
    rw [hab.session.same hstrict]
    rfl
  | now =>
    intro before before' a b hab
    refine ⟨?_, hab⟩
    show (.ok a.clock.now : Except Fault Duration) = _
    rw [hab.clock]
    rfl
  | setClock clock =>
    exact fun before before' a b hab => ⟨rfl, hab.session, rfl, hab.printed⟩
  | reseed seed =>
    exact fun before before' a b hab =>
      ⟨rfl, hab.session.move (.reseed seed), hab.clock, hab.printed⟩
  | restart settings drawn =>
    show Tracks strict (Program.restart settings drawn)
    intro before before' a b hab
    rw [play_restart, play_restart]
    rcases hab.session.accept (.restart settings drawn) with ⟨f, ha, hb⟩ | ⟨s, t, ha, hb, hnear⟩
    · unfold Session.accept at ha hb
      dsimp only at ha hb
      rw [ha, hb]
      exact ⟨rfl, hab⟩
    · unfold Session.accept at ha hb
      dsimp only at ha hb
      rw [ha, hb]
      exact ⟨rfl, hnear, hab.clock, hab.printed⟩
  | startRecording => exact tracks_change .startRecording .recordingStarted
  | stopRecording =>
    intro before before' a b hab
    rw [Script.play_stopRecording, Script.play_stopRecording, Program.play_stopRecording,
      Program.play_stopRecording]
    exact ⟨congrArg Except.ok hab.session.stopRecording, hab.session.move .stopRecording, hab.clock,
      hab.printed⟩
  | finishReplay =>
    show Tracks strict Program.finishReplay
    intro before before' a b hab
    obtain ⟨journal, hplay⟩ := exists_play_finishReplay a
    obtain ⟨journal', hplay'⟩ := exists_play_finishReplay b
    rw [hplay, hplay']
    exact ⟨hab.session.finishReplay, hab.session.move .finishReplay, hab.clock, hab.printed⟩
  | settle r => exact fun before before' a b hab => ⟨rfl, hab⟩
  | attempt c next ihc ihnext =>
    show Tracks strict (c.program.attempt fun r => (next r).program)
    intro before before' a b hab
    obtain ⟨hres, hnear⟩ := ihc (hc.imp id And.left) before before' a b hab
    rw [play_attempt, play_attempt, hres]
    exact ihnext _ (hc.imp id fun h => h.2 _) before before' _ _ hnear
  | repeatWith site n body ih =>
    exact closed_tracks.repeatWith (Operation.kindaRepeat site n).plain.tracks
      fun i => ih i (hc.imp id fun h => h i)
  | maybeForEach site body items ih =>
    exact closed_tracks.maybeForEach (Operation.maybeFor site).plain.tracks
      (fun x => ih x (hc.imp id fun h => h x)) items

/-! ## Beginning again -/

/-- The script gives the same answer on both hosts, leaves the same session behind, log and all,
and prints the same lines. -/
structure Script.SameOn {β : Type} (c : Script β) (a b : Host) : Prop where
  answer : (c.program.play a).1 = (c.program.play b).1
  session : (c.program.play a).2.session = (c.program.play b).2.session
  printed : ∃ lines, (c.program.play a).2.printed = lines ++ a.printed ∧
    (c.program.play b).2.printed = lines ++ b.printed

/-- The script does the same on both hosts, up to the auto-seeded flag of session and log. -/
structure Script.AlikeOn {β : Type} (c : Script β) (a b : Host) : Prop where
  answer : (c.program.play a).1 = (c.program.play b).1
  session : (c.program.play a).2.session.flagged false = (c.program.play b).2.session.flagged false
  log : (c.program.play a).2.session.stopRecording.1.map (Log.flagged false) =
    (c.program.play b).2.session.stopRecording.1.map (Log.flagged false)
  printed : ∃ lines, (c.program.play a).2.printed = lines ++ a.printed ∧
    (c.program.play b).2.printed = lines ++ b.printed

namespace Host

variable {a b : Host}

theorem near_of_near {strict : Prop} (hsession : a.session.Near strict b.session)
    (hclock : a.clock = b.clock) : Near strict a.printed b.printed a b :=
  ⟨hsession, hclock, [], rfl, rfl⟩

theorem sameOn (hsession : a.session = b.session) (hclock : a.clock = b.clock) {β : Type}
    (c : Script β) : c.SameOn a b := by
  have hnear : a.session.Near True b.session := by
    rw [hsession]
    exact .refl _
  obtain ⟨hres, hend⟩ := c.tracks (.inl trivial) _ _ a b (near_of_near hnear hclock)
  exact ⟨hres, hend.session.same trivial, hend.printed⟩

theorem alikeOn (hsession : a.session.flagged false = b.session.flagged false)
    (hclock : a.clock = b.clock) {β : Type} {c : Script β} (hc : c.HidesFlag) :
    c.AlikeOn a b := by
  have htracks : Program.Tracks False c.program := c.tracks (.inr hc)
  obtain ⟨hres, hend⟩ := htracks _ _ a b (near_of_near ⟨hsession, False.elim⟩ hclock)
  exact ⟨hres, hend.session.flagged, hend.session.stopRecording, hend.printed⟩

/-- The program puts session `s` in place, and then every script does what it does on any other
host with that session and the same clock. -/
structure Begins (h : Host) (p : Program Unit) (s : Session) : Prop where
  play : ∃ journal, p.play h = (.ok (), { h with session := s, journal })
  same : ∀ fresh : Host, fresh.session = s → fresh.clock = h.clock →
    ∀ {β : Type} (c : Script β), c.SameOn (p.play h).2 fresh

/-- The program puts session `s` in place, but keeps the auto-seeded flag of the host. Every script
that does not ask for the flag then does what it does on any other host with session `s`. -/
structure BeginsFlagged (h : Host) (p : Program Unit) (s : Session) : Prop where
  play : ∃ journal,
    p.play h = (.ok (), { h with session := s.flagged h.session.autoSeeded, journal })
  alike : ∀ fresh : Host, fresh.session = s → fresh.clock = h.clock →
    ∀ {β : Type} (c : Script β), c.HidesFlag → c.AlikeOn (p.play h).2 fresh

variable {h : Host} {p : Program Unit} {s : Session} {journal : List Event}

theorem begins_of_play (hplay : p.play h = (.ok (), { h with session := s, journal })) :
    h.Begins p s := by
  refine ⟨⟨journal, hplay⟩, fun fresh hsession hclock β c => ?_⟩
  have hafter : (p.play h).2 = { h with session := s, journal } := by rw [hplay]
  apply sameOn
  · rw [hafter, hsession]
  · rw [hafter, hclock]

theorem beginsFlagged_of_play
    (hplay : p.play h = (.ok (), { h with session := s.flagged h.session.autoSeeded, journal })) :
    h.BeginsFlagged p s := by
  refine ⟨⟨journal, hplay⟩, fun fresh hsession hclock β c hc => ?_⟩
  have hafter : (p.play h).2 = { h with session := s.flagged h.session.autoSeeded, journal } := by
    rw [hplay]
  refine alikeOn ?_ ?_ hc
  · rw [hafter, hsession]
    exact Session.flagged_flagged false _ s
  · rw [hafter, hclock]

end Host

theorem Session.create_eq_of_seed {settings : Settings} {seed : UInt64}
    (h : settings.seed = some seed) (registry : Registry) (drawn drawn' : UInt64) :
    create settings registry drawn = create settings registry drawn' := by
  rw [create_eq, create_eq, h]
  rfl

/-- Whatever has been done on a host, a restart with a chosen seed puts a new session of its
settings in place, or changes nothing where there is no such session. Where no log is replayed, a
new seed or a new recording puts in place the new session of the settings that the old one has. -/
theorem Host.Reached.begins_afresh {registry : Registry} {h : Host} (hr : h.Reached registry) :
    (∀ settings seed drawn drawn', settings.seed = some seed →
      match Session.create settings registry drawn with
      | .ok s => h.Begins (Program.restart settings drawn') s
      | .error f => (Program.restart settings drawn').play h = (.error f, h)) ∧
    (h.session.isReplaying = false → ∀ seed drawn, ∃ s,
      Session.create (h.session.settings seed h.session.isRecording) registry drawn = .ok s ∧
        h.Begins (Program.reseed seed) s) ∧
    (h.session.isReplaying = false → ∀ drawn, ∃ s,
      Session.create (h.session.settings h.session.seed true) registry drawn = .ok s ∧
        h.BeginsFlagged Program.startRecording s) := by
  have hregistered := hr.registered
  refine ⟨?_, ?_, ?_⟩
  · intro settings seed drawn drawn' hseed
    have hplay := Program.play_restart settings drawn' h
    rw [Session.restart_eq_create, hregistered.registry,
      Session.create_eq_of_seed hseed registry drawn' drawn] at hplay
    rcases hcreate : Session.create settings registry drawn with f | s
    · rw [hcreate] at hplay
      exact hplay
    · rw [hcreate] at hplay
      exact begins_of_play hplay
  · intro hlive seed drawn
    refine ⟨_, hregistered.create_settings seed _ drawn, ?_⟩
    have hplay := Program.play_reseed seed h
    rw [Session.reseed_of_not_replaying hlive] at hplay
    exact begins_of_play hplay
  · intro hlive drawn
    refine ⟨_, hregistered.create_settings _ true drawn, ?_⟩
    have hplay := Program.play_startRecording h
    rw [Session.startRecording_eq hlive] at hplay
    exact beginsFlagged_of_play hplay

/-- A session with a drawn seed that has decided once records as a new one would. -/
theorem Host.Reached.begins_afresh_maybe :
    ∃ h : Host, h.Reached Registry.builtin ∧ h.session.next = 1 ∧ h.session.autoSeeded = true ∧
      ∃ s, Session.create (h.session.settings 7 true) Registry.builtin 0 = .ok s ∧
        h.BeginsFlagged Program.startRecording s := by
  obtain ⟨h₀, hcreate⟩ : ∃ h₀, Host.create Settings.standard Registry.builtin 7 Clock.zero =
      .ok h₀ := ⟨_, rfl⟩
  have hr := (Reached.create hcreate).run (.operate (.maybe ⟨1⟩ true))
  cases hcreate
  exact ⟨_, hr, by decide +kernel, by decide +kernel, hr.begins_afresh.2.2 (by decide +kernel) 0⟩

end Fickle

import Fickle.Proofs.Log.RoundTrip
import Fickle.Proofs.Program.Loops
import Fickle.Proofs.Program.Plain
import Fickle.Proofs.Replay.Echo

/-! # A replay is faithful

A client that is recorded and then replayed, from the log that was written and read back, sees the
same in every step, whatever the clock reads the second time.
-/

namespace Fickle

variable {β γ : Type}

/-! ## Actions -/

/-- Two worlds in which a client sees the same. -/
structure World.Alike (v w : World) : Prop where
  host : v.host.Alike w.host
  vars : v.vars.map DriftVar.shown = w.vars.map DriftVar.shown

theorem World.Alike.view {v w : World} (h : v.Alike w) : v.view = w.view := by
  have heffective : v.session.effective = w.session.effective := by
    funext c
    unfold Session.effective session
    rw [h.host.session.profile, h.host.session.chaos, h.host.session.instability]
  unfold World.view
  rw [heffective, h.host.printed, h.vars]
  unfold session
  rw [h.host.session.instability, h.host.session.tally, h.host.session.next]

namespace Act

/-- From a world that is recorded, `p` appends decisions with which it does the same in a world
where they are replayed. -/
def Echoes (p : Act β) : Prop :=
  ∀ (v : World) (log : Log), v.session.Records log → ∃ ds,
    (p.play v).2.session.Records (log.extend ds) ∧
    ∀ (w : World) (rest : List Decision), v.Alike w → w.session.Expects (ds ++ rest) →
      (p.play w).1 = (p.play v).1 ∧ (p.play v).2.Alike (p.play w).2 ∧
        (p.play w).2.session.Expects rest

/-- What draws nothing and changes only what a client sees alike is echoed. -/
theorem echoes_of_quiet {p : Act β} (hsession : ∀ w, (p.play w).2.session = w.session)
    (halike : ∀ v w, v.Alike w → (p.play w).1 = (p.play v).1 ∧ (p.play v).2.Alike (p.play w).2) :
    p.Echoes := by
  intro v log hv
  refine ⟨[], ?_, ?_⟩
  · rw [hsession, Log.extend_nil]
    exact hv
  · intro w rest hvw hw
    obtain ⟨hres, hafter⟩ := halike v w hvw
    refine ⟨hres, hafter, ?_⟩
    rw [hsession]
    exact hw

theorem echoes_settle (r : Except Fault β) : Echoes (ExceptT.mk (pure r)) :=
  echoes_of_quiet (fun _ => rfl) fun _ _ h => ⟨rfl, h⟩

theorem echoes_attempt {p : Act β} {f : Except Fault β → Act γ} (hp : p.Echoes)
    (hf : ∀ r, (f r).Echoes) : (p.attempt f).Echoes := by
  intro v log hv
  obtain ⟨ds, hrec, hecho⟩ := hp v log hv
  obtain ⟨ds', hrec', hecho'⟩ := hf (p.play v).1 (p.play v).2 (log.extend ds) hrec
  rw [Log.extend_extend] at hrec'
  refine ⟨ds ++ ds', hrec', ?_⟩
  intro w rest hvw hw
  rw [List.append_assoc] at hw
  obtain ⟨hres, halike, hrest⟩ := hecho w (ds' ++ rest) hvw hw
  have hplay (x : World) : (p.attempt f).play x = (f (p.play x).1).play (p.play x).2 := rfl
  rw [hplay, hplay, hres]
  exact hecho' (p.play w).2 rest halike hrest

theorem echoes_bind {p : Act β} {f : β → Act γ} (hp : p.Echoes) (hf : ∀ x, (f x).Echoes) :
    (p >>= f).Echoes := by
  have hbind : p >>= f = p.attempt fun
      | .ok x => f x
      | .error e => throw e := by
    funext w
    show (p >>= f).play w = Act.play (match (p.play w).1 with
      | .ok x => f x
      | .error e => throw e) (p.play w).2
    rw [play_bind]
    rcases p.play w with ⟨e | x, w'⟩
    · rfl
    · rfl
  rw [hbind]
  apply echoes_attempt hp
  rintro (e | x)
  · exact echoes_settle (.error e)
  · exact hf x

theorem echoes_ofProgram {p : Program β} (h : Program.Couples Args.Alike p p) :
    (ofProgram p).Echoes := by
  intro v log hv
  obtain ⟨ds, hrec, -, hecho⟩ := h.echoes v.host log hv
  refine ⟨ds, hrec, ?_⟩
  intro w rest hvw hw
  obtain ⟨hres, halike, hrest⟩ := hecho w.host rest hvw.host hw
  exact ⟨hres, ⟨halike, hvw.vars⟩, hrest⟩

theorem echoes_look : look.Echoes := by
  apply echoes_of_quiet
  · exact fun _ => rfl
  · intro v w h
    exact ⟨congrArg Except.ok h.view.symm, h⟩

theorem echoes_driftVar (site : Site) (nominal : Binary64) : (driftVar site nominal).Echoes := by
  apply echoes_of_quiet
  · exact fun _ => rfl
  · intro v w h
    have hlength := congrArg List.length h.vars
    rw [List.length_map, List.length_map] at hlength
    refine ⟨congrArg Except.ok hlength.symm, ⟨h.host.session, h.host.printed⟩, ?_⟩
    show (v.vars ++ [_]).map _ = (w.vars ++ [_]).map _
    rw [List.map_append, List.map_append, h.vars]
    rfl

theorem echoes_assign (i : Nat) (nominal : Binary64) (time : Duration → Duration) :
    (assign i nominal time).Echoes := by
  apply echoes_of_quiet
  · intro w
    rw [play_assign]
    rcases w.vars[i]? with _ | x
    · rfl
    · rfl
  · intro v w h
    rw [play_assign, play_assign]
    obtain ⟨hv, hw⟩ | ⟨x, y, hv, hw, hxy⟩ := DriftVar.getElem?_of_shown h.vars i
    · rw [hv, hw]
      exact ⟨rfl, h⟩
    · rw [hv, hw]
      refine ⟨rfl, ⟨h.host.session, h.host.printed⟩, DriftVar.map_shown_set h.vars i ?_⟩
      exact congrArg (fun t => (t.1, nominal, (0 : UInt64))) hxy

theorem echoes_timeDrift (i : Nat) : (timeDrift i).Echoes := by
  intro v log hv
  rcases hx : v.vars[i]? with _ | x
  · refine ⟨[], ?_, ?_⟩
    · rw [play_timeDrift, hx, Log.extend_nil]
      exact hv
    · intro w rest hvw hw
      obtain ⟨-, hy⟩ | ⟨_, _, hx', -⟩ := DriftVar.getElem?_of_shown hvw.vars i
      · rw [play_timeDrift, play_timeDrift, hx, hy]
        exact ⟨rfl, hvw, hw⟩
      · rw [hx] at hx'
        cases hx'
  · have hcouples {args args' : Args Binary64} (h : args.Alike args') :
        Program.Couples Args.Alike
          (Program.call .timeDrift Outcome.asFloat? x.site args)
          (Program.call .timeDrift Outcome.asFloat? x.site args') :=
      Program.couples_call (Program.fits_asFloat (by decide)) x.site h
    have hself := hcouples (.refl (.drift (x.aging.touch v.tick.host.clock.now).1))
    obtain ⟨ds, hrec, -⟩ := hself.echoes v.tick.host log hv
    refine ⟨ds, ?_, ?_⟩
    · rw [play_timeDrift, hx]
      exact hrec
    · intro w rest hvw hw
      obtain ⟨hx', -⟩ | ⟨x', y, hx', hy, hxy⟩ := DriftVar.getElem?_of_shown hvw.vars i
      · rw [hx] at hx'
        cases hx'
      rw [hx] at hx'
      cases hx'
      have hsite : y.site = x.site := (congrArg Prod.fst hxy).symm
      obtain ⟨hnominal, hshown⟩ :=
        DriftVar.touch_shown hxy v.tick.host.clock.now w.tick.host.clock.now
      -- The two reads differ in their times, so they are coupled with one another only now.
      obtain ⟨ds', hrec', -, hecho⟩ := (hcouples (.drift hnominal)).echoes v.tick.host log hv
      rw [hrec.extend_inj hrec'] at hw
      obtain ⟨hres, halike, hrest⟩ :=
        hecho w.tick.host rest ⟨hvw.host.session, hvw.host.printed⟩ hw
      rw [play_timeDrift, play_timeDrift, hx, hy]
      dsimp only
      rw [hsite] at hshown ⊢
      exact ⟨congrArg (Except.map some) hres, ⟨halike, DriftVar.map_shown_set hvw.vars i hshown⟩, hrest⟩

theorem closed_echoes : Program.Closed Act Echoes := ⟨fun a => echoes_settle (.ok a), echoes_bind⟩

end Act

theorem Action.echoes (a : Action β) : a.act.Echoes := by
  induction a with
  | operate op => exact Act.echoes_ofProgram (op.couples Args.Alike.refl)
  | driftVar site nominal => exact Act.echoes_driftVar site nominal
  | timeDrift i => exact Act.echoes_timeDrift i
  | assign i nominal time => exact Act.echoes_assign i nominal time
  | look => exact Act.echoes_look
  | settle r => exact Act.echoes_settle r
  | attempt a next iha ihnext => exact Act.echoes_attempt iha ihnext
  | repeatWith site n body ih =>
    exact Act.closed_echoes.repeatWith
      (Act.echoes_ofProgram ((Operation.kindaRepeat site n).couples Args.Alike.refl)) ih
  | maybeForEach site body items ih =>
    exact Act.closed_echoes.maybeForEach
      (Act.echoes_ofProgram ((Operation.maybeFor site).couples Args.Alike.refl)) ih items

/-! ## Runs -/

/-- Whatever a client does while it is recorded, it does again while that is replayed. -/
theorem Client.echoes (c : Client) (v : World) (log : Log) (hv : v.session.Records log) :
    ∃ ds, (c.play v).2.session.Records (log.extend ds) ∧
      ∀ (w : World) (rest : List Decision), v.Alike w → w.session.Expects (ds ++ rest) →
        (c.play w).1 = (c.play v).1 ∧ (c.play w).2.session.Expects rest := by
  induction c generalizing v log with
  | done =>
    refine ⟨[], ?_, fun w rest _ hw => ⟨rfl, hw⟩⟩
    rw [Log.extend_nil]
    exact hv
  | step a next ih =>
    obtain ⟨ds, hrec, hecho⟩ := a.echoes v log hv
    -- The client goes on by what it has seen, and it sees the same in the replay.
    obtain ⟨ds', hrec', hecho'⟩ := ih (a.act.play v).1 (a.act.play v).2.view (a.act.play v).2
      (log.extend ds) hrec
    rw [Log.extend_extend] at hrec'
    refine ⟨ds ++ ds', hrec', ?_⟩
    intro w rest hvw hw
    rw [List.append_assoc] at hw
    obtain ⟨hres, halike, hrest⟩ := hecho w (ds' ++ rest) hvw hw
    obtain ⟨hmoments, hend⟩ := hecho' (a.act.play w).2 rest halike hrest
    have hplay (x : World) : (step a next).play x =
        (⟨(a.act.play x).1, (a.act.play x).2.view⟩ ::
          ((next (a.act.play x).1 (a.act.play x).2.view).play (a.act.play x).2).1,
        ((next (a.act.play x).1 (a.act.play x).2.view).play (a.act.play x).2).2) := rfl
    rw [hplay, hplay, hres, ← halike.view]
    exact ⟨congrArg (_ :: ·) hmoments, hend⟩

/-! ## Beginnings and ends -/

namespace Session

variable {settings : Settings} {registry : Registry} {drawn : UInt64} {s : Session}

/-- The session that records from its start. -/
def recorder (s : Session) : Session :=
  { s.rewind s.seed s.autoSeeded with mode := .recording s.freshLog }

theorem startRecording_eq (h : s.isReplaying = false) : s.startRecording = .ok s.recorder := by
  unfold startRecording
  rw [h]
  rfl

theorem of_create_eq_ok (h : create settings registry drawn = .ok s) :
    registry.get settings.personality = .ok s.profile ∧ s.registry = registry ∧
      s.isReplaying = false := by
  simp only [create, bind_eq_ok_iff] at h
  obtain ⟨profile, hget, chaos, -, h⟩ := h
  split at h
  · rw [startRecording_eq rfl] at h
    cases h
    exact ⟨hget, rfl, rfl⟩
  · cases h
    exact ⟨hget, rfl, rfl⟩

theorem records_recorder (hprofile : s.profile.Sound)
    (hregistry : ∀ p ∈ s.registry.profiles, p.Sound) : s.recorder.Records s.freshLog where
  mode := rfl
  next := rfl
  profile := hprofile
  registry := hregistry
  storable := by
    rintro d ⟨hd⟩
    cases hd
  numbered := rfl

theorem alike_reader (s : Session) (ds : List Decision) (drift : DriftModel Binary64) :
    s.recorder.Alike { reader (s.freshLog.extend ds) s.registry s.profile with drift } :=
  ⟨rfl, rfl, rfl, rfl, rfl, rfl⟩

theorem expects_reader (s : Session) (ds : List Decision) (drift : DriftModel Binary64) :
    ({ reader (s.freshLog.extend ds) s.registry s.profile with drift } : Session).Expects
      (ds ++ []) := by
  refine ⟨_, 0, rfl, ?_⟩
  rw [Log.toList_extend, List.append_nil]
  rfl

/-- The decisions of a recording are numbered without a gap. -/
theorem Records.ascending {log : Log} (h : s.Records log) (hfits : log.Fits) :
    log.decisions.toList.Pairwise fun a b => a.seq < b.seq := by
  rw [← List.pairwise_map (f := Decision.seq) (R := (· < ·)), h.numbered, List.pairwise_map]
  apply List.Pairwise.imp_of_mem _ List.pairwise_lt_range
  intro i j hi hj hij
  rw [List.mem_range] at hi hj
  unfold Log.Fits Log.recordSize at hfits
  rw [UInt64.lt_iff_toNat_lt, UInt64.toNat_ofNat', UInt64.toNat_ofNat',
    Nat.mod_eq_of_lt (by omega), Nat.mod_eq_of_lt (by omega)]
  exact hij

theorem Records.readable {log : Log} (h : s.Records log)
    (hname : log.personality.utf8ByteSize ≤ Log.Header.maxNameLength) (hfits : log.Fits) :
    log.Readable :=
  ⟨hname, hfits, h.ascending hfits, h.storable⟩

theorem Records.fst_play_stopRecording {log : Log} {h : Host} (hs : h.session.Records log) :
    (Program.stopRecording.play h).1 = .ok (some log) := by
  rw [Program.fst_play_stopRecording]
  unfold stopRecording
  rw [hs.mode]

theorem Expects.remaining {s : Session} (h : s.Expects []) : s.remaining? = some 0 := by
  obtain ⟨log, k, hmode, hdrop⟩ := h
  have hle : log.size ≤ k := List.drop_eq_nil_iff.mp hdrop
  unfold remaining?
  rw [hmode]
  exact congrArg some (Nat.sub_eq_zero_of_le hle)

theorem Expects.fst_play_finishReplay {h : Host} (hs : h.session.Expects []) :
    (Program.finishReplay.play h).1 = .ok () := by
  obtain ⟨log, k, hmode, hdrop⟩ := hs
  have hle : log.size ≤ k := List.drop_eq_nil_iff.mp hdrop
  rw [Program.fst_play_finishReplay]
  unfold finishReplay
  rw [hmode]
  exact if_neg (Nat.not_lt.mpr hle)

end Session

theorem Host.of_create_eq_ok {settings : Settings} {registry : Registry} {drawn : UInt64}
    {clock : Clock} {h : Host} (hcreate : create settings registry drawn clock = .ok h) :
    Session.create settings registry drawn = .ok h.session ∧ h.printed = [] := by
  obtain ⟨s, hs, hhost⟩ := bind_eq_ok_iff.mp hcreate
  cases hhost
  exact ⟨hs, rfl⟩

theorem Host.exists_recorder (h : Host) (hlive : h.session.isReplaying = false) :
    ∃ h', Program.startRecording.play h = (.ok (), h') ∧ h'.session = h.session.recorder ∧
      h'.printed = h.printed := by
  rw [Program.play_startRecording, Session.startRecording_eq hlive]
  exact ⟨_, rfl, rfl, rfl⟩

/-- In this world a client comes upon the given moments, and uses the replayed log up. -/
structure Client.Repeats (c : Client) (moments : List Moment) (w : World) : Prop where
  moments : (c.play w).1 = moments
  remaining : (c.play w).2.session.remaining? = some 0
  finish : (Program.finishReplay.play (c.play w).2.host).1 = .ok ()

/-- A recorded client is replayed from the bytes of its log: every step gives the same answer and
the same view again, whatever the clock reads and however values drift. The log can be read back as
long as its bytes can be counted. -/
theorem Client.replay_repeats_recording {registry : Registry} (hbuilt : registry.Built)
    {settings : Settings} (hname : settings.personality.utf8ByteSize ≤ 255) {drawn : UInt64}
    {clock : Clock} {h₀ : Host} (hcreate : Host.create settings registry drawn clock = .ok h₀)
    (client : Client) (readings : Nat → Duration) :
    ∃ h₁ log bs,
      Program.startRecording.play h₀ = (.ok (), h₁) ∧
      (Program.stopRecording.play (client.play (.ofHost h₁ readings)).2.host).1 =
        .ok (some log) ∧
      log.encode = .ok bs ∧
      (log.Fits → Log.decode bs = .ok log ∧
        ∃ s, Session.replay log registry = .ok s ∧
          ∀ (drift : DriftModel Binary64) (clock' : Clock) (readings' : Nat → Duration),
            client.Repeats (client.play (.ofHost h₁ readings)).1
              (.ofHost (Host.ofSession { s with drift } clock') readings')) := by
  obtain ⟨hs, hnone⟩ := Host.of_create_eq_ok hcreate
  obtain ⟨hget, rfl, hlive⟩ := Session.of_create_eq_ok hs
  obtain ⟨hprofile, hpersonality⟩ := Registry.mem_of_get hget
  have hregistry := hbuilt.sound
  have hrecords := Session.records_recorder (hregistry _ hprofile) hregistry
  obtain ⟨h₁, hstart, hsession, hprinted⟩ := Host.exists_recorder h₀ hlive
  rw [← hsession] at hrecords
  obtain ⟨ds, hrec, hecho⟩ := client.echoes (.ofHost h₁ readings) h₀.session.freshLog hrecords
  have hpersonality' : (h₀.session.freshLog.extend ds).personality = settings.personality :=
    hpersonality
  -- The log names the personality of the settings, so it is as short, and registered.
  rw [← hpersonality'] at hname hget
  refine ⟨h₁, _, _, hstart, hrec.fst_play_stopRecording,
    (Log.encode_eq_ok_iff _ _).mpr ⟨hname, rfl⟩, ?_⟩
  intro hfits
  refine ⟨Log.decode_sealed (hrec.readable hname hfits) (Log.hasUnknown_flags _)
    (Log.isAutoSeeded_flags _), _, Session.replay_eq hget, ?_⟩
  intro drift clock' readings'
  -- A drift model of its own does not tell the session that replays apart.
  have halike := h₀.session.alike_reader ds drift
  rw [← hsession] at halike
  rw [hnone] at hprinted
  obtain ⟨hmoments, hend⟩ := hecho (.ofHost (Host.ofSession _ clock') readings') []
    ⟨⟨halike, hprinted⟩, rfl⟩ (h₀.session.expects_reader ds drift)
  exact ⟨hmoments, hend.remaining, hend.fst_play_finishReplay⟩

/-- Reads a drifting variable, and then leaves a choice to chance. -/
def Client.driftThenMaybe : Client :=
  step (.driftVar ⟨1⟩ ⟨0x4000000000000000⟩) fun _ _ =>
    step (.timeDrift 0) fun _ _ =>
      step (.operate (.maybe ⟨2⟩ true)) fun _ _ => done

/-- A variable that is read a day later in the replay reads the same. -/
theorem Client.replay_repeats_recording_driftThenMaybe :
    ∃ h₀, Host.create Settings.standard Registry.builtin 7 Clock.zero = .ok h₀ ∧
      ∃ h₁ log s, Program.startRecording.play h₀ = (.ok (), h₁) ∧ log.size = 2 ∧
        Session.replay log Registry.builtin = .ok s ∧
        driftThenMaybe.Repeats (driftThenMaybe.play (.ofHost h₁ fun _ => Duration.zero)).1
          (.ofHost (Host.ofSession { s with drift := DriftModel.volatile } Clock.zero)
            fun _ => Duration.ofSecs 86400) := by
  obtain ⟨h₀, hcreate⟩ : ∃ h₀,
      Host.create Settings.standard Registry.builtin 7 Clock.zero = .ok h₀ := ⟨_, rfl⟩
  obtain ⟨h₁, log, bs, hstart, hstop, -, hreplay⟩ := replay_repeats_recording .builtin
    (show Settings.standard.personality.utf8ByteSize ≤ 255 by decide) hcreate driftThenMaybe
    fun _ => Duration.zero
  have hsize : log.size = 2 := by
    cases hcreate
    cases hstart
    cases hstop
    rfl
  have hfits : log.Fits := by
    unfold Log.Fits
    rw [hsize]
    decide
  obtain ⟨-, s, hs, hrepeats⟩ := hreplay hfits
  exact ⟨h₀, hcreate, h₁, log, s, hstart, hsize, hs, hrepeats _ _ _⟩

end Fickle

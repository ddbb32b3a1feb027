import Fickle.Proofs.Profile
import Fickle.Proofs.Log.Codec
import Fickle.Proofs.Replay.Couple
import Fickle.Proofs.Replay.Lookup

/-! # A replay echoes the recording

Of two coupled programs, the first runs on a host that records, the second on a host that replays
what the first one records. They give the same results, and the hosts go on looking the same.
-/

namespace Fickle

/-! ## Growing logs -/

namespace Log

def extend (l : Log) (ds : List Decision) : Log :=
  { l with decisions := l.decisions ++ ds.toArray }

theorem toList_extend (l : Log) (ds : List Decision) :
    (l.extend ds).decisions.toList = l.decisions.toList ++ ds := by
  simp [extend]

theorem mem_extend {l : Log} {ds : List Decision} {d : Decision} :
    d ∈ (l.extend ds).decisions ↔ d ∈ l.decisions ∨ d ∈ ds := by
  simp [extend]

theorem extend_nil (l : Log) : l.extend [] = l := by
  simp [extend]

theorem extend_extend (l : Log) (ds ds' : List Decision) :
    (l.extend ds).extend ds' = l.extend (ds ++ ds') := by
  simp [extend]

theorem push_eq_extend (l : Log) (d : Decision) : l.push d = l.extend [d] := by
  simp [push, extend]

theorem extend_inj {l : Log} {ds ds' : List Decision} (h : l.extend ds = l.extend ds') :
    ds = ds' := by
  have hlist : (l.extend ds).decisions.toList = (l.extend ds').decisions.toList := by rw [h]
  rw [toList_extend, toList_extend] at hlist
  exact List.append_cancel_left hlist

end Log

/-! ## The two sides -/

namespace Session

/-- The session records into `log`, and what it has recorded can be read back. -/
structure Records (log : Log) (s : Session) : Prop where
  mode : s.mode = .recording log
  next : s.next = log.size
  profile : s.profile.Sound
  registry : ∀ p ∈ s.registry.profiles, p.Sound
  storable : ∀ d ∈ log.decisions, d.Storable
  numbered : log.decisions.toList.map Decision.seq = (List.range log.size).map UInt64.ofNat

/-- The session replays a log of which `rest` is still to come. -/
def Expects (rest : List Decision) (s : Session) : Prop :=
  ∃ log k, s.mode = .replaying ⟨log, k⟩ ∧ log.decisions.toList.drop k = rest

theorem Alike.refl (s : Session) : s.Alike s := ⟨rfl, rfl, rfl, rfl, rfl, rfl⟩

/-- Where the outcomes come from is not seen. -/
theorem Alike.move {s t : Session} (h : s.Alike t) (stream : Stream) (mode : Mode) :
    ({ s with stream } : Session).Alike { t with mode } :=
  ⟨h.registry, h.profile, h.chaos, h.instability, h.next, h.tally⟩

/-- Only the luck of a decision is seen, wherever the decision comes from. -/
theorem Alike.book {s t : Session} (h : s.Alike t) (d d' : Decision) (l : Luck) :
    (s.book d l).Alike (t.book d' l) where
  registry := h.registry
  profile := h.profile
  chaos := h.chaos
  instability := congrArg (Instability.record · l) h.instability
  next := congrArg (· + 1) h.next
  tally := congrArg (Tally.record · l) h.tally

theorem evaluate_of_check_eq_error {c : Construct} {args : Args Binary64} {f : Fault}
    (h : args.check c = .error f) (s : Session) (site : Site) :
    s.evaluate c site args = .error f := by
  unfold evaluate
  rw [h]
  rfl

theorem evaluate_of_not_replaying {s : Session} (h : s.isReplaying = false) (c : Construct)
    (site : Site) (args : Args Binary64) :
    s.evaluate c site args = match args.check c with
      | .error f => .error f
      | .ok () =>
        let o := (sample c args (s.setting c) s.stream).1
        let s' : Session := { s with stream := (sample c args (s.setting c) s.stream).2 }
        .ok (o, s'.book ⟨UInt64.ofNat s.next, site, c, s.effective c, o⟩
          (luck c args o s.profile)) := by
  unfold evaluate resolve
  unfold isReplaying at h
  rcases args.check c with f | ⟨⟩
  · rfl
  rcases hmode : s.mode with _ | log | cursor
  · rfl
  · rfl
  · rw [hmode] at h
    cases h

theorem Expects.evaluate {s : Session} {d : Decision} {rest : List Decision}
    (h : s.Expects (d :: rest)) {args : Args Binary64} (hargs : args.check d.construct = .ok ()) :
    ∃ m : Mode,
      s.evaluate d.construct d.site args = .ok (d.outcome, ({ s with mode := m } : Session).book
        { d with seq := UInt64.ofNat s.next } (luck d.construct args d.outcome s.profile)) ∧
      ∀ (d' : Decision) (l : Luck), (({ s with mode := m } : Session).book d' l).Expects rest := by
  obtain ⟨log, k, hmode, hdrop⟩ := h
  obtain ⟨hget, hdrop⟩ := Log.drop_eq_cons_iff.mp hdrop
  have hlookup : log.lookup k s.next d.construct d.site args = .ok d :=
    Log.lookup_eq_ok_iff.mpr ⟨hargs, hget, rfl, rfl⟩
  refine ⟨.replaying ⟨log, k + 1⟩, ?_, fun _ _ => ⟨log, k + 1, rfl, hdrop⟩⟩
  rw [evaluate_of_replaying hmode, hlookup]

theorem Records.isReplaying {log : Log} {s : Session} (h : s.Records log) :
    s.isReplaying = false := by
  unfold Session.isReplaying
  rw [h.mode]

/-- What has been recorded is told by the session. -/
theorem Records.extend_inj {log : Log} {s : Session} {ds ds' : List Decision}
    (h : s.Records (log.extend ds)) (h' : s.Records (log.extend ds')) : ds = ds' := by
  have hmode : Mode.recording (log.extend ds) = Mode.recording (log.extend ds') :=
    h.mode.symm.trans h'.mode
  rw [Mode.recording.injEq] at hmode
  exact Log.extend_inj hmode

/-- Booking a drawn decision keeps the log one that is read back. -/
theorem Records.book {log : Log} {s : Session} (h : s.Records log) {c : Construct}
    {args : Args Binary64} (hargs : args.check c = .ok ()) (site : Site) (stream : Stream)
    (g : Stream) (l : Luck) :
    let o := (sample c args (s.setting c) g).1
    let d : Decision := ⟨UInt64.ofNat s.next, site, c, s.effective c, o⟩
    (({ s with stream } : Session).book d l).Records (log.extend [d]) := by
  intro o d
  refine ⟨?_, ?_, h.profile, h.registry, ?_, ?_⟩
  · unfold Session.book
    dsimp only
    rw [h.mode, ← Log.push_eq_extend]
  · have hsize : (log.extend [d]).size = log.size + 1 := by simp [Log.extend, Log.size]
    rw [hsize, ← h.next]
    rfl
  · intro x hx
    rcases Log.mem_extend.mp hx with hx | hx
    · exact h.storable x hx
    · rw [List.mem_singleton.mp hx]
      exact ⟨h.profile.within_effective c s.chaos s.instability,
        Construct.Yields.ternary (yields_sample hargs (s.setting c) g)⟩
  · have hsize : (log.extend [d]).size = log.size + 1 := by simp [Log.extend, Log.size]
    have hseq : d.seq = UInt64.ofNat log.size := by rw [← h.next]
    rw [hsize, Log.toList_extend, List.map_append, h.numbered, List.range_succ, List.map_append,
      List.map_singleton, List.map_singleton, hseq]

end Session

namespace Program

variable {α β : Type}

/-- From a host that records, `p` appends decisions with which `q` gives the same on a host that
replays them. A result of `p` satisfies `P`. -/
def Echoes (P : α → Prop) (p q : Program α) : Prop :=
  ∀ (a : Host) (log : Log), a.session.Records log → ∃ ds,
    (p.play a).2.session.Records (log.extend ds) ∧
    (∀ x, (p.play a).1 = .ok x → P x) ∧
    ∀ (b : Host) (rest : List Decision), a.Alike b → b.session.Expects (ds ++ rest) →
      (q.play b).1 = (p.play a).1 ∧ (p.play a).2.Alike (q.play b).2 ∧
        (q.play b).2.session.Expects rest

theorem echoes_bind {P : α → Prop} {Q : β → Prop} {p q : Program α} {f g : α → Program β}
    (hp : Echoes P p q) (hf : ∀ x, P x → Echoes Q (f x) (g x)) :
    Echoes Q (p >>= f) (q >>= g) := by
  intro a log ha
  obtain ⟨ds, hrec, hP, hecho⟩ := hp a log ha
  rw [play_bind]
  -- Where the first part fails, the rest is not run on either side.
  rcases hplay : p.play a with ⟨e | x, a'⟩
  · rw [hplay] at hrec hecho
    refine ⟨ds, hrec, fun x hx => (by cases hx), ?_⟩
    intro b rest hab hb
    obtain ⟨hres, halike, hrest⟩ := hecho b rest hab hb
    rcases hq : q.play b with ⟨r, b'⟩
    rw [hq] at hres halike hrest
    cases hres
    rw [play_bind, hq]
    exact ⟨rfl, halike, hrest⟩
  · rw [hplay] at hrec hecho hP
    obtain ⟨ds', hrec', hQ, hecho'⟩ := hf x (hP x rfl) a' (log.extend ds) hrec
    rw [Log.extend_extend] at hrec'
    refine ⟨ds ++ ds', hrec', hQ, ?_⟩
    intro b rest hab hb
    rw [List.append_assoc] at hb
    obtain ⟨hres, halike, hrest⟩ := hecho b (ds' ++ rest) hab hb
    rcases hq : q.play b with ⟨r, b'⟩
    rw [hq] at hres halike hrest
    cases hres
    rw [play_bind, hq]
    exact hecho' b' rest halike hrest

theorem session_play_evaluate_of_error {c : Construct} {site : Site} {args : Args Binary64}
    {f : Fault} {h : Host} (hf : h.session.evaluate c site args = .error f) :
    ((evaluate c site args).play h).1 = .error f ∧
      ((evaluate c site args).play h).2.session = h.session ∧
      ((evaluate c site args).play h).2.printed = h.printed := by
  rw [play_evaluate, hf]
  dsimp only
  split
  · exact ⟨rfl, rfl, rfl⟩
  · exact ⟨rfl, rfl, rfl⟩

theorem session_play_evaluate_of_ok {c : Construct} {site : Site} {args : Args Binary64}
    {o : Outcome Binary64} {s : Session} {h : Host}
    (ho : h.session.evaluate c site args = .ok (o, s)) :
    ((evaluate c site args).play h).1 = .ok o ∧
      ((evaluate c site args).play h).2.session = s ∧
      ((evaluate c site args).play h).2.printed = h.printed := by
  rw [play_evaluate, ho]
  dsimp only
  split
  · exact ⟨rfl, rfl, rfl⟩
  · exact ⟨rfl, rfl, rfl⟩

theorem echoes_evaluate (c : Construct) (site : Site) {args args' : Args Binary64}
    (hargs : args.Alike args') :
    Echoes (c.Yields ·) (evaluate c site args) (evaluate c site args') := by
  intro a log ha
  rcases hcheck : args.check c with f | ⟨⟩
  · -- Refused on both sides, and nothing is recorded.
    have hcheck' : args'.check c = .error f := by rw [← hargs.check c, hcheck]
    obtain ⟨hres, hsession, hprinted⟩ := session_play_evaluate_of_error
      (Session.evaluate_of_check_eq_error hcheck a.session site)
    refine ⟨[], ?_, ?_, ?_⟩
    · rw [hsession, Log.extend_nil]
      exact ha
    · intro x hx
      rw [hres] at hx
      cases hx
    · intro b rest hab hb
      obtain ⟨hres', hsession', hprinted'⟩ := session_play_evaluate_of_error
        (Session.evaluate_of_check_eq_error hcheck' b.session site)
      refine ⟨hres'.trans hres.symm, ⟨?_, ?_⟩, ?_⟩
      · rw [hsession, hsession']
        exact hab.session
      · rw [hprinted, hprinted', hab.printed]
      · rw [hsession']
        exact hb
  · have heval := Session.evaluate_of_not_replaying ha.isReplaying c site args
    rw [hcheck] at heval
    obtain ⟨hres, hsession, hprinted⟩ := session_play_evaluate_of_ok heval
    -- What is drawn here is the next thing that the other host expects.
    have hrec := ha.book hcheck site (sample c args (a.session.setting c) a.session.stream).2
      a.session.stream
    have hyields := yields_sample hcheck (a.session.setting c) a.session.stream
    generalize (sample c args (a.session.setting c) a.session.stream).1 = o
      at hres hsession hrec hyields
    refine ⟨[⟨UInt64.ofNat a.session.next, site, c, a.session.effective c, o⟩], ?_, ?_, ?_⟩
    · rw [hsession]
      exact hrec _
    · intro x hx
      rw [hres] at hx
      cases hx
      exact hyields
    · intro b rest hab hb
      rw [hargs.check c] at hcheck
      obtain ⟨m, heval', hrest⟩ := Session.Expects.evaluate hb hcheck
      obtain ⟨hres', hsession', hprinted'⟩ := session_play_evaluate_of_ok heval'
      have hluck : luck c args' o b.session.profile = luck c args o a.session.profile := by
        rw [← hab.session.profile, ← hargs.luck]
      refine ⟨hres'.trans hres.symm, ⟨?_, ?_⟩, ?_⟩
      · rw [hsession, hsession', hluck]
        exact (hab.session.move _ _).book _ _ _
      · rw [hprinted, hprinted', hab.printed]
      · rw [hsession']
        exact hrest _ _

theorem echoes_setPersonality (name : String) :
    Echoes (fun _ => True) (setPersonality name) (setPersonality name) := by
  intro a log ha
  rw [play_setPersonality]
  rcases hget : a.session.registry.get name with f | profile
  · refine ⟨[], ha, fun _ _ => trivial, fun b rest hab hb => ?_⟩
    rw [play_setPersonality, ← hab.session.registry, hget]
    exact ⟨rfl, hab, hb⟩
  · have hsound := ha.registry profile (Registry.mem_of_get hget).1
    refine ⟨[], ⟨ha.mode, ha.next, hsound, ha.registry, ha.storable, ha.numbered⟩,
      fun _ _ => trivial, fun b rest hab hb => ?_⟩
    rw [play_setPersonality, ← hab.session.registry, hget]
    exact ⟨rfl, ⟨⟨hab.session.registry, rfl, hab.session.chaos, hab.session.instability,
      hab.session.next, hab.session.tally⟩, hab.printed⟩, hb⟩

theorem echoes_setChaosLevel (level : UInt8) :
    Echoes (fun _ => True) (setChaosLevel level) (setChaosLevel level) := by
  intro a log ha
  rw [play_setChaosLevel]
  rcases hget : ChaosLevel.ofNat level with f | chaos
  · refine ⟨[], ha, fun _ _ => trivial, fun b rest hab hb => ?_⟩
    rw [play_setChaosLevel, hget]
    exact ⟨rfl, hab, hb⟩
  · refine ⟨[], ⟨ha.mode, ha.next, ha.profile, ha.registry, ha.storable, ha.numbered⟩,
      fun _ _ => trivial, fun b rest hab hb => ?_⟩
    rw [play_setChaosLevel, hget]
    exact ⟨rfl, ⟨⟨hab.session.registry, hab.session.profile, rfl, hab.session.instability,
      hab.session.next, hab.session.tally⟩, hab.printed⟩, hb⟩

theorem echoes_recordFallback (m m' : String) :
    Echoes (fun _ => True) (recordFallback m) (recordFallback m') := by
  intro a log ha
  refine ⟨[], ⟨ha.mode, ha.next, ha.profile, ha.registry, ha.storable, ha.numbered⟩,
    fun _ _ => trivial, fun b rest hab hb => ?_⟩
  refine ⟨rfl, ⟨⟨hab.session.registry, hab.session.profile, hab.session.chaos, ?_,
    hab.session.next, ?_⟩, hab.printed⟩, hb⟩
  · exact congrArg (Instability.record · .unfavorable) hab.session.instability
  · exact congrArg (fun t : Tally => { t with fallbacks := t.fallbacks + 1 }) hab.session.tally

/-- A program that looks at its session sees the same on both sides. -/
theorem echoes_session {f g : Session → Program α}
    (h : ∀ s t, s.Alike t → Echoes (fun _ => True) (f s) (g t)) :
    Echoes (fun _ => True) (session >>= f) (session >>= g) := by
  intro a log ha
  rw [play_bind, play_session]
  obtain ⟨ds, hrec, -, -⟩ := h a.session a.session (Session.Alike.refl _) a log ha
  refine ⟨ds, hrec, fun _ _ => trivial, fun b rest hab hb => ?_⟩
  rw [play_bind, play_session]
  -- What is recorded depends on the first program alone, not on the one it is coupled with.
  obtain ⟨ds', hrec', -, hecho⟩ := h a.session b.session hab.session a log ha
  rw [hrec.extend_inj hrec'] at hb
  exact hecho b rest hab hb

theorem Couples.echoes {p q : Program α} (h : Couples Args.Alike p q) :
    Echoes (fun _ => True) p q := by
  induction h with
  | pure x =>
    intro a log ha
    exact ⟨[], ha, fun _ _ => trivial, fun b rest hab hb => ⟨rfl, hab, hb⟩⟩
  | throw f =>
    intro a log ha
    exact ⟨[], ha, fun _ _ => trivial, fun b rest hab hb => ⟨rfl, hab, hb⟩⟩
  | bind hp hf ihp ihf => exact echoes_bind ihp fun x _ => ihf x
  | session h ih => exact echoes_session ih
  | report e e' =>
    intro a log ha
    exact ⟨[], ha, fun _ _ => trivial, fun b rest hab hb => ⟨rfl, ⟨hab.session, hab.printed⟩, hb⟩⟩
  | print line =>
    intro a log ha
    refine ⟨[], ha, fun _ _ => trivial, fun b rest hab hb => ⟨rfl, ⟨hab.session, ?_⟩, hb⟩⟩
    exact congrArg (line :: ·) hab.printed
  | evaluate c site hargs h ih => exact echoes_bind (echoes_evaluate c site hargs) ih
  | setPersonality name => exact echoes_setPersonality name
  | setChaosLevel level => exact echoes_setChaosLevel level
  | recordFallback m m' => exact echoes_recordFallback m m'

end Program

end Fickle

import Fickle.Proofs.Cascade
import Fickle.Proofs.Session.Beginning

/-! # Luck is accounted for

The counters and the instability of a session sum up the luck that it has met with since its run
began, where a fallback counts as one more unfavorable outcome. The level is at most the
unfavorable ones, and it makes up for at most one of them with every two favorable ones.
-/

namespace Fickle

/-! ## Levels and counts -/

namespace Instability

variable {i : Instability} {history : List Luck}

/-- Whenever bad luck strikes, the level has room to rise. -/
def Unsaturated (i : Instability) (history : List Luck) : Prop :=
  ∀ before, before ++ [.unfavorable] <+: history →
    (i.recordAll before).level.toNat + 1 < UInt32.size

theorem Unsaturated.tail {l : Luck} (h : i.Unsaturated (l :: history)) :
    (i.record l).Unsaturated history :=
  fun before hbefore => h (l :: before) (List.cons_prefix_cons.mpr ⟨rfl, hbefore⟩)

theorem level_le_count (hi : i.run < decayRun) (history : List Luck) :
    (i.recordAll history).level.toNat ≤ i.level.toNat + history.count .unfavorable := by
  induction history generalizing i with
  | nil => exact Nat.le_add_right _ _
  | cons l history ih =>
    have hrest := ih (run_record_lt hi l)
    rw [List.count_cons]
    show ((i.record l).recordAll history).level.toNat ≤ _
    cases l with
    | favorable =>
      rcases record_favorable hi with ⟨-, hlevel, -⟩ | ⟨-, hlevel, -⟩ <;> rw [hlevel] at hrest <;>
        simp <;> omega
    | unfavorable =>
      rw [level_record_unfavorable] at hrest
      simp
      omega
    | neutral =>
      rw [record_neutral] at hrest ⊢
      simpa using hrest

/-- Two favorable outcomes make up for one that is unfavorable, the run so far included. -/
theorem count_le_level (hi : i.run < decayRun) (hroom : i.Unsaturated history) :
    2 * (i.level.toNat + history.count .unfavorable) + (i.recordAll history).run ≤
      2 * (i.recordAll history).level.toNat + history.count .favorable + i.run := by
  induction history generalizing i with
  | nil => simp [recordAll]
  | cons l history ih =>
    have hrest := ih (run_record_lt hi l) hroom.tail
    rw [List.count_cons, List.count_cons]
    show 2 * _ + ((i.record l).recordAll history).run ≤
      2 * ((i.record l).recordAll history).level.toNat + _ + _
    cases l with
    | favorable =>
      -- The second one in a row takes a point away, or finds none to take.
      rcases record_favorable hi with ⟨hrun, hlevel, hrun'⟩ | ⟨hrun, hlevel, hrun'⟩ <;>
        rw [hlevel, hrun'] at hrest <;> simp <;> omega
    | unfavorable =>
      have hrise : i.level.toNat + 1 < UInt32.size := hroom [] (by simp)
      rw [level_record_unfavorable, run_record_unfavorable] at hrest
      simp
      omega
    | neutral =>
      rw [record_neutral] at hrest ⊢
      simpa using hrest

theorem unsaturated_of_count_lt (hfew : history.count .unfavorable < UInt32.size) :
    calm.Unsaturated history := by
  intro before hbefore
  have hlevel := level_le_count (i := calm) (by decide) before
  have hcount := hbefore.sublist.count_le .unfavorable
  simp at hcount
  have hcalm : calm.level.toNat = 0 := rfl
  omega

end Instability

namespace Session

/-! ## Histories -/

/-- The luck since the run began, after one more move that is accepted. -/
def chronicle (s : Session) (history : List Luck) : Move → List Luck
  | .evaluate c site args =>
    match s.evaluate c site args with
    | .ok (o, _) => history ++ [luck c args o s.profile]
    | .error _ => history
  | .recordFallback => history ++ [.unfavorable]
  | .setPersonality _ | .setChaosLevel _ | .stopRecording | .finishReplay => history
  | .reseed _ | .restart _ _ | .startRecording => []

/-- The session may have come about with just this luck since its run began. -/
inductive Met (registry : Registry) : Session → List Luck → Prop where
  | create {settings : Settings} {drawn : UInt64} {s : Session}
      (h : create settings registry drawn = .ok s) : Met registry s []
  | replay {log : Log} {s : Session} (h : replay log registry = .ok s) : Met registry s []
  | move {s t : Session} {m : Move} {history : List Luck} (h : Met registry s history)
      (hmove : s.accept m = .ok t) : Met registry t (s.chronicle history m)

structure SumsUp (s : Session) (history : List Luck) : Prop where
  instability : s.instability = Instability.calm.recordAll history
  favorable : s.tally.favorable = history.count .favorable
  neutral : s.tally.neutral = history.count .neutral
  unfavorable : s.tally.unfavorable + s.tally.fallbacks = history.count .unfavorable
  decisions : s.tally.decisions = s.tally.favorable + s.tally.unfavorable + s.tally.neutral
  next : s.next = s.tally.decisions

variable {registry : Registry} {s t : Session} {history : List Luck}

/-! ## Moves -/

theorem SumsUp.congr (h : s.SumsUp history) (hinstability : t.instability = s.instability)
    (htally : t.tally = s.tally) (hnext : t.next = s.next) : t.SumsUp history := by
  obtain ⟨hi, hf, hn, hu, hd, hs⟩ := h
  refine ⟨hinstability.trans hi, ?_, ?_, ?_, ?_, ?_⟩ <;> simpa [htally, hnext]

theorem sumsUp_of_fresh (hinstability : s.instability = Instability.calm)
    (htally : s.tally = Tally.zero) (hnext : s.next = 0) : s.SumsUp [] := by
  refine ⟨hinstability, ?_, ?_, ?_, ?_, ?_⟩ <;> simp [htally, hnext, Tally.zero]

theorem sumsUp_of_create {settings : Settings} {drawn : UInt64}
    (h : create settings registry drawn = .ok s) : s.SumsUp [] := by
  obtain ⟨profile, chaos, -, -, rfl⟩ := of_create_eq_opened h
  exact sumsUp_of_fresh rfl rfl rfl

theorem SumsUp.book (h : s.SumsUp history) (stream : Stream) (mode : Mode) (d : Decision)
    (l : Luck) :
    (({ s with stream, mode } : Session).book d l).SumsUp (history ++ [l]) := by
  obtain ⟨hi, hf, hn, hu, hd, hs⟩ := h
  refine ⟨?_, ?_, ?_, ?_, ?_, ?_⟩
  · show s.instability.record l = _
    simp [hi, Instability.recordAll]
  all_goals
    show _ = _
    cases l <;> simp [Session.book, Tally.record] <;> omega

theorem SumsUp.evaluate (h : s.SumsUp history) {c : Construct} {site : Site}
    {args : Args Binary64} {o : Outcome Binary64} (heval : s.evaluate c site args = .ok (o, t)) :
    t.SumsUp (history ++ [luck c args o s.profile]) := by
  rcases hreplaying : s.isReplaying
  · obtain ⟨-, -, rfl⟩ := of_evaluate_eq_ok_of_not_replaying hreplaying heval
    exact h.book _ s.mode _ _
  · obtain ⟨log, k, hmode⟩ := exists_cursor hreplaying
    obtain ⟨d, -, -, rfl⟩ := of_evaluate_eq_ok_of_replaying hmode heval
    exact h.book s.stream _ _ _

theorem SumsUp.recordFallback (h : s.SumsUp history) :
    s.recordFallback.SumsUp (history ++ [.unfavorable]) := by
  obtain ⟨hi, hf, hn, hu, hd, hs⟩ := h
  refine ⟨?_, ?_, ?_, ?_, hd, hs⟩
  · simp [Session.recordFallback, hi, Instability.recordAll]
  all_goals simp [Session.recordFallback]; omega

theorem SumsUp.accept (h : s.SumsUp history) {m : Move} (hmove : s.accept m = .ok t) :
    t.SumsUp (s.chronicle history m) := by
  cases accepts_of_accept hmove with
  | @decides c site args o _ heval =>
    -- The chronicle asks the session again what the call gave.
    have hchronicle : s.chronicle history (.evaluate c site args) =
        history ++ [luck c args o s.profile] := by
      unfold chronicle
      dsimp only
      rw [heval]
    rw [hchronicle]
    exact h.evaluate heval
  | fallsBack => exact h.recordFallback
  | setsProfile _ | setsChaos _ => exact h.congr rfl rfl rfl
  | reseeds _ _ | rewinds _ _ | records => exact sumsUp_of_fresh rfl rfl rfl
  | restarts hcreate => exact sumsUp_of_create hcreate
  | stays hm =>
    rcases hm with rfl | rfl
    · exact h
    · exact h
  | goesLive hm =>
    rcases hm with rfl | rfl
    · exact h.congr rfl rfl rfl
    · exact h.congr rfl rfl rfl

theorem Met.sumsUp (h : s.Met registry history) : s.SumsUp history := by
  induction h with
  | create h => exact sumsUp_of_create h
  | replay h =>
    obtain ⟨t, hcreate, h⟩ := bind_eq_ok_iff.mp h
    cases h
    exact (sumsUp_of_create hcreate).congr rfl rfl rfl
  | move h hmove ih => exact ih.accept hmove

/-! ## Bounds -/

theorem SumsUp.level_le (h : s.SumsUp history) :
    s.instability.level.toNat ≤ s.tally.unfavorable + s.tally.fallbacks := by
  have hlevel := Instability.level_le_count (i := .calm) (by decide) history
  have hcalm : Instability.calm.level.toNat = 0 := rfl
  rw [h.instability, h.unfavorable]
  omega

theorem SumsUp.le_level (h : s.SumsUp history) (hroom : Instability.calm.Unsaturated history) :
    s.tally.unfavorable + s.tally.fallbacks - s.tally.favorable / 2 ≤
      s.instability.level.toNat := by
  have hlevel := Instability.count_le_level (by decide) hroom
  have hcalm : Instability.calm.level.toNat = 0 ∧ Instability.calm.run = 0 := ⟨rfl, rfl⟩
  rw [h.instability, h.unfavorable, h.favorable]
  omega

theorem SumsUp.unsaturated (h : s.SumsUp history)
    (hfew : s.tally.unfavorable + s.tally.fallbacks < UInt32.size) :
    Instability.calm.Unsaturated history := by
  rw [h.unfavorable] at hfew
  exact Instability.unsaturated_of_count_lt hfew

end Session

theorem Host.Reached.exists_met {registry : Registry} {h : Host} (hr : h.Reached registry) :
    ∃ history, h.session.Met registry history :=
  hr.induct (I := fun s => ∃ history, s.Met registry history)
    (fun _ _ _ hcreate => ⟨[], .create hcreate⟩) (fun _ _ hreplay => ⟨[], .replay hreplay⟩)
    fun _ _ _ hmove ⟨_, hmet⟩ => ⟨_, hmet.move hmove⟩

/-- On every host that can be reached the counters agree, and they sum up any luck with which the
session may have come about. The level is at most the unfavorable outcomes and the fallbacks. It
is at least what is left of them when every two favorable outcomes make up for one, as long as no
point has been lost at the greatest level. -/
theorem Host.Reached.luck_is_accounted_for {registry : Registry} {h : Host}
    (hr : h.Reached registry) :
    h.session.tally.decisions = h.session.next ∧
      h.session.next =
        h.session.tally.favorable + h.session.tally.unfavorable + h.session.tally.neutral ∧
      h.session.instability.level.toNat ≤
        h.session.tally.unfavorable + h.session.tally.fallbacks ∧
      (∃ history, h.session.Met registry history) ∧
      ∀ history, h.session.Met registry history → h.session.SumsUp history ∧
        (Instability.calm.Unsaturated history →
          h.session.tally.unfavorable + h.session.tally.fallbacks - h.session.tally.favorable / 2 ≤
            h.session.instability.level.toNat) := by
  obtain ⟨history, hmet⟩ := hr.exists_met
  have hsums := hmet.sumsUp
  exact ⟨hsums.next.symm, hsums.next.trans hsums.decisions, hsums.level_le, ⟨history, hmet⟩,
    fun _ hmet' => ⟨hmet'.sumsUp, hmet'.sumsUp.le_level⟩⟩

def Script.fallBackAndDecide : Script Bool :=
  .attempt (.operate (.welp id none "nothing")) fun _ =>
    .attempt (.operate (.maybe ⟨1⟩ true)) fun _ => .operate (.sometimes ⟨2⟩ true)

theorem Host.Reached.luck_is_accounted_for_fallback :
    ∃ h : Host, h.Reached Registry.builtin ∧ h.session.tally.fallbacks = 1 ∧
      h.session.next = 2 ∧
      ∃ history, h.session.Met Registry.builtin history ∧ h.session.SumsUp history ∧
        Instability.calm.Unsaturated history ∧
        h.session.tally.unfavorable + h.session.tally.fallbacks -
            h.session.tally.favorable / 2 ≤ h.session.instability.level.toNat := by
  obtain ⟨h₀, hcreate⟩ : ∃ h₀, Host.create Settings.standard Registry.builtin 7 Clock.zero =
      .ok h₀ := ⟨_, rfl⟩
  have hr := (Reached.create hcreate).run Script.fallBackAndDecide
  cases hcreate
  obtain ⟨-, -, -, ⟨history, hmet⟩, hbounds⟩ := hr.luck_is_accounted_for
  obtain ⟨hsums, hlevel⟩ := hbounds history hmet
  have hroom := hsums.unsaturated (by decide +kernel)
  exact ⟨_, hr, by decide +kernel, by decide +kernel, history, hmet, hsums, hroom, hlevel hroom⟩

end Fickle

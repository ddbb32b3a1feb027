import Fickle.Proofs.Session.Evaluate

/-! # Programs that go through

Outside a replay a call with good arguments succeeds. A program that is put together from such calls
goes through to its end, and makes a decision with each call.
-/

namespace Fickle

theorem Tally.OneMore.unfavorable_le {t t' : Tally} (h : t.OneMore t') :
    t'.unfavorable ≤ t.unfavorable + 1 := by
  rcases h with ⟨-, hu, -⟩ | ⟨hu, -, -⟩ | ⟨-, -, hu⟩
  · omega
  · omega
  · omega

namespace Session

/-- `t` comes of `s` by `k` decisions, outside a replay. -/
structure Decides (k : Nat) (s t : Session) : Prop where
  live : t.isReplaying = false
  next : t.next = s.next + k
  decisions : t.tally.decisions = s.tally.decisions + k
  unfavorable : t.tally.unfavorable ≤ s.tally.unfavorable + k

variable {k l : Nat} {s t u : Session}

theorem Decides.refl (h : s.isReplaying = false) : s.Decides 0 s :=
  ⟨h, rfl, rfl, Nat.le_refl _⟩

theorem Decides.trans (h : s.Decides k t) (h' : t.Decides l u) : s.Decides (k + l) u where
  live := h'.live
  next := by rw [h'.next, h.next, Nat.add_assoc]
  decisions := by rw [h'.decisions, h.decisions, Nat.add_assoc]
  unfavorable := by
    have hfirst := h.unfavorable
    have hsecond := h'.unfavorable
    omega

theorem Booked.decides (h : s.Booked t) (hlive : t.isReplaying = false) : s.Decides 1 t :=
  ⟨hlive, h.next, h.decisions, h.luck.unfavorable_le⟩

end Session

namespace Program

variable {α β γ : Type} {k l : Nat} {P : β → Prop} {Q : γ → Prop}

/-- Outside a replay the program succeeds after `k` decisions, with a result that satisfies `P`. -/
def Makes (k : Nat) (P : β → Prop) (p : Program β) : Prop :=
  ∀ h : Host, h.session.isReplaying = false →
    ∃ b, (p.play h).1 = .ok b ∧ P b ∧ h.session.Decides k (p.play h).2.session

theorem makes_of_quiet {p : Program β} {b : β} (hresult : ∀ h, (p.play h).1 = .ok b)
    (hsession : ∀ h, (p.play h).2.session = h.session) (hb : P b) : Makes 0 P p := by
  intro h hlive
  refine ⟨b, hresult h, hb, ?_⟩
  rw [hsession]
  exact .refl hlive

theorem makes_pure {b : β} (hb : P b) : Makes 0 P (pure b) :=
  makes_of_quiet (fun _ => rfl) (fun _ => rfl) hb

theorem makes_report (e : Event) : Makes 0 (fun _ => True) (report e) :=
  makes_of_quiet (fun _ => rfl) (fun _ => rfl) trivial

theorem makes_print (line : String) : Makes 0 (fun _ => True) (print line) :=
  makes_of_quiet (fun _ => rfl) (fun _ => rfl) trivial

theorem makes_bind {p : Program β} {f : β → Program γ} (hp : Makes k P p)
    (hf : ∀ b, P b → Makes l Q (f b)) : Makes (k + l) Q (p >>= f) := by
  intro h hlive
  obtain ⟨b, hres, hb, hfirst⟩ := hp h hlive
  obtain ⟨c, hres', hc, hsecond⟩ := hf b hb (p.play h).2 hfirst.live
  rw [play_bind_of_ok hres]
  exact ⟨c, hres', hc, hfirst.trans hsecond⟩

theorem makes_session {f : Session → Program β} (hf : ∀ s, Makes k P (f s)) :
    Makes k P (session >>= f) := by
  intro h hlive
  rw [play_bind, play_session]
  exact hf h.session h hlive

theorem makes_return {p : Program β} (hp : Makes k P p) (f : β → γ) :
    Makes k (fun _ => True) (do return f (← p)) :=
  makes_bind hp fun _ _ => makes_pure trivial

theorem makes_evaluate {c : Construct} {args : Args Binary64} (hargs : args.check c = .ok ())
    (site : Site) : Makes 1 (c.Yields ·) (evaluate c site args) := by
  intro h hlive
  obtain ⟨o, s, heval⟩ : ∃ o s, h.session.evaluate c site args = .ok (o, s) := by
    rw [Session.evaluate_of_not_replaying hlive, hargs]
    exact ⟨_, _, rfl⟩
  obtain ⟨hres, hsession, -⟩ := session_play_evaluate_of_ok heval
  obtain ⟨hyields, hlive'⟩ := Session.yields_of_evaluate_eq_ok hlive heval
  rw [hsession]
  exact ⟨o, hres, hyields, (Session.Booked.of_evaluate_eq_ok heval).decides hlive'⟩

theorem makes_call {c : Construct} {view : Outcome Binary64 → Option β} (hview : Fits c view)
    {args : Args Binary64} (hargs : args.check c = .ok ()) (site : Site) :
    Makes 1 (fun _ => True) (call c view site args) := by
  apply makes_bind (l := 0) (makes_evaluate hargs site)
  intro o ho
  obtain ⟨v, hv⟩ := Option.isSome_iff_exists.mp (hview o ho)
  unfold expect
  rw [hv]
  exact makes_pure trivial

theorem makes_boolCall {c : Construct} (hc : c.yieldsBool = true) {args : Args Binary64}
    (hargs : args.check c = .ok ()) (site : Site) :
    Makes 1 (fun _ => True) (boolCall c site args) :=
  makes_call (fits_asBool hc) hargs site

theorem makes_sortaPrint (site : Site) (message : String) :
    Makes 1 (fun _ => True) (sortaPrint site message) := by
  apply makes_session
  intro s
  apply makes_bind (l := 0) (makes_boolCall rfl rfl site)
  intro printed _
  apply makes_session
  intro t
  exact makes_return (makes_print _) fun _ => printed

theorem makes_gatedImport {c : Construct} (hc : c.yieldsBool = true)
    (hargs : Args.check c (.unit : Args Binary64) = .ok ()) (site : Site) (module : String)
    (v : β) : Makes 1 (fun _ => True) (gatedImport c site module (.ok v)) := by
  apply makes_bind (l := 0) (makes_boolCall hc hargs site)
  intro through _
  split
  · exact makes_pure trivial
  · apply makes_session
    intro s
    exact makes_return (makes_report _) fun _ => _

end Program

end Fickle

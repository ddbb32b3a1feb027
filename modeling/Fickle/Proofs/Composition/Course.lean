import Fickle.Proofs.Composition.Settled

/-! # The course of a run

What a run outside a replay reads and changes, for numbers of any type and draws from any source.
A session that does not replay takes such a course on doubles.
-/

namespace Fickle

/-- All that calls outside a replay read, and the instability and the draws, which they change. -/
structure Course (α γ : Type) where
  profile : Profile α
  chaos : ChaosLevel
  drift : DriftModel α
  instability : Instability
  draws : γ

namespace Course

variable {α γ β δ : Type}

def withDraws (r : Course α γ) (draws : γ) : Course α γ := { r with draws }

/-- What a program does on a course. -/
def play (p : ExceptT Fault (StateM (Course α γ)) β) (r : Course α γ) :
    Except Fault β × Course α γ :=
  Id.run (StateT.run (ExceptT.run p) r)

theorem play_bind (p : ExceptT Fault (StateM (Course α γ)) β)
    (f : β → ExceptT Fault (StateM (Course α γ)) δ) (r : Course α γ) :
    play (p >>= f) r =
      match play p r with
      | (.ok b, t) => play (f b) t
      | (.error fault, t) => (.error fault, t) := by
  have hbind : play (p >>= f) r = ExceptT.bindCont f (play p r).1 (play p r).2 := rfl
  rw [hbind]
  rcases play p r with ⟨fault | b, t⟩
  · rfl
  · rfl

theorem play_bind_pure (p : ExceptT Fault (StateM (Course α γ)) β) (f : β → δ)
    (r : Course α γ) :
    play (p >>= fun b => pure (f b)) r = ((play p r).1.map f, (play p r).2) := by
  rw [play_bind]
  rcases play p r with ⟨fault | b, t⟩
  · rfl
  · rfl

variable [Scalar α] [Draws γ α]

def setting (r : Course α γ) (c : Construct) : Setting α :=
  ⟨r.profile.effective c r.chaos r.instability, r.profile, r.chaos, r.drift⟩

/-- Draws the outcome of a call, which counts for the instability. -/
def evaluate (r : Course α γ) (c : Construct) (args : Args α) :
    Except Fault (Outcome α × Course α γ) := do
  args.check c
  let (outcome, draws) := sample c args (r.setting c) r.draws
  let instability := r.instability.record (luck c args outcome r.profile)
  return (outcome, { r with instability, draws })

/-- One call for a truth value. -/
def ask (r : Course α γ) (c : Construct) (args : Args α) : Except Fault Bool × Course α γ :=
  match r.evaluate c args with
  | .ok (.bool b, t) => (.ok b, t)
  | .ok (_, t) => (.error (.invalidArgument c .constituentNotBoolean), t)
  | .error fault => (.error fault, r)

def constituent (c : Construct) (_ : Site) (args : Args α) :
    ExceptT Fault (StateM (Course α γ)) Bool :=
  ExceptT.mk fun r => pure (r.ask c args)

def invoke (r : Course α γ) (defs : Definitions α) (name : String) (site : Site) :
    Except Fault Bool × Course α γ :=
  play ((Expr.use name).evalWith constituent defs site) r

def predict (r : Course α γ) (defs : Definitions α) (name : String) : Except Fault α :=
  (Expr.use name).predict (callProbability r.profile r.chaos r.instability) defs

theorem play_constituent (l : Leaf α) (r : Course α γ) :
    play (constituent l.construct l.site l.args) r = r.ask l.construct l.args := rfl

end Course

/-! ## Answers -/

/-- What a good call answers when it draws the number `u`. -/
def Leaf.answer [Scalar α] (l : Leaf α) (s : Setting α) (u : α) : Bool :=
  match l.construct.behaviour, l.args with
  | .conditional, .condition b => b && decide (u < s.probability)
  | .flip, .condition b => if u < s.probability then b else !b
  | .closeness, .compare left right tolerance =>
    let tolerance := tolerance.getD s.profile.defaultTolerance
    decide (u < ishProbability (Scalar.abs (left - right)) tolerance s.probability)
  | _, _ => decide (u < s.probability)

theorem Leaf.Good.sample_eq [Scalar α] [Draws γ α] {l : Leaf α} (h : l.Good) (s : Setting α)
    (g : γ) : sample l.construct l.args s g =
      (.bool (l.answer s (Draws.unit g).1), (Draws.unit g).2) := by
  obtain ⟨c, site, args⟩ := l
  have hfit := Args.fit_of_check h.check
  have hbool : c.behaviour.yieldsBool = true := h.yieldsBool
  dsimp only at hfit ⊢
  unfold sample answer
  dsimp only
  generalize c.behaviour = behaviour at hfit hbool
  cases hfit with
  | conditional _ | gate | flip _ | closeness _ _ _ => rfl
  | integer _ | float _ | spread _ _ | count _ | drift _ | choice _ => cases hbool

/-- The answers of calls that are made one after another, each of them under the same setting
whenever it is made. -/
def Leaf.answers [Scalar α] [Draws γ α] (setting : Construct → Setting α) :
    List (Leaf α) → γ → List Bool
  | [], _ => []
  | l :: ls, g =>
    l.answer (setting l.construct) (Draws.unit g).1 :: answers setting ls (Draws.unit g).2

namespace Course

variable [Scalar α] [Draws γ α]

/-- The instability does not matter to the course. -/
def Steady (r : Course α γ) : Prop :=
  ∀ c i, r.profile.effective c r.chaos i = r.profile.effective c r.chaos r.instability

theorem Steady.ask_eq {r : Course α γ} (hsteady : r.Steady) {l : Leaf α} (hl : l.Good) :
    ∃ t : Course α γ, r.ask l.construct l.args =
        (.ok (l.answer (r.setting l.construct) (Draws.unit r.draws).1), t) ∧
      t.Steady ∧ t.setting = r.setting ∧ t.draws = (Draws.unit r.draws).2 := by
  refine ⟨{ r with
    instability := r.instability.record (luck l.construct l.args
      (.bool (l.answer (r.setting l.construct) (Draws.unit r.draws).1)) r.profile)
    draws := (Draws.unit r.draws).2 }, ?_, ?_, ?_, rfl⟩
  · unfold ask evaluate
    rw [hl.check, hl.sample_eq]
    rfl
  · intro c i
    exact (hsteady c i).trans (hsteady c _).symm
  · funext c
    unfold setting
    rw [hsteady]

theorem Steady.play_constituents {r : Course α γ} (hsteady : r.Steady) {ls : List (Leaf α)}
    (hls : ∀ l ∈ ls, l.Good) :
    (play (ls.mapM fun l => constituent l.construct l.site l.args) r).1 =
      .ok (Leaf.answers r.setting ls r.draws) := by
  induction ls generalizing r with
  | nil => rfl
  | cons l ls ih =>
    obtain ⟨hl, hls⟩ := List.forall_mem_cons.mp hls
    -- The call moves the instability, which the settings of the calls after it do not show.
    obtain ⟨t, hask, hsteady', hsetting, hdraws⟩ := hsteady.ask_eq hl
    rw [List.mapM_cons, play_bind, play_constituent, hask]
    dsimp only
    rw [play_bind_pure, ih hsteady' hls, hsetting, hdraws]
    rfl

theorem Steady.invoke_eq {r : Course α γ} (hsteady : r.Steady) {defs : Definitions α}
    {name : String} {site : Site} {f : Formula (Leaf α)}
    (hf : Expr.Expands Definitions.lookup defs (.use name) site f) (hproper : f.Proper) :
    (r.invoke defs name site).1 = .ok (f.holds (Leaf.answers r.setting f.leaves r.draws)) := by
  rw [invoke, hf.evalWith_eq, Formula.perform, play_bind_pure,
    hsteady.play_constituents hproper.good]
  rfl

end Course

/-! ## The course of a session -/

namespace Session

def course (s : Session) : Course Binary64 Stream :=
  ⟨s.profile, s.chaos, s.drift, s.instability, s.stream⟩

variable {s : Session}

theorem evaluate_course (hlive : s.isReplaying = false) (c : Construct) (site : Site)
    (args : Args Binary64) :
    s.course.evaluate c args = (s.evaluate c site args).map fun ot => (ot.1, ot.2.course) := by
  have hsample : sample c args (s.course.setting c) s.course.draws =
      sample c args (s.setting c) s.stream := rfl
  rw [evaluate_of_not_replaying hlive, Course.evaluate, hsample]
  rcases args.check c with fault | ⟨⟩
  · rfl
  · rcases sample c args (s.setting c) s.stream with ⟨o, g⟩
    rfl

theorem ask_course (hlive : s.isReplaying = false) {l : Leaf Binary64} (hl : l.Good) :
    s.course.ask l.construct l.args = ((s.ask l).1, (s.ask l).2.course) := by
  obtain ⟨b, t, hask, -, -⟩ := exists_ask hlive hl
  rw [Course.ask, evaluate_course hlive l.construct l.site]
  unfold ask at hask ⊢
  rcases heval : s.evaluate l.construct l.site l.args with fault | ⟨o, t'⟩
  · rw [heval] at hask
    cases hask
  · rw [heval] at hask
    cases o with
    | bool b => rfl
    | _ => cases hask

theorem askAll_course {ls : List (Leaf Binary64)} (hlive : s.isReplaying = false)
    (hls : ∀ l ∈ ls, l.Good) :
    Course.play (ls.mapM fun l => Course.constituent l.construct l.site l.args) s.course =
      ((s.askAll ls).1, (s.askAll ls).2.course) := by
  induction ls generalizing s with
  | nil => rfl
  | cons l ls ih =>
    obtain ⟨hl, hls⟩ := List.forall_mem_cons.mp hls
    obtain ⟨b, t, hask, hlive', -⟩ := exists_ask hlive hl
    rw [List.mapM_cons, Course.play_bind, Course.play_constituent, ask_course hlive hl, hask,
      askAll_of_ask_eq_ok hask]
    dsimp only
    rw [Course.play_bind_pure, ih hlive' hls]

end Session

namespace Compositions

variable {r : Compositions} {name : String}

/-- On a host that does not replay, a composition does what it does on the course of the session. -/
structure TakesCourse (r : Compositions) (name : String) (site : Site) (h : Host) : Prop where
  result : ((Program.invoke r name site).play h).1 = (h.session.course.invoke r.defs name site).1
  course : ((Program.invoke r name site).play h).2.session.course =
    (h.session.course.invoke r.defs name site).2
  predict : r.predict h.session name = h.session.course.predict r.defs name

theorem Built.takesCourse (hr : r.Built) (hname : r.contains name = true) (site : Site) {h : Host}
    (hlive : h.session.isReplaying = false) : r.TakesCourse name site h := by
  obtain ⟨f, hf, hproper⟩ := hr.exists_expands hname site
  have hgoes := Program.goesBy_perform f
  rw [← hf.evalWith_eq, ← Program.invoke_eq hname] at hgoes
  have hcourse := Session.askAll_course hlive hproper.good
  have hinvoke : h.session.course.invoke r.defs name site =
      ((h.session.askAll f.leaves).1.map f.holds, (h.session.askAll f.leaves).2.course) := by
    rw [Course.invoke, hf.evalWith_eq, Formula.perform, Course.play_bind_pure, hcourse]
  refine ⟨?_, ?_, predict_eq hname h.session⟩
  · rw [hgoes.result, hinvoke]
  · rw [hgoes.session, hinvoke]

end Compositions

end Fickle

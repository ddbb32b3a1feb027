import Fickle.Proofs.Binary64.Bounds
import Fickle.Proofs.Program.Beside
import Fickle.Proofs.Program.Makes
import Fickle.Proofs.Replay.Fidelity
import Fickle.Scenario

/-! # The mixed program

It goes through with one decision for each statement. It does the same when it is not recorded, and
when its recording is replayed, whatever the clock reads then.
-/

namespace Fickle

namespace Program

variable {β : Type} {k : Nat} {P : β → Prop}

/-! ## The clock -/

def now : Program Duration := return (← get).clock.now

theorem play_now_bind (f : Duration → Program β) (h : Host) :
    (now >>= f).play h = (f h.clock.now).play h := rfl

/-- A read of a variable is a call, made at what the clock reads. -/
theorem timeDrift_bind (v : DriftVar) (f : Binary64 → DriftVar → Program β) :
    (do
      let read ← (timeDrift v : StateM Host _)
      let x ← ofExcept read.1
      f x read.2) = (do
      let time ← now
      let x ← call .timeDrift Outcome.asFloat? v.site (.drift (v.aging.touch time).1)
      f x { v with aging := (v.aging.touch time).2 }) := by
  funext h
  show Program.play _ h = Program.play _ h
  let read := call .timeDrift Outcome.asFloat? v.site (.drift (v.aging.touch h.clock.now).1)
  have hread : (liftM (timeDrift v) : Program (Except Fault Binary64 × DriftVar)).play h =
      (.ok ((read.play h).1, { v with aging := (v.aging.touch h.clock.now).2 }),
        (read.play h).2) := rfl
  rw [play_now_bind, play_bind, play_bind, hread]
  dsimp only
  rcases read.play h with ⟨e | x, h'⟩
  · rfl
  · rfl

theorem makes_now {f : Duration → Program β} (hf : ∀ time, Makes k P (f time)) :
    Makes k P (now >>= f) := by
  intro h hlive
  rw [play_now_bind]
  exact hf h.clock.now h hlive

theorem inStep_now {f : Duration → Program β} (hf : ∀ time, InStep (f time)) :
    InStep (now >>= f) := by
  intro a b hab
  rw [play_now_bind, play_now_bind, hab.clock]
  exact hf a.clock.now a b hab

/-- Two programs that look at the clock go alike if they do so whatever each of them reads. -/
theorem echoes_now {f g : Duration → Program β} (h : ∀ time time', Echoes P (f time) (g time')) :
    Echoes P (now >>= f) (now >>= g) := by
  intro a log ha
  rw [play_now_bind]
  obtain ⟨ds, hrec, hP, -⟩ := h a.clock.now a.clock.now a log ha
  refine ⟨ds, hrec, hP, fun b rest hab hb => ?_⟩
  -- The reading of the replay is known only now; what was recorded does not depend on it.
  obtain ⟨ds', hrec', -, hecho⟩ := h a.clock.now b.clock.now a log ha
  rw [hrec.extend_inj hrec'] at hb
  rw [play_now_bind]
  exact hecho b rest hab hb

end Program

namespace Mixed

open Program

variable {β : Type}

theorem makes_advance (step : Duration) : Makes 0 (fun _ => True) (advance step) :=
  makes_of_quiet (fun _ => rfl) (fun _ => rfl) trivial

theorem inStep_advance (step : Duration) : InStep (advance step) :=
  fun _ _ hab => ⟨rfl, hab.live, hab.session, congrArg (Clock.advance · step) hab.clock⟩

theorem echoes_advance (step : Duration) :
    Echoes (fun _ => True) (advance step) (advance step) := by
  intro a log ha
  refine ⟨[], ?_, fun _ _ => trivial, fun b rest hab hb => ⟨rfl, ⟨hab.session, hab.printed⟩, hb⟩⟩
  rw [Log.extend_nil]
  exact ha

/-! ## One statement -/

theorem plain_return {γ : Type} {p : Program β} (hp : Plain p) (f : β → γ) :
    Plain (do return f (← p)) :=
  Plain.bind hp fun _ => Plain.pure _

theorem plain_statement (i : Nat) : Plain (statement i) := by
  unfold statement
  dsimp only
  split
  · exact plain_return (plain_boolCall rfl _ _) _
  · exact plain_return (Plain.call (fits_asInt rfl) _ _) _
  · exact plain_return (Plain.call (fits_asFloat (by decide)) _ _) _
  · exact plain_return (plain_boolCall rfl _ _) _
  · exact plain_return (plain_boolCall rfl _ _) _
  · exact plain_return (Plain.call (fits_asTernary rfl) _ _) _
  · exact plain_return (Plain.call (fits_asCount rfl) _ _) _
  · exact plain_return (Plain.call (fits_asFloat (by decide)) _ _) _
  · exact plain_return (plain_boolCall rfl _ _) _
  · exact plain_return (Plain.call (fits_asInt rfl) _ _) _
  · exact plain_return (plain_sortaPrint _ _) _
  · exact plain_return (plain_gatedImport rfl _ _ _) _

theorem isFinite_ofNat {i : Nat} (hi : i < 2 ^ 64) :
    Scalar.isFinite (Scalar.ofNat i : Binary64) = true :=
  (Binary64.bounded_ofNat hi).isFinite_eq_true

theorem isFinite_shifted {i : Nat} (hi : i < 2 ^ 64) :
    Scalar.isFinite ((2.5 : Binary64) + Scalar.ofNat i) = true := by
  have hleft : Binary64.Bounded 119 (2.5 : Binary64) :=
    (Binary64.bounded_of_isSmall (by decide +kernel)).mono (by decide)
  exact (hleft.add (Binary64.bounded_ofNat hi) (by decide) (by decide)).isFinite_eq_true

theorem check_eq_ok {c : Construct} {args : Args Binary64} (hshape : args.shape = c.shape)
    (hflaw : args.flaw? = none) : args.check c = .ok () := by
  unfold Args.check
  rw [if_neg (not_not_intro hshape), hflaw]

theorem check_float {v : Binary64} (hv : Scalar.isFinite v = true) :
    Args.check .fuzzyFloat (.float v) = .ok () :=
  check_eq_ok rfl (if_pos hv)

theorem check_drift {sample : DriftSample Binary64} (h : Scalar.isFinite sample.nominal = true) :
    Args.check .timeDrift (.drift sample) = .ok () :=
  check_eq_ok rfl (if_pos h)

theorem check_ish {left right : Binary64} (hleft : Scalar.isFinite left = true)
    (hright : Scalar.isFinite right = true) :
    Args.check .ishComparison (.compare left right none) = .ok () :=
  check_eq_ok rfl (if_neg (by simp [hleft, hright]))

theorem check_ishValue {v : Binary64} (hv : Scalar.isFinite v = true) :
    Args.check .ishValue (.ishValue v none) = .ok () :=
  check_eq_ok rfl (if_neg (by simp [hv]))

/-- No statement passes arguments that are refused. -/
theorem makes_statement {i : Nat} (hi : i < 2 ^ 64) :
    Makes 1 (fun _ => True) (statement i) := by
  have hfive : Scalar.isFinite (5.0 : Binary64) = true := by decide +kernel
  have hhundred : Scalar.isFinite (100.0 : Binary64) = true := by decide +kernel
  unfold statement
  dsimp only
  split
  · exact makes_return (makes_boolCall rfl rfl _) _
  · exact makes_return (makes_call (fits_asInt rfl) rfl _) _
  · have hcheck := check_float (isFinite_shifted hi)
    exact makes_return (makes_call (fits_asFloat (by decide)) hcheck _) _
  · exact makes_return (makes_boolCall rfl rfl _) _
  · exact makes_return (makes_boolCall rfl (check_ish (isFinite_ofNat hi) hfive) _) _
  · exact makes_return (makes_call (fits_asTernary rfl) rfl _) _
  · exact makes_return (makes_call (fits_asCount rfl) rfl _) _
  · exact makes_return (makes_call (fits_asFloat (by decide)) (check_ishValue hhundred) _) _
  · exact makes_return (makes_boolCall rfl rfl _) _
  · exact makes_return (makes_call (fits_asInt rfl) rfl _) _
  · exact makes_return (makes_sortaPrint _ _) _
  · exact makes_return (makes_gatedImport rfl rfl _ _ _) _

/-- The whole numbers that the statement with index `i` passes on are those that are written there:
none is too large for its type. -/
structure Exact (i : Nat) : Prop where
  triple : (Int64.ofNat i * 3).toInt = 3 * (i : Int)
  negated : (-Int64.ofNat i).toInt = -(i : Int)

theorem exact_of_lt {i : Nat} (hi : i < 2 ^ 61) : Exact i where
  triple := by
    have hthree : (3 : Int64).toInt = 3 := by decide
    rw [Int64.toInt_mul, Int64.toInt_ofNat_of_lt (by omega), hthree,
      Int.bmod_eq_of_le (by omega) (by omega), Int.mul_comm]
  negated := by
    rw [Int64.toInt_neg, Int64.toInt_ofNat_of_lt (by omega),
      Int.bmod_eq_of_le (by omega) (by omega)]

/-! ## One turn -/

/-- The statement with index `i`, at what the clock reads. -/
def turn (i : Nat) (v : DriftVar) (time : Duration) : Program (Outcome Binary64) :=
  if i % 13 = 12 then
    return .float (← call .timeDrift Outcome.asFloat? v.site (.drift (v.aging.touch time).1))
  else statement i

/-- The variable after the statement with index `i`. -/
def varAfter (i : Nat) (v : DriftVar) (time : Duration) : DriftVar :=
  if i % 13 = 12 then { v with aging := (v.aging.touch time).2 } else v

theorem runFrom_succ (n i : Nat) (v : DriftVar) :
    runFrom (n + 1) i v = (do
      let time ← now
      let outcome ← turn i v time
      advance tick
      let outcomes ← runFrom n (i + 1) (varAfter i v time)
      return outcome :: outcomes) := by
  unfold turn varAfter
  by_cases hi : i % 13 = 12
  · simp only [runFrom, if_pos hi, bind_assoc, pure_bind]
    have hread := timeDrift_bind v fun x v' => do
      advance tick
      let outcomes ← runFrom n (i + 1) v'
      return .float x :: outcomes
    exact hread
  · simp only [runFrom, if_neg hi, pure_bind]
    rfl

theorem nominal_varAfter (i : Nat) (v : DriftVar) (time : Duration) :
    (varAfter i v time).aging.nominal = v.aging.nominal := by
  unfold varAfter
  split
  · rfl
  · rfl

theorem shown_varAfter {v v' : DriftVar} (hv : v.shown = v'.shown) (i : Nat)
    (time time' : Duration) : (varAfter i v time).shown = (varAfter i v' time').shown := by
  unfold varAfter
  split
  · exact (DriftVar.touch_shown hv time time').2
  · exact hv

theorem makes_turn {i : Nat} (hi : i < 2 ^ 64) {v : DriftVar}
    (hv : Scalar.isFinite v.aging.nominal = true) (time : Duration) :
    Makes 1 (fun _ => True) (turn i v time) := by
  have hcheck : Args.check .timeDrift (.drift (v.aging.touch time).1) = .ok () := check_drift hv
  unfold turn
  split
  · exact makes_return (makes_call (fits_asFloat (by decide)) hcheck _) _
  · exact makes_statement hi

theorem plain_turn (i : Nat) (v : DriftVar) (time : Duration) : Plain (turn i v time) := by
  unfold turn
  split
  · exact Plain.bind (Plain.call (fits_asFloat (by decide)) _ _) fun _ => Plain.pure _
  · exact plain_statement i

/-- The turns of variables that show the same go alike, whatever the clock reads. -/
theorem couples_turn {v v' : DriftVar} (hv : v.shown = v'.shown) (i : Nat)
    (time time' : Duration) : Couples Args.Alike (turn i v time) (turn i v' time') := by
  have hsite : v.site = v'.site := congrArg Prod.fst hv
  unfold turn
  split
  · rw [hsite]
    apply Couples.bind
    · exact couples_call (fits_asFloat (by decide)) v'.site
        (.drift (DriftVar.touch_shown hv time time').1)
    · exact fun x => Couples.pure _
  · exact (plain_statement i).couples Args.Alike.refl

/-! ## The whole program -/

theorem makes_runFrom (n : Nat) {i : Nat} (hi : i + n ≤ 2 ^ 64) {v : DriftVar}
    (hv : Scalar.isFinite v.aging.nominal = true) : Makes n (fun _ => True) (runFrom n i v) := by
  induction n generalizing i v with
  | zero => exact makes_pure trivial
  | succ n ih =>
    have hrest (time : Duration) :
        Makes n (fun _ => True) (runFrom n (i + 1) (varAfter i v time)) := by
      apply ih (by omega)
      rw [nominal_varAfter]
      exact hv
    rw [runFrom_succ, Nat.add_comm]
    apply makes_now
    intro time
    apply makes_bind (makes_turn (by omega) hv time)
    intro outcome _
    have hafter := makes_bind (makes_advance tick) fun _ _ =>
      makes_return (hrest time) fun outcomes => outcome :: outcomes
    rw [Nat.zero_add] at hafter
    exact hafter

theorem inStep_runFrom (n i : Nat) (v : DriftVar) : InStep (runFrom n i v) := by
  induction n generalizing i v with
  | zero => exact (Plain.pure _).inStep
  | succ n ih =>
    rw [runFrom_succ]
    apply inStep_now
    intro time
    apply inStep_bind (plain_turn i v time).inStep
    intro outcome
    apply inStep_bind (inStep_advance tick)
    intro _
    exact inStep_bind (ih (i + 1) _) fun outcomes => (Plain.pure _).inStep

theorem echoes_runFrom (n i : Nat) {v v' : DriftVar} (hv : v.shown = v'.shown) :
    Echoes (fun _ => True) (runFrom n i v) (runFrom n i v') := by
  induction n generalizing i v v' with
  | zero => exact (Couples.pure []).echoes
  | succ n ih =>
    rw [runFrom_succ, runFrom_succ]
    apply echoes_now
    intro time time'
    apply echoes_bind (couples_turn hv i time time').echoes
    intro outcome _
    apply echoes_bind (echoes_advance tick)
    intro _ _
    apply echoes_bind (ih (i + 1) (shown_varAfter hv i time time'))
    intro outcomes _
    exact (Couples.pure _).echoes

/-- The drifting variable, declared when the program begins. -/
def declared (time : Duration) : DriftVar :=
  ⟨base.child (UInt32.ofNat (2 ^ 32 - 1)), Aging.declared 40.0 time⟩

theorem run_eq (calls : Nat) : run calls = (do
    let time ← now
    runFrom calls 0 (declared time)) := rfl

theorem makes_run {calls : Nat} (hcalls : calls ≤ 2 ^ 64) :
    Makes calls (fun _ => True) (run calls) := by
  have hnominal : Scalar.isFinite (40.0 : Binary64) = true := by decide +kernel
  rw [run_eq]
  apply makes_now
  intro time
  exact makes_runFrom (v := declared time) calls (by omega) hnominal

theorem inStep_run (calls : Nat) : InStep (run calls) := by
  rw [run_eq]
  exact inStep_now fun time => inStep_runFrom calls 0 _

theorem echoes_run (calls : Nat) : Echoes (fun _ => True) (run calls) (run calls) := by
  rw [run_eq]
  exact echoes_now fun time time' => echoes_runFrom calls 0 rfl

end Mixed

end Fickle

import Mathlib.Data.Nat.Find
import Fickle.Proofs.Program.Makes
import Fickle.Proofs.Program.Timeless
import Fickle.Proofs.Rate.Pool
import Fickle.Proofs.Session.Beginning

/-! # Assertions do not depend on a schedule

Trials in sessions of their own say nothing about each other. So an assertion comes to the same
whether its trials are run one after another or by workers in any order. Two runs may well read
different times, and trials whose outcomes hang on these are not the same trials.
-/

namespace Fickle.Runner

open Trials

variable {r : Runner} {predicate : Act Bool} {readings times times' : Readings}
  {refusal : Option String} {elapsed : Nat → Duration} {expected confidence : Binary64}
  {n threads : Nat}

/-! ## Sessions of their own -/

/-- The trials below `n` in their order, each as it comes out with these readings. -/
structure Ran (r : Runner) (predicate : Act Bool) (readings : Readings) (n : Nat)
    (trials : List Trial) : Prop where
  indices : trials.map Trial.index = List.range n
  each : ∀ t ∈ trials, r.runOne predicate readings t.index = .ok t

theorem Ran.runIsolated {good : Nat → Trial} (hindex : ∀ i, (good i).index = i)
    (h : r.Ran predicate readings n ((List.range n).map good)) :
    r.runIsolated n predicate readings = .ok ((List.range n).map good) := by
  unfold Runner.runIsolated
  rw [runFrom_nil, ← List.range_eq_range']
  apply mapM_of_ok
  intro i hi
  rw [← h.each (good i) (List.mem_map_of_mem hi), hindex]

/-! ## Both assertions -/

/-- The assertion by one trial after another, with the indices of the trials it begins. -/
def noted (r : Runner) (predicate : Act Bool) (readings : Readings) (elapsed : Nat → Duration)
    (expected confidence : Binary64) (n : Nat) : Except Fault (Report Binary64) × List Nat :=
  (assertCounted (Trials.noted (r.runOne predicate readings)) elapsed expected (.trials n)
    confidence).play []

/-- What the assertion over a pool of workers can come to. -/
inductive Pooled (r : Runner) (predicate : Act Bool) (readings : Readings)
    (refusal : Option String) (expected confidence : Binary64) (n threads : Nat) :
    Except Fault (Report Binary64) → Prop where
  | rejected {f : Fault} (h : checkAssertion expected (.trials n) confidence = .error f) :
    Pooled r predicate readings refusal expected confidence n threads (.error f)
  | unstarted {reason : String} (h : checkAssertion expected (.trials n) confidence = .ok ())
    (hrefusal : refusal = some reason) :
    Pooled r predicate readings refusal expected confidence n threads
      (.error (.invalidSettings (.pool reason)))
  | ran {result : Except Fault (List Trial)}
    (h : checkAssertion expected (.trials n) confidence = .ok ()) (hrefusal : refusal = none)
    (hpool : Pool.Gives (r.runOne predicate readings) n (max threads 1) result) :
    Pooled r predicate readings refusal expected confidence n threads
      (result.map fun trials => Report.judge trials expected confidence)

/-- The assertions by one trial after another and over a pool agree. The clocks of the trials read
`times` in the one and `times'` in the other. -/
structure Agrees (r : Runner) (predicate : Act Bool) (times times' : Readings)
    (refusal : Option String) (elapsed : Nat → Duration) (expected confidence : Binary64)
    (n threads : Nat) : Prop where
  sequential : (r.noted predicate times elapsed expected confidence n).1 =
    r.assertRate predicate elapsed expected (.trials n) confidence times
  parallel : r.Pooled predicate times' refusal expected confidence n threads
    (r.assertRateParallel predicate expected n threads confidence times' refusal)
  /-- Each trial has a fresh session, with the sub-stream of its index. -/
  isolated : ∀ readings i t, r.runOne predicate readings i = .ok t →
    ∃ profile chaos, r.registry.get r.settings.personality = .ok profile ∧
      r.settings.chaos = .ok chaos ∧
      (predicate.play (world (Session.opened r.registry profile chaos r.settings.drift
        (Stream.subseed r.baseSeed (UInt64.ofNat i)) false r.settings.record) (readings i))).1 =
          .ok t.outcome ∧ t.index = i
  /-- A trial that reads no drifting variable comes out the same whatever the clocks read. -/
  timeless : ∀ a : Action Bool, a.Timeless → predicate = a.act →
    r.runOne predicate times = r.runOne predicate times'
  /-- Every run of the pool comes to rest. -/
  rests :
    (∀ p q, Pool.Step (r.runOne predicate times') (max threads 1) p q → q.work < p.work) ∧
    ∀ p : Pool, ¬ p.AtRest → ∃ q, Pool.Step (r.runOne predicate times') (max threads 1) p q
  /-- Parameters that are refused are refused alike, and no trial begins. -/
  rejected : ∀ f, checkAssertion expected (.trials n) confidence = .error f →
    r.noted predicate times elapsed expected confidence n = (.error f, []) ∧
    (assertPool (Trials.noted (r.runOne predicate times')) expected n threads confidence
      refusal).play [] = (.error f, []) ∧
    ∀ result, r.Pooled predicate times' refusal expected confidence n threads result →
      result = .error f
  /-- A pool that does not start fails the assertion, and no trial begins. -/
  unstarted : checkAssertion expected (.trials n) confidence = .ok () →
    ∀ reason, refusal = some reason →
    (assertPool (Trials.noted (r.runOne predicate times')) expected n threads confidence
      refusal).play [] = (.error (.invalidSettings (.pool reason)), []) ∧
    ∀ result, r.Pooled predicate times' refusal expected confidence n threads result →
      result = .error (.invalidSettings (.pool reason))
  /-- Where all trials succeed, and alike in both runs, there is one report, of just these trials. -/
  succeeded : checkAssertion expected (.trials n) confidence = .ok () →
    (∀ i < n, ∃ t, r.runOne predicate times i = .ok t ∧ r.runOne predicate times' i = .ok t) →
    ∃ trials, r.Ran predicate times n trials ∧ r.Ran predicate times' n trials ∧
      (∀ readings, r.Ran predicate readings n trials →
        r.runIsolated n predicate readings = .ok trials) ∧
      (Report.judge trials expected confidence).trials = trials ∧
      r.noted predicate times elapsed expected confidence n =
        (.ok (Report.judge trials expected confidence), List.range n) ∧
      (refusal = none →
        ∀ result, r.Pooled predicate times' refusal expected confidence n threads result →
          result = .ok (Report.judge trials expected confidence))
  /-- Where some fail, the sequence stops at the first one. -/
  stops : checkAssertion expected (.trials n) confidence = .ok () →
    (∃ i < n, ∃ f, r.runOne predicate times i = .error f) →
    ∃ k < n, ∃ f, r.runOne predicate times k = .error f ∧
      (∀ j < k, ∃ t, r.runOne predicate times j = .ok t) ∧
      r.noted predicate times elapsed expected confidence n = (.error f, List.range (k + 1))
  /-- Where some fail, the pool blames one of them. -/
  blames : checkAssertion expected (.trials n) confidence = .ok () → refusal = none →
    (∃ i < n, ∃ f, r.runOne predicate times' i = .error f) →
    ∀ result, r.Pooled predicate times' refusal expected confidence n threads result →
      ∃ i < n, ∃ f, r.runOne predicate times' i = .error f ∧ result = .error f

/-! ## What the pool can come to -/

section

variable {result : Except Fault (Report Binary64)}

end

end Fickle.Runner

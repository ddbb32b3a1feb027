import Fickle.Proofs.Rate.Verdict
import Fickle.Proofs.Binary64.Bounds
import Fickle.Proofs.Except
import Fickle.Rate.Calibration

/-! # A calibration counts each assertion once

Each assertion of a calibration has a stream of its own, and so a verdict of its own, whatever
assertions come before and after it. The parameters are checked again by each of them, so a
calibration that fails does so before anything is drawn.
-/

namespace Fickle

namespace Calibration

/-! ## Tosses in a row -/

section

variable {σ : Type}

theorem run_bind_of_ok {β γ : Type} {x : ExceptT Fault (StateM σ) β} {a : β} {s s' : σ}
    (h : x.run s = (.ok a, s')) (f : β → ExceptT Fault (StateM σ) γ) :
    (x >>= f).run s = (f a).run s' := by
  have hbind : (x >>= f).run s = ExceptT.bindCont f (x.run s).1 (x.run s).2 := rfl
  rw [hbind, h]
  rfl

theorem run_bind_of_error {β γ : Type} {x : ExceptT Fault (StateM σ) β} {fault : Fault} {s s' : σ}
    (h : x.run s = (.error fault, s')) (f : β → ExceptT Fault (StateM σ) γ) :
    (x >>= f).run s = (.error fault, s') := by
  have hbind : (x >>= f).run s = ExceptT.bindCont f (x.run s).1 (x.run s).2 := rfl
  rw [hbind, h]
  rfl

variable (draw : σ → Bool × σ)

/-- The tosses that `n` draws give, the first one first, and what they leave to draw from. -/
def tosses : Nat → σ → List Bool × σ
  | 0, s => ([], s)
  | n + 1, s => ((draw s).1 :: (tosses n (draw s).2).1, (tosses n (draw s).2).2)

/-- A trial that is one draw. -/
def drawn : ExceptT Fault (StateM σ) Bool :=
  ExceptT.mk fun s => (.ok (draw s).1, (draw s).2)

/-- Tosses as the trials of an assertion, from index `i` on. -/
def trialsFrom (i : Nat) : List Bool → List Trial
  | [] => []
  | b :: bs => ⟨i, b⟩ :: trialsFrom (i + 1) bs

theorem length_tosses (n : Nat) (s : σ) : (tosses draw n s).1.length = n := by
  induction n generalizing s with
  | zero => rfl
  | succ n ih => rw [tosses, List.length_cons, ih]

theorem length_trialsFrom (i : Nat) (bs : List Bool) : (trialsFrom i bs).length = bs.length := by
  induction bs generalizing i with
  | nil => rfl
  | cons b bs ih => rw [trialsFrom, List.length_cons, ih, List.length_cons]

theorem run_runTrials (n i : Nat) (done : List Trial) (s : σ) :
    (runTrials (fun _ => drawn draw) (fun _ => true) n i done).run s =
      (.ok (done.reverse ++ trialsFrom i (tosses draw n s).1), (tosses draw n s).2) := by
  induction n generalizing i done s with
  | zero =>
    rw [tosses, trialsFrom, List.append_nil]
    rfl
  | succ n ih =>
    have hstep : (runTrials (fun _ => drawn draw) (fun _ => true) (n + 1) i done).run s =
        (runTrials (fun _ => drawn draw) (fun _ => true) n (i + 1) (⟨i, (draw s).1⟩ :: done)).run
          (draw s).2 := rfl
    rw [hstep, ih, tosses, trialsFrom, List.reverse_cons, List.append_assoc]
    rfl

variable {expected confidence : Binary64} {n : Nat}

theorem run_assertRate_of_rejected {fault : Fault}
    (h : checkAssertion expected (.trials n) confidence = .error fault) (s : σ) :
    (assertRate (fun _ => drawn draw) (fun _ => Duration.zero) expected (.trials n) confidence).run
      s = (.error fault, s) := by
  unfold assertRate
  rw [h]
  rfl

theorem run_assertRate_of_accepted
    (h : checkAssertion expected (.trials n) confidence = .ok ()) (s : σ) :
    (assertRate (fun _ => drawn draw) (fun _ => Duration.zero) expected (.trials n) confidence).run
      s = (.ok (Report.judge (trialsFrom 0 (tosses draw n s).1) expected confidence),
        (tosses draw n s).2) := by
  have hrun := run_runTrials draw n 0 [] s
  unfold assertRate
  rw [h]
  exact run_bind_of_ok hrun _

end

/-! ## One assertion -/

/-- Whether the assertions of a calibration can be made at all. -/
def check (c : Calibration) : Except Fault Unit :=
  checkAssertion c.rate (.trials c.trials) c.confidence

/-- The stream of the assertion with index `i`. -/
def stream (c : Calibration) (i : Nat) : Stream :=
  Stream.ofSeed (Stream.subseed c.seed (UInt64.ofNat i))

/-- The report of the assertion with index `i`, where it can be made. -/
def report (c : Calibration) (i : Nat) : Report Binary64 :=
  Report.judge (trialsFrom 0 (tosses (Stream.bernoulli c.rate) c.trials (c.stream i)).1) c.rate
    c.confidence

def verdict (c : Calibration) (i : Nat) : Verdict := (c.report i).verdict

variable {c : Calibration} {fault : Fault}

-- An assertion tosses by draws of its stream, which is how a trial is put in the lemmas above.
theorem assertion_of_rejected (h : c.check = .error fault) (i : Nat) :
    c.assertion i = (.error fault, c.stream i) :=
  run_assertRate_of_rejected _ h (c.stream i)

theorem fst_assertion (h : c.check = .ok ()) (i : Nat) : (c.assertion i).1 = .ok (c.report i) :=
  congrArg Prod.fst (run_assertRate_of_accepted _ h (c.stream i))

theorem verdict_eq_inconclusive_iff (c : Calibration) (i : Nat) :
    c.verdict i = .inconclusive ↔ c.trials < (minTrials c.rate).toNat := by
  have hlength : (trialsFrom 0 (tosses (Stream.bernoulli c.rate) c.trials (c.stream i)).1).length =
      c.trials := by
    rw [length_trialsFrom, length_tosses]
  unfold verdict report Report.judge Report.judgeBy
  rw [verdictOf_eq_inconclusive_iff, hlength]
  rfl

/-! ## Noted tosses -/

/-- A toss of which the rate is noted. -/
def notedToss (rate : Binary64) (s : Stream × List Binary64) : Bool × Stream × List Binary64 :=
  ((s.1.bernoulli rate).1, (s.1.bernoulli rate).2, s.2 ++ [rate])

/-- The assertion with index `i`, which notes the rate of every toss that it makes. -/
def notedAssertion (c : Calibration) (i : Nat) :
    ExceptT Fault (StateM (List Binary64)) (Report Binary64) :=
  ExceptT.mk fun asked => Prod.map id Prod.snd
    ((assertRate (fun _ => drawn (notedToss c.rate)) (fun _ => Duration.zero) c.rate
      (.trials c.trials) c.confidence).run (c.stream i, asked))

def notedFrom (c : Calibration) : Nat → Nat → Counts → ExceptT Fault (StateM (List Binary64)) Counts
  | 0, _, counts => return counts
  | n + 1, i, counts => do
    let report ← c.notedAssertion i
    c.notedFrom n (i + 1) (counts.add report.verdict)

/-- What a calibration comes to, and the rates of all tosses on the way, the first one first. -/
def noted (c : Calibration) : Except Fault Counts × List Binary64 :=
  (c.notedFrom c.metaTrials 0 Counts.zero).run []

theorem tosses_notedToss (rate : Binary64) (n : Nat) (s : Stream) (asked : List Binary64) :
    tosses (notedToss rate) n (s, asked) =
      ((tosses (Stream.bernoulli rate) n s).1, (tosses (Stream.bernoulli rate) n s).2,
        asked ++ List.replicate n rate) := by
  induction n generalizing s asked with
  | zero => rw [tosses, tosses, List.replicate_zero, List.append_nil]
  | succ n ih =>
    rw [tosses, tosses, notedToss, ih, List.replicate_succ, List.append_assoc]
    rfl

theorem run_notedAssertion_of_rejected (h : c.check = .error fault) (i : Nat)
    (asked : List Binary64) : (c.notedAssertion i).run asked = (.error fault, asked) :=
  congrArg (Prod.map id Prod.snd) (run_assertRate_of_rejected _ h (c.stream i, asked))

theorem run_notedAssertion (h : c.check = .ok ()) (i : Nat) (asked : List Binary64) :
    (c.notedAssertion i).run asked =
      (.ok (c.report i), asked ++ List.replicate c.trials c.rate) := by
  have hrun := congrArg (Prod.map id Prod.snd)
    (run_assertRate_of_accepted (notedToss c.rate) h (c.stream i, asked))
  rw [tosses_notedToss] at hrun
  exact hrun

/-- The notes change nothing. -/
theorem fst_run_notedFrom (c : Calibration) (n i : Nat) (counts : Counts) (asked : List Binary64) :
    ((c.notedFrom n i counts).run asked).1 = c.runFrom n i counts := by
  induction n generalizing i counts asked with
  | zero => rfl
  | succ n ih =>
    rw [notedFrom, runFrom]
    rcases h : c.check with fault | ⟨⟩
    · rw [run_bind_of_error (run_notedAssertion_of_rejected h i asked), assertion_of_rejected h]
      rfl
    · rw [run_bind_of_ok (run_notedAssertion h i asked), ih, fst_assertion h]
      rfl

/-! ## Counts -/

namespace Counts

/-- How often each verdict was given. -/
def of (vs : List Verdict) : Counts :=
  ⟨vs.count .pass, vs.count .fail, vs.count .inconclusive⟩

theorem add_of (vs : List Verdict) (v : Verdict) : (of vs).add v = of (vs ++ [v]) := by
  cases v <;> simp [of, add, List.count_append]

theorem total_of (vs : List Verdict) : (of vs).total = vs.length := by
  induction vs with
  | nil => rfl
  | cons v vs ih =>
    unfold total of at ih ⊢
    rw [List.length_cons, ← ih]
    cases v <;> simp <;> omega

end Counts

/-- The verdicts of the first `n` assertions. -/
def verdicts (c : Calibration) (n : Nat) : List Verdict := (List.range n).map c.verdict

theorem verdicts_add (c : Calibration) (m n : Nat) :
    c.verdicts (m + n) = c.verdicts m ++ (List.range' m n).map c.verdict := by
  rw [verdicts, List.range_add, ← List.range'_eq_map_range, List.map_append]
  rfl

theorem count_inconclusive (c : Calibration) (n : Nat) :
    (c.verdicts n).count .inconclusive = if c.trials < (minTrials c.rate).toNat then n else 0 := by
  have hlength : (c.verdicts n).length = n := by
    rw [verdicts, List.length_map, List.length_range]
  split
  · rename_i hfew
    have hall : ∀ v ∈ c.verdicts n, Verdict.inconclusive = v := by
      intro v hv
      obtain ⟨i, -, rfl⟩ := List.mem_map.mp hv
      exact ((c.verdict_eq_inconclusive_iff i).mpr hfew).symm
    rw [List.count_eq_length.mpr hall, hlength]
  · rename_i henough
    refine List.count_eq_zero.mpr fun hmem => henough ?_
    obtain ⟨i, -, hi⟩ := List.mem_map.mp hmem
    exact (c.verdict_eq_inconclusive_iff i).mp hi

/-! ## Whole calibrations -/

theorem run_notedFrom (h : c.check = .ok ()) (n m : Nat) (asked : List Binary64) :
    (c.notedFrom n m (Counts.of (c.verdicts m))).run asked =
      (.ok (Counts.of (c.verdicts (m + n))), asked ++ List.replicate (n * c.trials) c.rate) := by
  induction n generalizing m asked with
  | zero =>
    rw [Nat.zero_mul, List.replicate_zero, List.append_nil]
    rfl
  | succ n ih =>
    have hnext : (Counts.of (c.verdicts m)).add (c.report m).verdict =
        Counts.of (c.verdicts (m + 1)) := by
      rw [verdicts_add, List.range'_one]
      exact Counts.add_of _ _
    rw [notedFrom, run_bind_of_ok (run_notedAssertion h m asked), hnext, ih, List.append_assoc,
      List.replicate_append_replicate, Nat.succ_mul, Nat.add_comm c.trials, Nat.add_assoc,
      Nat.add_comm 1]

theorem fst_noted (c : Calibration) : c.noted.1 = c.run :=
  c.fst_run_notedFrom c.metaTrials 0 Counts.zero []

/-- The rate is a probability, the confidence leaves a doubt, and there is a trial to make. -/
structure Valid (c : Calibration) : Prop where
  rate : (0.0 : Binary64) ≤ c.rate ∧ c.rate ≤ 1.0
  confidence : (0.0 : Binary64) < c.confidence ∧ c.confidence < 1.0
  trials : 0 < c.trials

theorem isFinite_of_within {rate : Binary64} (h : (0.0 : Binary64) ≤ rate ∧ rate ≤ 1.0) :
    Scalar.isFinite rate = true := by
  have hwithin : Scalar.within 0.0 1.0 rate = true := decide_eq_true h
  exact (Binary64.bounded_of_within (by decide) (by decide) hwithin).isFinite_eq_true

theorem check_eq_ok_iff : c.check = .ok () ↔ c.Valid := by
  have hrate : (Scalar.isFinite c.rate && Scalar.within 0.0 1.0 c.rate) = true ↔
      (0.0 : Binary64) ≤ c.rate ∧ c.rate ≤ 1.0 := by
    rw [Bool.and_eq_true, Scalar.within, decide_eq_true_iff]
    exact ⟨And.right, fun h => ⟨isFinite_of_within h, h⟩⟩
  have hbudget : (Budget.trials c.trials).isEmpty = true ↔ c.trials = 0 := beq_iff_eq
  unfold check checkAssertion
  constructor
  · intro h
    split at h
    · cases h
    rename_i hexpected
    split at h
    · cases h
    rename_i hconfidence
    split at h
    · cases h
    rename_i hspend
    exact ⟨hrate.mp (by simpa using hexpected), by simpa using hconfidence,
      Nat.pos_of_ne_zero (mt hbudget.mpr hspend)⟩
  · rintro ⟨hr, hc, ht⟩
    have hspend : ¬ (Budget.trials c.trials).isEmpty = true := mt hbudget.mp (Nat.ne_of_gt ht)
    rw [if_neg (by simp [hrate.mpr hr]), if_neg (by simp [hc]), if_neg hspend]

theorem exists_check_eq_error_iff : (∃ fault, c.check = .error fault) ↔ ¬ c.Valid := by
  rw [exists_eq_error_iff, ← check_eq_ok_iff]
  exact ⟨fun h => h (), fun h _ => h⟩

/-- What holds of a calibration, whatever its parameters. -/
structure CountsOnce (c : Calibration) : Prop where
  /-- It fails just when there is an assertion to make and none can be made. -/
  fails : (∃ fault, c.run = .error fault) ↔ 0 < c.metaTrials ∧ ¬ c.Valid
  noted : c.noted.1 = c.run
  /-- Nothing is drawn where it fails: no toss is made, and every stream is left as it was. -/
  undrawn : ∀ fault, c.run = .error fault →
    c.noted.2 = [] ∧ ∀ i, (c.assertion i).2 = c.stream i
  /-- No toss is asked for at a rate that is no probability. -/
  proper : ∀ rate ∈ c.noted.2, (0.0 : Binary64) ≤ rate ∧ rate ≤ 1.0
  /-- All trials of all assertions are made. -/
  drawn : ∀ counts, c.run = .ok counts →
    c.noted.2 = List.replicate (c.metaTrials * c.trials) c.rate
  total : ∀ counts, c.run = .ok counts → counts.total = c.metaTrials
  inconclusive : ∀ counts, c.run = .ok counts →
    counts.inconclusive = if c.trials < (minTrials c.rate).toNat then c.metaTrials else 0
  /-- Each assertion has its verdict, however many there are. -/
  verdicts : ∃ verdict : Nat → Verdict, ∀ n counts, { c with metaTrials := n }.run = .ok counts →
    counts = Counts.of ((List.range n).map verdict)
  longer : ∀ n counts more, c.run = .ok counts →
    { c with metaTrials := c.metaTrials + n }.run = .ok more →
      ∃ rest : Counts, rest.total = n ∧ more = ⟨counts.passes + rest.passes,
        counts.fails + rest.fails, counts.inconclusive + rest.inconclusive⟩

/-- Either it fails at the first assertion, or it comes to the verdicts of all of them. -/
theorem noted_eq (c : Calibration) :
    (0 < c.metaTrials ∧ ¬ c.Valid ∧ ∃ fault, c.noted = (.error fault, [])) ∨
      (c.metaTrials = 0 ∨ c.Valid) ∧
        c.noted = (.ok (Counts.of (c.verdicts c.metaTrials)),
          List.replicate (c.metaTrials * c.trials) c.rate) := by
  rcases h : c.check with fault | ⟨⟩
  · rcases hn : c.metaTrials with _ | n
    · refine .inr ⟨.inl rfl, ?_⟩
      rw [noted, hn, Nat.zero_mul]
      rfl
    · refine .inl ⟨Nat.succ_pos n, exists_check_eq_error_iff.mp ⟨fault, h⟩, fault, ?_⟩
      rw [noted, hn, notedFrom, run_bind_of_error (run_notedAssertion_of_rejected h 0 [])]
  · refine .inr ⟨.inr (check_eq_ok_iff.mp h), ?_⟩
    have hrun := run_notedFrom h c.metaTrials 0 []
    rwa [Nat.zero_add, List.nil_append] at hrun

theorem of_run_eq_ok {counts : Counts} (h : c.run = .ok counts) :
    counts = Counts.of (c.verdicts c.metaTrials) ∧
      c.noted.2 = List.replicate (c.metaTrials * c.trials) c.rate := by
  rw [← fst_noted] at h
  obtain ⟨-, -, fault, hnoted⟩ | ⟨-, hnoted⟩ := c.noted_eq
  · rw [hnoted] at h
    cases h
  · rw [hnoted] at h ⊢
    cases h
    exact ⟨rfl, rfl⟩

theorem of_run_eq_error (h : c.run = .error fault) :
    0 < c.metaTrials ∧ ¬ c.Valid ∧ c.noted.2 = [] := by
  rw [← fst_noted] at h
  obtain ⟨hpos, hvalid, fault', hnoted⟩ | ⟨-, hnoted⟩ := c.noted_eq
  · exact ⟨hpos, hvalid, by rw [hnoted]⟩
  · rw [hnoted] at h
    cases h

theorem snd_assertion_of_not_valid (h : ¬ c.Valid) (i : Nat) : (c.assertion i).2 = c.stream i := by
  obtain ⟨fault, hcheck⟩ := exists_check_eq_error_iff.mpr h
  exact congrArg Prod.snd (assertion_of_rejected hcheck i)

theorem exists_run_eq_error_iff :
    (∃ fault, c.run = .error fault) ↔ 0 < c.metaTrials ∧ ¬ c.Valid := by
  constructor
  · rintro ⟨fault, h⟩
    obtain ⟨hpos, hvalid, -⟩ := of_run_eq_error h
    exact ⟨hpos, hvalid⟩
  · rintro ⟨hpos, hvalid⟩
    obtain ⟨-, -, fault, hnoted⟩ | ⟨hfine, -⟩ := c.noted_eq
    · exact ⟨fault, by rw [← fst_noted, hnoted]⟩
    · exact absurd hvalid (not_not_intro (hfine.resolve_left (Nat.ne_of_gt hpos)))

/-- Whatever its parameters are, a calibration fails before anything is drawn, or counts each of its
assertions once, with a verdict that the others have no part in. -/
theorem assertions_are_counted_once (c : Calibration) : c.CountsOnce where
  fails := exists_run_eq_error_iff
  noted := c.fst_noted
  undrawn := by
    intro fault h
    obtain ⟨-, hvalid, hnone⟩ := of_run_eq_error h
    exact ⟨hnone, snd_assertion_of_not_valid hvalid⟩
  proper := by
    intro rate hrate
    obtain ⟨-, -, fault, hnoted⟩ | ⟨hidle | hvalid, hnoted⟩ := c.noted_eq
    · rw [hnoted] at hrate
      cases hrate
    · rw [hnoted, hidle, Nat.zero_mul] at hrate
      cases hrate
    · rw [hnoted] at hrate
      rw [List.eq_of_mem_replicate hrate]
      exact hvalid.rate
  drawn _ h := (of_run_eq_ok h).2
  total := by
    intro counts h
    rw [(of_run_eq_ok h).1, Counts.total_of, verdicts, List.length_map, List.length_range]
  inconclusive := by
    intro counts h
    rw [(of_run_eq_ok h).1]
    exact c.count_inconclusive c.metaTrials
  verdicts := ⟨c.verdict, fun _ _ h => (of_run_eq_ok h).1⟩
  longer := by
    intro n counts more h hmore
    refine ⟨Counts.of ((List.range' c.metaTrials n).map c.verdict), ?_, ?_⟩
    · rw [Counts.total_of, List.length_map, List.length_range']
    · have hverdicts : verdicts { c with metaTrials := c.metaTrials + n } (c.metaTrials + n) =
          c.verdicts c.metaTrials ++ (List.range' c.metaTrials n).map c.verdict :=
        c.verdicts_add c.metaTrials n
      rw [(of_run_eq_ok h).1, (of_run_eq_ok hmore).1, hverdicts]
      simp [Counts.of, List.count_append]

-- With no assertion to make, nobody looks at the other parameters.
example : { standard with trials := 0 }.run = .error .emptyBudget := rfl
example : { standard with trials := 0, metaTrials := 0 }.run = .ok Counts.zero := rfl

end Calibration

end Fickle

import Fickle.Proofs.Drift.Reads
import Fickle.Proofs.Session.Evaluate

/-! # Reads that are refused

A read is booked in its variable before its call is evaluated. A call that is refused leaves the
session as it was, but the variable does not go back: the read counts as an access, and its time
stays the time of the last one. So the books count the reads that were asked for, and not the ones
that were answered.
-/

namespace Fickle

/-! ## One read -/

/-- Why a session refuses to evaluate a read of `v`. -/
inductive Session.Refuses (s : Session) (v : DriftVar) : Fault → Prop where
  | notFinite (h : Scalar.isFinite v.aging.nominal = false) :
      Refuses s v (.invalidArgument .timeDrift .nominalNotFinite)
  | exhausted {log : Log} {k : Nat} (h : Scalar.isFinite v.aging.nominal = true)
      (hmode : s.mode = .replaying ⟨log, k⟩) (hend : log.decisions[k]? = none) :
      Refuses s v (.replayExhausted s.next v.site .timeDrift)
  | divergence {log : Log} {k : Nat} {d : Decision} (h : Scalar.isFinite v.aging.nominal = true)
      (hmode : s.mode = .replaying ⟨log, k⟩) (hd : log.decisions[k]? = some d)
      (hconstruct : d.construct ≠ .timeDrift) :
      Refuses s v (.replayDivergence s.next v.site d.construct .timeDrift)
  | siteMismatch {log : Log} {k : Nat} {d : Decision} (h : Scalar.isFinite v.aging.nominal = true)
      (hmode : s.mode = .replaying ⟨log, k⟩) (hd : log.decisions[k]? = some d)
      (hconstruct : d.construct = .timeDrift) (hsite : d.site ≠ v.site) :
      Refuses s v (.replaySiteMismatch s.next .timeDrift d.site v.site)

namespace DriftVar

variable {v : DriftVar} {h : Host} {f : Fault}

/-- The arguments of the call that a read at `now` makes. -/
def request (v : DriftVar) (now : Duration) : Args Binary64 := .drift (v.aging.touch now).1

/-- The variable with a read at `now` in its books. -/
def touched (v : DriftVar) (now : Duration) : DriftVar :=
  { v with aging := (v.aging.touch now).2 }

/-- What a read gives, the variable after it, and the host after it. -/
def read (v : DriftVar) (h : Host) : Except Fault Binary64 × DriftVar × Host :=
  let ((result, v'), h') := (Program.timeDrift v).run h
  (result, v', h')

theorem read_eq (v : DriftVar) (h : Host) :
    v.read h = match h.session.evaluate .timeDrift v.site (v.request h.clock.now) with
      | .error f => (.error f, v.touched h.clock.now,
          if f.isDivergence then h.report .replayDiverged else h)
      | .ok (o, s) =>
        (match o.asFloat? with
          | some x => .ok x
          | none => .error (Program.misfit s .timeDrift o),
          v.touched h.clock.now, { h with session := s }) := by
  have hread : v.read h =
      let r := (Program.call .timeDrift Outcome.asFloat? v.site (v.request h.clock.now)).play h
      (r.1, v.touched h.clock.now, r.2) := rfl
  rw [hread, Program.call, Program.play_bind, Program.play_evaluate]
  rcases h.session.evaluate .timeDrift v.site (v.request h.clock.now) with f | ⟨o, s⟩
  · rfl
  · -- A read has no odds of its own that could be scaled.
    have hodds : h.session.scalesOdds (v.request h.clock.now) = false := rfl
    dsimp only
    rw [hodds, if_neg Bool.false_ne_true, Program.play_expect]
    rcases o.asFloat? with _ | x
    · rfl
    · rfl

theorem check_request (v : DriftVar) (now : Duration) :
    (v.request now).check .timeDrift =
      if Scalar.isFinite v.aging.nominal then .ok ()
      else .error (.invalidArgument .timeDrift .nominalNotFinite) := by
  have hflaw : (v.request now).flaw? =
      if Scalar.isFinite v.aging.nominal then none else some .nominalNotFinite := rfl
  unfold Args.check
  rw [hflaw, if_neg (fun hshape => hshape rfl)]
  rcases Scalar.isFinite v.aging.nominal
  · rfl
  · rfl

theorem evaluate_of_refuses {s : Session} (hrefuses : s.Refuses v f) (now : Duration) :
    s.evaluate .timeDrift v.site (v.request now) = .error f := by
  have hcheck := v.check_request now
  cases hrefuses with
  | notFinite h =>
    rw [h, if_neg Bool.false_ne_true] at hcheck
    exact Session.evaluate_of_check_eq_error hcheck _ _
  | exhausted h hmode hend =>
    rw [h, if_pos rfl] at hcheck
    simp only [Session.evaluate_of_replaying hmode, Log.lookup, hcheck, hend]
  | divergence h hmode hd hconstruct =>
    rw [h, if_pos rfl] at hcheck
    simp only [Session.evaluate_of_replaying hmode, Log.lookup, hcheck, hd, if_pos hconstruct]
  | siteMismatch h hmode hd hconstruct hsite =>
    rw [h, if_pos rfl] at hcheck
    simp only [Session.evaluate_of_replaying hmode, Log.lookup, hcheck, hd, hconstruct,
      if_pos hsite, ne_eq, not_true, if_false]

theorem refuses_of_evaluate {s : Session} {now : Duration}
    (heval : s.evaluate .timeDrift v.site (v.request now) = .error f) : s.Refuses v f := by
  have hcheck := v.check_request now
  rcases hfinite : Scalar.isFinite v.aging.nominal
  · rw [hfinite, if_neg Bool.false_ne_true] at hcheck
    rw [Session.evaluate_of_check_eq_error hcheck] at heval
    cases heval
    exact .notFinite hfinite
  rw [hfinite, if_pos rfl] at hcheck
  -- With good arguments only a replay refuses, where the log does not go on with the read.
  rcases hreplaying : s.isReplaying
  · rw [Session.evaluate_eq_error_iff_of_not_replaying hreplaying, hcheck] at heval
    cases heval
  · obtain ⟨log, k, hmode⟩ := Session.exists_cursor hreplaying
    simp only [Session.evaluate_of_replaying hmode, Log.lookup, hcheck] at heval
    rcases hd : log.decisions[k]? with _ | d
    · rw [hd] at heval
      cases heval
      exact .exhausted hfinite hmode hd
    simp only [hd] at heval
    by_cases hconstruct : d.construct = .timeDrift
    · by_cases hsite : d.site = v.site
      · simp [hconstruct, hsite] at heval
      · rw [if_neg (not_not_intro hconstruct), if_pos hsite] at heval
        cases heval
        exact .siteMismatch hfinite hmode hd hconstruct hsite
    · rw [if_pos hconstruct] at heval
      cases heval
      exact .divergence hfinite hmode hd hconstruct

/-- A read changes its variable unless the counter is at its end and the time is the last one. -/
theorem touched_eq_iff {now : Duration} :
    v.touched now = v ↔ v.aging.accesses.toNat = UInt64.size - 1 ∧
      v.aging.lastAccess = some (v.aging.booked now) := by
  have haccesses := v.aging.accesses_touch now
  have hlast := v.aging.lastAccess_touch now
  have hlt := v.aging.accesses.toNat_lt_size
  constructor
  · intro hsame
    have haging : (v.aging.touch now).2 = v.aging := congrArg aging hsame
    rw [haging] at haccesses hlast
    exact ⟨by omega, hlast⟩
  · rintro ⟨hend, hbooked⟩
    -- At its end the counter stays where it is.
    have hcount : (v.aging.touch now).2.accesses = v.aging.accesses :=
      UInt64.toNat_inj.mp (by omega)
    have haging : (v.aging.touch now).2 = v.aging := by
      unfold Aging.touch at hcount ⊢
      unfold Aging.booked at hbooked
      dsimp only at hcount ⊢
      rw [hcount, ← hbooked]
    unfold touched
    rw [haging]

/-- How a read of `v` ends on a host, answered or not. -/
structure Books (v : DriftVar) (h : Host) : Prop where
  var : (v.read h).2.1 = v.touched h.clock.now
  accesses : (v.read h).2.1.aging.accesses.toNat =
    min (UInt64.size - 1) (v.aging.accesses.toNat + 1)
  lastAccess : (v.read h).2.1.aging.lastAccess = some (v.aging.booked h.clock.now)
  unchanged_iff : (v.read h).2.1 = v ↔ v.aging.accesses.toNat = UInt64.size - 1 ∧
    v.aging.lastAccess = some (v.aging.booked h.clock.now)
  refuses_iff : ∀ f, h.session.evaluate .timeDrift v.site (v.request h.clock.now) = .error f ↔
    h.session.Refuses v f
  /-- A refusal leaves the host as it was but for an entry in the journal. -/
  refused : ∀ f, h.session.Refuses v f → (v.read h).1 = .error f ∧
    (v.read h).2.2 = if f.isDivergence then h.report .replayDiverged else h
  answered : ∀ o s, h.session.evaluate .timeDrift v.site (v.request h.clock.now) = .ok (o, s) →
    h.session.Booked s ∧ (v.read h).2.2 = { h with session := s } ∧
      ∀ x, o.asFloat? = some x → (v.read h).1 = .ok x

theorem var_read (v : DriftVar) (h : Host) : (v.read h).2.1 = v.touched h.clock.now := rfl

theorem books (v : DriftVar) (h : Host) : v.Books h where
  var := v.var_read h
  accesses := v.aging.accesses_touch h.clock.now
  lastAccess := v.aging.lastAccess_touch h.clock.now
  unchanged_iff := touched_eq_iff
  refuses_iff f := ⟨refuses_of_evaluate, fun hrefuses => evaluate_of_refuses hrefuses _⟩
  refused f hrefuses := by
    rw [read_eq, evaluate_of_refuses hrefuses]
    exact ⟨rfl, rfl⟩
  answered o s heval := by
    refine ⟨.of_evaluate_eq_ok heval, ?_, fun x hx => ?_⟩
    · rw [read_eq, heval]
    · rw [read_eq, heval]
      dsimp only
      rw [hx]

end DriftVar

/-! ## Reads among other things -/

/-- A variable on its host, and what the reads since the declaration or the last assignment gave. -/
structure Ledger where
  host : Host
  var : DriftVar
  results : List (Except Fault Binary64)

namespace Ledger

/-- What is done with the variable, or with its host in between. -/
inductive Act where
  | read
  | assign (nominal : Binary64)
  | change (host : Host)

def declare (h : Host) (site : Site) (nominal : Binary64) : Ledger :=
  ⟨h, ⟨site, Aging.declared nominal h.clock.now⟩, []⟩

def act (l : Ledger) : Act → Ledger
  | .read =>
    let (result, var, host) := l.var.read l.host
    ⟨host, var, l.results ++ [result]⟩
  | .assign nominal => { l with var := l.var.assign nominal l.host.clock.now, results := [] }
  | .change host => { l with host }

def run (l : Ledger) (acts : List Act) : Ledger := acts.foldl act l

theorem run_concat (l : Ledger) (acts : List Act) (a : Act) :
    l.run (acts ++ [a]) = (l.run acts).act a := List.foldl_append

theorem mem_results_act_read (l : Ledger) : (l.var.read l.host).1 ∈ (l.act .read).results :=
  List.mem_append_right l.results List.mem_cons_self

/-- The reads that were answered. -/
def answered (l : Ledger) : Nat := l.results.countP Except.isOk

/-- The books count all reads, as far as the counter goes. -/
structure Counted (l : Ledger) : Prop where
  accesses : l.var.aging.accesses.toNat = min (UInt64.size - 1) l.results.length
  lastAccess : l.var.aging.lastAccess = none ↔ l.results = []

theorem counted_declare (h : Host) (site : Site) (nominal : Binary64) :
    (declare h site nominal).Counted where
  accesses := (Nat.min_eq_right (Nat.zero_le _)).symm
  lastAccess := iff_of_true rfl rfl

variable {l : Ledger}

theorem Counted.act (hl : l.Counted) (a : Act) : (l.act a).Counted := by
  cases a with
  | read =>
    have haccesses := l.var.aging.accesses_touch l.host.clock.now
    rw [hl.accesses] at haccesses
    refine ⟨?_, iff_of_false (Option.some_ne_none _)
      (List.append_ne_nil_of_right_ne_nil _ (List.cons_ne_nil _ _))⟩
    show (l.var.aging.touch l.host.clock.now).2.accesses.toNat = min _ (l.results ++ [_]).length
    rw [haccesses, List.length_append]
    simp only [List.length_singleton]
    omega
  | assign nominal => exact ⟨(Nat.min_eq_right (Nat.zero_le _)).symm, iff_of_true rfl rfl⟩
  | change host => exact ⟨hl.accesses, hl.lastAccess⟩

theorem Counted.run (hl : l.Counted) (acts : List Act) : (l.run acts).Counted := by
  induction acts generalizing l with
  | nil => exact hl
  | cons a acts ih => exact ih (hl.act a)

/-- Short of the end of the counter the books count the answered reads just when none failed. -/
theorem Counted.accesses_eq_answered_iff (hl : l.Counted) (hlt : l.results.length < UInt64.size) :
    l.var.aging.accesses.toNat = l.answered ↔ ∀ r ∈ l.results, r.isOk = true := by
  have hcount : l.var.aging.accesses.toNat = l.results.length := by
    rw [hl.accesses]
    omega
  rw [hcount, ← List.countP_eq_length]
  exact eq_comm

end Ledger

/-- A read that the session refuses leaves the session as it was, and is booked in its variable like
a read that is answered: the access is counted and its time is the last one. So whatever else is done
in between, the books count all reads since the declaration or the last assignment. -/
theorem DriftVar.refused_reads_are_booked (v : DriftVar) (h : Host) :
    v.Books h ∧ ∀ (site : Site) (nominal : Binary64) (acts : List Ledger.Act),
      let l := (Ledger.declare h site nominal).run acts
      l.Counted ∧ (l.results.length < UInt64.size →
        (l.var.aging.accesses.toNat = l.answered ↔ ∀ r ∈ l.results, r.isOk = true)) := by
  refine ⟨v.books h, fun site nominal acts => ?_⟩
  have hcounted := (Ledger.counted_declare h site nominal).run acts
  exact ⟨hcounted, hcounted.accesses_eq_answered_iff⟩

namespace Ledger

/-- A log with one read of a variable. -/
def readOnce : Log :=
  ⟨9, "playful", .least, false, #[⟨0, ⟨7⟩, .timeDrift, ⟨0x3FE0000000000000⟩, .float 100.0⟩]⟩

/-- The session that replays it from its start. -/
def rereader : Host :=
  Host.ofSession (Session.reader readOnce Registry.builtin Personality.playful.profile) Clock.zero

/-- The log goes on with the first read and has none left for the second. Both are in the books. -/
theorem refused_reads_are_booked_readTwice :
    let l := (declare rereader ⟨7⟩ 100.0).run [.read]
    l.host.session.Refuses l.var (.replayExhausted 1 ⟨7⟩ .timeDrift) ∧
      (l.var.read l.host).1 = .error (.replayExhausted 1 ⟨7⟩ .timeDrift) ∧
      (l.var.read l.host).2.2.session = l.host.session ∧
      l.var.aging.accesses.toNat = 1 ∧ (l.var.read l.host).2.1.aging.accesses.toNat = 2 ∧
      (l.act .read).var.aging.accesses.toNat ≠ (l.act .read).answered := by
  intro l
  have hmode : l.host.session.mode = .replaying ⟨readOnce, 1⟩ := rfl
  have hrefuses : l.host.session.Refuses l.var (.replayExhausted 1 ⟨7⟩ .timeDrift) :=
    .exhausted (by decide +kernel) hmode rfl
  obtain ⟨hbooks, -⟩ := DriftVar.refused_reads_are_booked l.var l.host
  obtain ⟨hresult, hhost⟩ := hbooks.refused _ hrefuses
  have hcount : l.var.aging.accesses.toNat = 1 := rfl
  refine ⟨hrefuses, hresult, ?_, hcount, ?_, ?_⟩
  · rw [hhost]
    rfl
  · rw [hbooks.accesses, hcount]
    rfl
  · obtain ⟨-, hanswered⟩ :=
      (DriftVar.refused_reads_are_booked l.var rereader).2 ⟨7⟩ 100.0 ([.read] ++ [.read])
    rw [run_concat] at hanswered
    intro hcounts
    have hok := (hanswered (by decide +kernel)).mp hcounts _ (mem_results_act_read l)
    rw [hresult] at hok
    cases hok

end Ledger

end Fickle

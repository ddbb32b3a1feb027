import Fickle.Proofs.Drift.Reads

/-! # A variable on a shared clock

Clocks are moved through handles, and all clones of a handle move the same clock. However these
moves are mixed with reads and assignments of a variable, its readings come in order. So nothing
that is subtracted in its books is cut off at zero.
-/

namespace Fickle

/-- Clocks, and a variable that is declared on one of them. -/
structure Watch (ι : Type) where
  clocks : ι → Clock
  var : DriftVar
  /-- What was declared, or assigned since, and the reading at that time. -/
  nominal : Binary64
  since : Duration
  /-- The readings at the reads since then, and what these gave. -/
  times : List Duration
  samples : List (DriftSample Binary64)

namespace Watch

/-- What is done through a handle on a clock. -/
inductive Act (η : Type) where
  | advance (handle : η) (step : Duration)
  | syncTo (handle : η) (target : Duration)
  | read (handle : η)
  | assign (handle : η) (nominal : Binary64)

section

variable {η ι : Type} [DecidableEq ι] (clock : η → ι)

/-- The variable is read and assigned on clock `i` only. Any clock may be moved. -/
def Act.KeepsTo (i : ι) : Act η → Prop
  | .advance _ _ | .syncTo _ _ => True
  | .read handle | .assign handle _ => clock handle = i

def now (w : Watch ι) (i : ι) : Duration := (w.clocks i).now

def setClock (w : Watch ι) (i : ι) (c : Clock) : Watch ι :=
  { w with clocks := fun j => if j = i then c else w.clocks j }

def declare (clocks : ι → Clock) (handle : η) (site : Site) (nominal : Binary64) : Watch ι :=
  let now := (clocks (clock handle)).now
  ⟨clocks, ⟨site, Aging.declared nominal now⟩, nominal, now, [], []⟩

/-- One act. Handles for which `clock` gives the same are clones of one another. -/
def act (w : Watch ι) : Act η → Watch ι
  | .advance handle step => w.setClock (clock handle) ((w.clocks (clock handle)).advance step)
  | .syncTo handle target => w.setClock (clock handle) ((w.clocks (clock handle)).syncTo target)
  | .read handle =>
    let now := w.now (clock handle)
    let (sample, aging) := w.var.aging.touch now
    { w with
      var.aging := aging
      times := w.times ++ [now]
      samples := w.samples ++ [sample] }
  | .assign handle nominal =>
    let now := w.now (clock handle)
    { w with
      var := w.var.assign nominal now
      nominal := nominal
      since := now
      times := []
      samples := [] }

def run (w : Watch ι) (acts : List (Act η)) : Watch ι := acts.foldl (act clock) w

end

variable {η ι : Type} {clock : η → ι} {w : Watch ι} {i j : ι}

/-! ## Readings -/

section

variable [DecidableEq ι]

theorem now_setClock_of_ne {c : Clock} (h : j ≠ i) : (w.setClock i c).now j = w.now j :=
  congrArg Clock.now (if_neg h)

theorem now_setClock (w : Watch ι) (i : ι) (c : Clock) : (w.setClock i c).now i = c.now :=
  congrArg Clock.now (if_pos rfl)

theorem now_le_setClock {c : Clock} (h : w.now i ≤ c.now) (j : ι) :
    w.now j ≤ (w.setClock i c).now j := by
  by_cases hj : j = i
  · subst hj
    rwa [now_setClock]
  · rw [now_setClock_of_ne hj]
    exact Nat.le_refl _

theorem now_le_act (w : Watch ι) (a : Act η) (i : ι) : w.now i ≤ (w.act clock a).now i := by
  cases a with
  | advance handle step => exact now_le_setClock (Clock.now_le_advance _ _) i
  | syncTo handle target => exact now_le_setClock (Clock.now_le_syncTo _ _) i
  | read handle => exact Nat.le_refl _
  | assign handle nominal => exact Nat.le_refl _

theorem now_le_run (w : Watch ι) (acts : List (Act η)) (i : ι) :
    w.now i ≤ (w.run clock acts).now i := by
  induction acts generalizing w with
  | nil => exact Nat.le_refl _
  | cons a acts ih => exact Nat.le_trans (w.now_le_act a i) (ih (w.act clock a))

end

/-! ## The books as the reads since the declaration -/

/-- The books of the declaration, before any read. -/
def origin (w : Watch ι) : Aging Binary64 := Aging.declared w.nominal w.since

/-- The books are those of a declaration and of reads in order up to now. -/
structure Kept (w : Watch ι) (i : ι) : Prop where
  aging : w.var.aging = w.origin.after w.times
  samples : w.samples = w.origin.samples w.times
  inOrder : (w.since :: (w.times ++ [w.now i])).Pairwise (· ≤ ·)

theorem kept_declare (clocks : ι → Clock) (handle : η) (site : Site) (nominal : Binary64) :
    (declare clock clocks handle site nominal).Kept (clock handle) where
  aging := rfl
  samples := rfl
  inOrder := List.pairwise_pair.mpr (Nat.le_refl _)

theorem pairwise_concat_of_le (times : List Duration) {s t : Duration} (hle : s ≤ t)
    (h : (times ++ [s]).Pairwise (· ≤ ·)) : (times ++ [t]).Pairwise (· ≤ ·) := by
  rw [List.pairwise_append] at h ⊢
  refine ⟨h.1, List.pairwise_singleton _ _, fun x hx y hy => ?_⟩
  rw [List.mem_singleton.mp hy]
  exact Nat.le_trans (h.2.2 x hx s List.mem_cons_self) hle

theorem pairwise_concat_twice (times : List Duration) {t : Duration}
    (h : (times ++ [t]).Pairwise (· ≤ ·)) : (times ++ [t] ++ [t]).Pairwise (· ≤ ·) := by
  refine List.pairwise_append.mpr ⟨h, List.pairwise_singleton _ _, fun x hx y hy => ?_⟩
  rw [List.mem_singleton.mp hy]
  rcases List.mem_append.mp hx with hx | hx
  · exact (List.pairwise_append.mp h).2.2 x hx t List.mem_cons_self
  · rw [List.mem_singleton.mp hx]
    exact Nat.le_refl _

section

variable [DecidableEq ι]

theorem Kept.setClock (h : w.Kept i) {c : Clock} (hle : w.now j ≤ c.now) :
    (w.setClock j c).Kept i where
  aging := h.aging
  samples := h.samples
  inOrder := pairwise_concat_of_le (w.since :: w.times) (now_le_setClock hle i) h.inOrder

theorem Kept.act (h : w.Kept i) {a : Act η} (ha : a.KeepsTo clock i) : (w.act clock a).Kept i := by
  cases a with
  | advance handle step => exact h.setClock (Clock.now_le_advance _ _)
  | syncTo handle target => exact h.setClock (Clock.now_le_syncTo _ _)
  | read handle =>
    obtain rfl : clock handle = i := ha
    refine ⟨?_, ?_, pairwise_concat_twice (w.since :: w.times) h.inOrder⟩
    · show (w.var.aging.touch (w.now (clock handle))).2 = w.origin.after (w.times ++ [_])
      rw [Aging.after_concat, h.aging]
    · show w.samples ++ [(w.var.aging.touch (w.now (clock handle))).1] =
        w.origin.samples (w.times ++ [_])
      rw [Aging.samples_concat, h.aging, h.samples]
  | assign handle nominal =>
    obtain rfl : clock handle = i := ha
    exact ⟨rfl, rfl, List.pairwise_pair.mpr (Nat.le_refl _)⟩

theorem Kept.run (h : w.Kept i) {acts : List (Act η)} (hacts : ∀ a ∈ acts, a.KeepsTo clock i) :
    (w.run clock acts).Kept i := by
  induction acts generalizing w with
  | nil => exact h
  | cons a acts ih =>
    rw [List.forall_mem_cons] at hacts
    exact ih (h.act hacts.1) hacts.2

end

/-! ## What the books say -/

/-- What the books and the samples of a variable say at a reading of clock `i`. -/
structure Books (w : Watch ι) (i : ι) : Prop where
  created : w.var.aging.created = w.since
  lastAccess : w.var.aging.lastAccess = w.times.getLast?
  /-- The reads are counted as far as the counter goes. -/
  accesses : w.var.aging.accesses.toNat = min (UInt64.size - 1) w.times.length
  created_le : w.var.aging.created ≤ w.now i
  between : ∀ last ∈ w.var.aging.lastAccess, w.var.aging.created ≤ last ∧ last ≤ w.now i
  length : w.samples.length = w.times.length
  /-- The age is the time since the declaration, and this is the read that it counts as. -/
  sample : ∀ (k : Nat) (t : Duration) (s : DriftSample Binary64),
    w.times[k]? = some t → w.samples[k]? = some s →
      s.nominal = w.nominal ∧ s.age.nanos + w.since.nanos = t.nanos ∧
        s.accesses.toNat = min (UInt64.size - 1) (k + 1) ∧ s.idle ≤ s.age
  idle_first : ∀ s, w.samples[0]? = some s → s.idle = Duration.zero
  /-- The idle time is the time since the read before. -/
  idle_next : ∀ (k : Nat) (t t' : Duration) (s : DriftSample Binary64), w.times[k]? = some t →
    w.times[k + 1]? = some t' → w.samples[k + 1]? = some s → s.idle.nanos + t.nanos = t'.nanos
  /-- After any read the idle times sum up to the way from there to any later one. -/
  idles : ∀ (j k : Nat) (t t' : Duration), j ≤ k → w.times[j]? = some t → w.times[k]? = some t' →
    Aging.idleTime ((w.samples.take (k + 1)).drop (j + 1)) + t.nanos = t'.nanos
  total : ∀ first ∈ w.times.head?, ∀ last ∈ w.times.getLast?,
    Aging.idleTime w.samples + first.nanos = last.nanos

namespace Kept

variable {k : Nat} {t t' : Duration} {s : DriftSample Binary64}

theorem since_le (h : w.Kept i) (ht : t ∈ w.times) : w.since ≤ t :=
  (List.pairwise_cons.mp h.inOrder).1 t (List.mem_append_left _ ht)

theorem le_now (h : w.Kept i) (ht : t ∈ w.times) : t ≤ w.now i :=
  (List.pairwise_append.mp (List.pairwise_cons.mp h.inOrder).2).2.2 t ht _ List.mem_cons_self

theorem booked_eq (h : w.Kept i) (ht : t ∈ w.times) : w.origin.booked t = t :=
  Duration.later_eq_left (h.since_le ht)

theorem sample_eq (h : w.Kept i) (ht : w.times[k]? = some t) (hs : w.samples[k]? = some s) :
    s = ((w.origin.after (w.times.take k)).touch t).1 := by
  rw [h.samples, Aging.getElem?_samples, ht] at hs
  exact (Option.some_inj.mp hs).symm

theorem lastAccess_take (h : w.Kept i) (ht : w.times[k]? = some t) :
    (w.origin.after (w.times.take (k + 1))).lastAccess = some t := by
  rw [Aging.lastAccess_after, List.getLast?_take, if_neg (Nat.succ_ne_zero k), Nat.add_sub_cancel,
    ht, Option.some_or, Option.map_some, h.booked_eq (List.mem_of_getElem? ht)]
  rfl

theorem booked_after (h : w.Kept i) (times : List Duration) (ht : t ∈ w.times) :
    (w.origin.after times).booked t = t := by
  unfold Aging.booked
  rw [Aging.created_after]
  exact h.booked_eq ht

theorem idle_next (h : w.Kept i) (ht : w.times[k]? = some t) (ht' : w.times[k + 1]? = some t')
    (hs : w.samples[k + 1]? = some s) : s.idle.nanos + t.nanos = t'.nanos := by
  have hle : t ≤ t' := by
    have horder := (List.pairwise_append.mp (List.pairwise_cons.mp h.inOrder).2).1
    obtain ⟨hk, rfl⟩ := List.getElem?_eq_some_iff.mp ht
    obtain ⟨hk', rfl⟩ := List.getElem?_eq_some_iff.mp ht'
    exact List.pairwise_iff_getElem.mp horder k (k + 1) hk hk' (Nat.lt_succ_self k)
  rw [h.sample_eq ht' hs, Aging.idle_touch_of_some (h.lastAccess_take ht),
    h.booked_after _ (List.mem_of_getElem? ht'), Duration.nanos_sub]
  rw [Duration.le_iff] at hle
  omega

theorem age_add (h : w.Kept i) (ht : w.times[k]? = some t) (hs : w.samples[k]? = some s) :
    s.age.nanos + w.since.nanos = t.nanos := by
  have hmem := List.mem_of_getElem? ht
  have hle := Duration.le_iff.mp (h.since_le hmem)
  rw [h.sample_eq ht hs, Aging.age_touch, h.booked_after _ hmem, Aging.created_after,
    Duration.nanos_sub]
  show t.nanos - w.since.nanos + w.since.nanos = t.nanos
  omega

theorem accesses_eq (h : w.Kept i) (ht : w.times[k]? = some t) (hs : w.samples[k]? = some s) :
    s.accesses.toNat = min (UInt64.size - 1) (k + 1) := by
  have hk : k < w.times.length := (List.getElem?_eq_some_iff.mp ht).1
  have hbefore : (w.origin.after (w.times.take k)).accesses.toNat =
      min (UInt64.size - 1) (0 + k) := by
    rw [Aging.accesses_after, List.length_take, Nat.min_eq_left (Nat.le_of_lt hk)]
    rfl
  have hread := Aging.accesses_touch (w.origin.after (w.times.take k)) t
  rw [hbefore] at hread
  rw [h.sample_eq ht hs]
  show ((w.origin.after (w.times.take k)).touch t).2.accesses.toNat = _
  omega

theorem length_samples (h : w.Kept i) : w.samples.length = w.times.length := by
  rw [h.samples, Aging.length_samples]

theorem idles (h : w.Kept i) {j : Nat} (ht : w.times[j]? = some t) (d : Nat)
    (ht' : w.times[j + d]? = some t') :
    Aging.idleTime ((w.samples.take (j + d + 1)).drop (j + 1)) + t.nanos = t'.nanos := by
  induction d generalizing t' with
  | zero =>
    rw [Nat.add_zero, ht] at ht'
    cases ht'
    rw [Nat.add_zero, List.drop_eq_nil_of_le (List.length_take_le _ _)]
    exact Nat.zero_add _
  | succ d ih =>
    have hd : j + d + 1 < w.times.length := (List.getElem?_eq_some_iff.mp ht').1
    have hbefore := ih (List.getElem?_eq_getElem (Nat.lt_of_succ_lt hd))
    have hs : j + d + 1 < w.samples.length := h.length_samples ▸ hd
    have hidle := h.idle_next (List.getElem?_eq_getElem (Nat.lt_of_succ_lt hd)) ht'
      (List.getElem?_eq_getElem hs)
    rw [← Nat.add_assoc, List.take_add_one, List.getElem?_eq_getElem hs,
      List.drop_append_of_le_length (by simp; omega), Option.toList_some, Aging.idleTime_concat]
    omega

theorem lastAccess_eq (h : w.Kept i) : w.var.aging.lastAccess = w.times.getLast? := by
  rw [h.aging, Aging.lastAccess_after]
  cases hlast : w.times.getLast? with
  | none => rfl
  | some last => exact congrArg some (h.booked_eq (List.mem_of_getLast? hlast))

theorem idle_first (h : w.Kept i) (hs : w.samples[0]? = some s) : s.idle = Duration.zero := by
  rw [h.samples, Aging.getElem?_samples] at hs
  obtain ⟨t, -, rfl⟩ := Option.map_eq_some_iff.mp hs
  exact Aging.idle_touch_of_none rfl t

theorem total (h : w.Kept i) (ht : t ∈ w.times.head?) (ht' : t' ∈ w.times.getLast?) :
    Aging.idleTime w.samples + t.nanos = t'.nanos := by
  rw [List.head?_eq_getElem?] at ht
  rw [List.getLast?_eq_getElem?, ← h.length_samples] at ht'
  have hlength := h.length_samples
  obtain ⟨hpos, -⟩ := List.getElem?_eq_some_iff.mp ht
  cases hsamples : w.samples with
  | nil =>
    rw [hsamples] at hlength
    exact absurd hlength (Nat.ne_of_lt hpos)
  | cons s samples =>
    rw [hsamples] at ht'
    have hzero := h.idle_first (s := s) (by rw [hsamples]; rfl)
    have hsum := h.idles ht samples.length (by simpa using ht')
    rw [hsamples] at hsum
    simpa [Aging.idleTime, hzero] using hsum

theorem books (h : w.Kept i) : w.Books i := by
  have hcreated : w.var.aging.created = w.since := by
    rw [h.aging, Aging.created_after]
    rfl
  refine ⟨hcreated, h.lastAccess_eq, ?_, ?_, fun last hlast => ?_, h.length_samples,
    fun k t s ht hs => ⟨?_, h.age_add ht hs, h.accesses_eq ht hs, ?_⟩, fun s hs => ?_,
    fun k t t' s => h.idle_next, fun j k t t' hjk ht ht' => ?_, fun t ht t' => h.total ht⟩
  · rw [h.aging, Aging.accesses_after]
    show min _ (0 + _) = _
    rw [Nat.zero_add]
  · rw [hcreated]
    exact (List.pairwise_cons.mp h.inOrder).1 _ (by simp)
  · rw [h.lastAccess_eq] at hlast
    rw [hcreated]
    have hmem := List.mem_of_getLast? hlast
    exact ⟨h.since_le hmem, h.le_now hmem⟩
  · rw [h.sample_eq ht hs]
    exact Aging.nominal_after _ _
  · -- The books in between are those of reads, whatever the clock did.
    rw [h.samples] at hs
    exact (Aging.Reached.declared w.nominal w.since).sound.idle_le_age_of_mem _ s
      (List.mem_of_getElem? hs)
  · exact h.idle_first hs
  · obtain ⟨d, rfl⟩ := Nat.exists_eq_add_of_le hjk
    exact h.idles ht d ht'

end Kept

/-- Whatever is done on the clocks, in whatever order and through whatever handles, no reading ever
decreases, and the books of a variable that keeps to one clock are exact: ages and idle times are
the differences that they stand for. -/
theorem books_keep_to_the_clock [DecidableEq ι] (clock : η → ι) (clocks : ι → Clock) (handle : η)
    (site : Site) (nominal : Binary64) (acts : List (Act η))
    (hacts : ∀ a ∈ acts, a.KeepsTo clock (clock handle)) :
    let w := declare clock clocks handle site nominal
    (∀ before rest, acts = before ++ rest → ∀ i,
      (clocks i).now ≤ (w.run clock before).now i ∧
        (w.run clock before).now i ≤ (w.run clock acts).now i) ∧
      (w.run clock acts).Books (clock handle) := by
  intro w
  refine ⟨?_, ((kept_declare clocks handle site nominal).run hacts).books⟩
  rintro before rest rfl i
  refine ⟨w.now_le_run before i, ?_⟩
  have hrun : w.run clock (before ++ rest) = (w.run clock before).run clock rest :=
    List.foldl_append
  rw [hrun]
  exact now_le_run _ rest i

/-- Two clones of a handle and a handle on another clock. The clock is moved through either clone,
once to the past and once to the end of time, between two reads, an assignment and a read. -/
theorem books_keep_to_the_clock_twoClones :
    let clock : Fin 3 → Bool := fun handle => handle == 2
    let acts : List (Act (Fin 3)) :=
      [.advance 1 (Duration.ofSecs 10), .read 0, .advance 2 (Duration.ofSecs 7),
        .syncTo 1 (Duration.ofSecs 4), .read 1, .assign 0 5.0,
        .advance 0 (Duration.ofNanos Duration.limit), .advance 1 (Duration.ofSecs 1), .read 1]
    let w := declare clock (fun _ => Clock.zero) 0 ⟨1⟩ 3.0
    (∀ a ∈ acts, a.KeepsTo clock (clock 0)) ∧ (w.run clock acts).Books (clock 0) ∧
      (w.run clock acts).times = [Duration.ofNanos Duration.limit] ∧
      (w.run clock acts).since = Duration.ofSecs 10 := by
  intro clock acts w
  have hacts : ∀ a ∈ acts, a.KeepsTo clock (clock 0) := by
    simp [acts, Act.KeepsTo, clock]
  exact ⟨hacts, (books_keep_to_the_clock clock (fun _ => Clock.zero) 0 ⟨1⟩ 3.0 acts hacts).2,
    by decide +kernel, by decide +kernel⟩

end Watch

end Fickle

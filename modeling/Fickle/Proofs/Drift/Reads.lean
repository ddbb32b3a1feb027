import Fickle.Drift.Variable
import Fickle.Proofs.Saturation

/-! # Reads of a variable

A read counts for its reading of the clock, or for the declaration if that is later. The timestamp
is moved there, wherever it stood before. So it goes back when the readings do, and then the idle
times count the same stretch of time again.
-/

namespace Fickle

/-! ## Times in a row -/

namespace Duration

/-- What times rise by, step after step. -/
def rise : List Duration → Nat
  | s :: t :: times => t.nanos - s.nanos + rise (t :: times)
  | [] | [_] => 0

/-- What times fall by, step after step. -/
def fall : List Duration → Nat
  | s :: t :: times => s.nanos - t.nanos + fall (t :: times)
  | [] | [_] => 0

/-- The latest of some times, the first one included. -/
def latest (first : Duration) (times : List Duration) : Duration := times.foldl later first

theorem le_latest (first : Duration) (times : List Duration) : first ≤ latest first times := by
  induction times generalizing first with
  | nil => exact Nat.le_refl _
  | cons t times ih =>
    have hnext := ih (first.later t)
    rw [le_iff, nanos_later] at hnext
    show first.nanos ≤ (latest (first.later t) times).nanos
    omega

/-- Whatever way the times take, what they rise by leads from the first to the last and makes up for
what they fall by. -/
theorem rise_add_first (first : Duration) (times : List Duration) :
    rise (first :: times) + first.nanos =
      ((first :: times).getLast (List.cons_ne_nil _ _)).nanos + fall (first :: times) := by
  induction times generalizing first with
  | nil => simp [rise, fall]
  | cons t times ih =>
    have hrest := ih t
    rw [List.getLast_cons (List.cons_ne_nil _ _)]
    unfold rise fall
    omega

theorem fall_eq_zero {times : List Duration} (h : times.Pairwise (· ≤ ·)) : fall times = 0 := by
  induction h with
  | nil => rfl
  | @cons s times hle _ ih =>
    cases times with
    | nil => rfl
    | cons t times =>
      have hstep := le_iff.mp (hle t List.mem_cons_self)
      unfold fall
      omega

end Duration

namespace Aging

variable {α : Type} {a : Aging α}

/-! ## One read -/

/-- The time that a read counts for. -/
def booked (a : Aging α) (now : Duration) : Duration := now.later a.created

@[simp]
theorem booked_touch (a : Aging α) (now : Duration) : (a.touch now).2.booked = a.booked := rfl

@[simp]
theorem lastAccess_touch (a : Aging α) (now : Duration) :
    (a.touch now).2.lastAccess = some (a.booked now) := rfl

@[simp]
theorem age_touch (a : Aging α) (now : Duration) :
    (a.touch now).1.age = (a.booked now).sub a.created := rfl

theorem idle_touch_of_none (h : a.lastAccess = none) (now : Duration) :
    (a.touch now).1.idle = Duration.zero := by
  unfold touch
  rw [h]

theorem idle_touch_of_some {last : Duration} (h : a.lastAccess = some last) (now : Duration) :
    (a.touch now).1.idle = (a.booked now).sub last := by
  unfold touch
  rw [h]
  rfl

theorem created_le_booked (a : Aging α) (now : Duration) : a.created ≤ a.booked now := by
  unfold booked
  rw [Duration.le_iff, Duration.nanos_later]
  omega

/-- The timestamp is not from before the declaration. -/
def Sound (a : Aging α) : Prop := ∀ last ∈ a.lastAccess, a.created ≤ last

theorem sound_touch (a : Aging α) (now : Duration) : (a.touch now).2.Sound := by
  rintro last hlast
  rw [lastAccess_touch, Option.mem_some] at hlast
  exact hlast ▸ a.created_le_booked now

theorem Sound.idle_le_age (h : a.Sound) (now : Duration) :
    (a.touch now).1.idle ≤ (a.touch now).1.age := by
  cases hlast : a.lastAccess with
  | none =>
    rw [idle_touch_of_none hlast]
    exact Nat.zero_le _
  | some last =>
    -- The last read counted for a time after the declaration, so less has gone by since then.
    have hcreated := Duration.le_iff.mp (h last hlast)
    rw [idle_touch_of_some hlast, age_touch, Duration.le_iff]
    simp only [Duration.nanos_sub]
    omega

/-- The books that there can be: of a declaration, and after reads and assignments at any time. -/
inductive Reached : Aging α → Prop where
  | declared (nominal : α) (now : Duration) : Reached (declared nominal now)
  | touch {a : Aging α} (h : Reached a) (now : Duration) : Reached (a.touch now).2
  | reset {a : Aging α} (h : Reached a) (nominal : α) (now : Duration) :
    Reached (a.reset nominal now)

theorem Reached.sound (h : a.Reached) : a.Sound := by
  cases h with
  | declared nominal now => nofun
  | touch h now => exact sound_touch _ now
  | reset h nominal now => nofun

/-! ## Reads in a row -/

/-- What reads give one after the other, and the books after each of them. -/
def reads (a : Aging α) : List Duration → List (DriftSample α × Aging α)
  | [] => []
  | now :: times => a.touch now :: (a.touch now).2.reads times

def samples (a : Aging α) (times : List Duration) : List (DriftSample α) :=
  (a.reads times).map Prod.fst

/-- The timestamp after each read. -/
def stamps (a : Aging α) (times : List Duration) : List (Option Duration) :=
  (a.reads times).map fun r => r.2.lastAccess

theorem samples_cons (a : Aging α) (now : Duration) (times : List Duration) :
    a.samples (now :: times) = (a.touch now).1 :: (a.touch now).2.samples times := rfl

/-- The books after some reads. -/
def after (a : Aging α) (times : List Duration) : Aging α :=
  times.foldl (fun a now => (a.touch now).2) a

theorem after_concat (a : Aging α) (times : List Duration) (now : Duration) :
    a.after (times ++ [now]) = ((a.after times).touch now).2 := by
  simp [after]

@[simp]
theorem nominal_after (a : Aging α) (times : List Duration) :
    (a.after times).nominal = a.nominal := by
  induction times generalizing a with
  | nil => rfl
  | cons now times ih => exact ih (a.touch now).2

@[simp]
theorem created_after (a : Aging α) (times : List Duration) :
    (a.after times).created = a.created := by
  induction times generalizing a with
  | nil => rfl
  | cons now times ih => exact ih (a.touch now).2

theorem lastAccess_after (a : Aging α) (times : List Duration) :
    (a.after times).lastAccess = (times.getLast?.map a.booked).or a.lastAccess := by
  induction times generalizing a with
  | nil => rfl
  | cons now times ih =>
    have hrest := ih (a.touch now).2
    rw [booked_touch, lastAccess_touch] at hrest
    show ((a.touch now).2.after times).lastAccess = _
    rw [hrest, List.getLast?_cons]
    cases times.getLast? <;> rfl

theorem accesses_touch (a : Aging α) (now : Duration) :
    (a.touch now).2.accesses.toNat = min (UInt64.size - 1) (a.accesses.toNat + 1) :=
  toNat_ofNatClamp _

theorem accesses_after (a : Aging α) (times : List Duration) :
    (a.after times).accesses.toNat =
      min (UInt64.size - 1) (a.accesses.toNat + times.length) := by
  induction times generalizing a with
  | nil =>
    have hlt := a.accesses.toNat_lt_size
    show a.accesses.toNat = min (UInt64.size - 1) (a.accesses.toNat + 0)
    omega
  | cons now times ih =>
    have hrest := ih (a.touch now).2
    rw [accesses_touch] at hrest
    show ((a.touch now).2.after times).accesses.toNat = _
    rw [hrest, List.length_cons]
    omega

theorem samples_concat (a : Aging α) (times : List Duration) (now : Duration) :
    a.samples (times ++ [now]) = a.samples times ++ [((a.after times).touch now).1] := by
  induction times generalizing a with
  | nil => rfl
  | cons t times ih => exact congrArg ((a.touch t).1 :: ·) (ih (a.touch t).2)

theorem length_samples (a : Aging α) (times : List Duration) :
    (a.samples times).length = times.length := by
  induction times generalizing a with
  | nil => rfl
  | cons now times ih => exact congrArg Nat.succ (ih (a.touch now).2)

theorem getElem?_samples (a : Aging α) (times : List Duration) (k : Nat) :
    (a.samples times)[k]? = times[k]?.map fun now => ((a.after (times.take k)).touch now).1 := by
  induction times generalizing a k with
  | nil => rfl
  | cons now times ih =>
    cases k with
    | zero => rfl
    | succ k => exact ih (a.touch now).2 k

theorem Sound.idle_le_age_of_mem (h : a.Sound) (times : List Duration) :
    ∀ s ∈ a.samples times, s.idle ≤ s.age := by
  induction times generalizing a with
  | nil => nofun
  | cons now times ih =>
    intro s hs
    rw [samples_cons, List.mem_cons] at hs
    rcases hs with rfl | hs
    · exact h.idle_le_age now
    · exact ih (sound_touch a now) s hs

theorem stamps_eq (a : Aging α) (times : List Duration) :
    a.stamps times = times.map fun now => some (a.booked now) := by
  induction times generalizing a with
  | nil => rfl
  | cons now times ih =>
    have hrest := ih (a.touch now).2
    rw [booked_touch] at hrest
    exact congrArg (some (a.booked now) :: ·) hrest

/-- The idle times in nanoseconds, summed up. -/
def idleTime : List (DriftSample α) → Nat
  | [] => 0
  | s :: samples => s.idle.nanos + idleTime samples

theorem idleTime_concat (samples : List (DriftSample α)) (s : DriftSample α) :
    idleTime (samples ++ [s]) = idleTime samples + s.idle.nanos := by
  induction samples with
  | nil => exact Nat.add_comm _ _
  | cons first samples ih =>
    show first.idle.nanos + idleTime (samples ++ [s]) = _
    rw [ih, ← Nat.add_assoc]
    rfl

/-- After a read the idle times sum up what the times rise by. -/
theorem idleTime_eq_rise {last : Duration} (h : a.lastAccess = some last) (times : List Duration) :
    idleTime (a.samples times) = Duration.rise (last :: times.map a.booked) := by
  -- Over the reads. The timestamp that a read finds is the time that the one before counted for.
  induction times generalizing a last with
  | nil => rfl
  | cons now times ih =>
    have hrest := ih (lastAccess_touch a now)
    rw [booked_touch] at hrest
    rw [samples_cons, List.map_cons]
    unfold Duration.rise
    rw [← hrest, ← Duration.nanos_sub, ← idle_touch_of_some h]
    rfl

/-! ## In any order -/

/-- What comes of a first read and the reads after it, whatever the order of their readings. -/
structure Follows (a : Aging α) (first : Duration) (times : List Duration) : Prop where
  idle_le_age : ∀ s ∈ a.samples (first :: times), s.idle ≤ s.age
  /-- Each read moves the timestamp to the time it counts for, forward or back. -/
  stamps : a.stamps (first :: times) = (first :: times).map fun now => some (a.booked now)
  /-- The idle times after the first read make up for what the times fall by. -/
  idles : idleTime ((a.touch first).2.samples times) + (a.booked first).nanos =
    (((first :: times).map a.booked).getLast (List.cons_ne_nil _ _)).nanos +
      Duration.fall ((first :: times).map a.booked)
  /-- They stay within the stretch from the first to the latest time only if the last time comes
  that much before the latest. -/
  within : idleTime ((a.touch first).2.samples times) ≤
      (Duration.latest (a.booked first) (times.map a.booked)).nanos - (a.booked first).nanos ↔
    (((first :: times).map a.booked).getLast (List.cons_ne_nil _ _)).nanos +
        Duration.fall ((first :: times).map a.booked) ≤
      (Duration.latest (a.booked first) (times.map a.booked)).nanos
  inOrder : ((first :: times).map a.booked).Pairwise (· ≤ ·) →
    idleTime ((a.touch first).2.samples times) + (a.booked first).nanos =
      (((first :: times).map a.booked).getLast (List.cons_ne_nil _ _)).nanos

/-- The books of a variable follow the readings, which may come in any order: the timestamp moves
forward just as they do, and an idle time is never longer than the age. The idle times sum up to the
way from the first read to the last if the readings are in order, and to more by all that they go
back. -/
theorem books_follow_readings (h : a.Reached) (first : Duration) (times : List Duration) :
    a.Follows first times := by
  have hsum := Duration.rise_add_first (a.booked first) (times.map a.booked)
  have hrise := idleTime_eq_rise (lastAccess_touch a first) times
  have hlatest := Duration.le_iff.mp (Duration.le_latest (a.booked first) (times.map a.booked))
  rw [booked_touch] at hrise
  rw [← hrise] at hsum
  refine ⟨h.sound.idle_le_age_of_mem _, a.stamps_eq _, hsum, ?_, fun horder => ?_⟩
  · simp only [List.map_cons]
    omega
  · rw [hsum]
    exact congrArg _ (Duration.fall_eq_zero horder)

/-- Read at ten seconds and at five in turn, the timestamp goes back and forth, and the idle times
come to ten seconds although no reading is later than the first. -/
theorem books_follow_readings_backAndForth :
    let a : Aging Binary64 := declared 3.0 Duration.zero
    let ten := Duration.ofSecs 10
    let five := Duration.ofSecs 5
    a.Reached ∧ a.Follows ten [five, ten, five, ten] ∧
      a.stamps [ten, five, ten, five, ten] = [some ten, some five, some ten, some five, some ten] ∧
      ¬ ten ≤ five ∧ Duration.latest ten [five, ten, five, ten] = ten ∧
      idleTime ((a.touch ten).2.samples [five, ten, five, ten]) = ten.nanos := by
  intro a ten five
  have ha : a.Reached := .declared 3.0 Duration.zero
  exact ⟨ha, books_follow_readings ha ten [five, ten, five, ten], by decide +kernel,
    by decide +kernel, by decide +kernel, by decide +kernel⟩

end Aging

end Fickle

import Fickle.Duration.Text
import Fickle.Proofs.Text

/-! # Durations come back from their text

A duration is cut into parts from the largest unit to the smallest. Each span is read back as the
nanoseconds of its part, no sum on the way is too large, and the parts come to the whole.
-/

namespace Fickle.Duration

/-! ## Characters of a span -/

theorem natOfDigits_toDigits (n : Nat) : natOfDigits (Nat.toDigits 10 n) = n :=
  Nat.ofDigitChars_toDigits (by decide) (by decide)

/-- What a unit is written with ends a number and is no point. -/
theorem of_isUnitChar {c : Char} (h : isUnitChar c = true) :
    (c.isDigit || Text.isBlank c) = false ∧ c ≠ '.' := by
  rw [isUnitChar, Bool.or_eq_true, beq_iff_eq] at h
  obtain hletter | rfl := h
  · have hranges : (decide (65 ≤ c.val ∧ c.val ≤ 90) ||
        (decide (97 ≤ c.val) && decide (c.val ≤ 122))) = true := hletter
    simp [UInt32.le_iff_toNat_le] at hranges
    constructor
    · simp [Char.isDigit, UInt32.le_iff_toNat_le, Text.isBlank, Text.blankRanges]
      omega
    · rintro rfl
      simp at hletter
  · decide

theorem isBlank_of_isDigit {c : Char} (h : c.isDigit = true) : Text.isBlank c = false := by
  simp [Char.isDigit, UInt32.le_iff_toNat_le] at h
  simp [Text.isBlank, Text.blankRanges]
  omega

theorem takeSpan_append {n : Nat} {name rest : List Char} (hne : name ≠ [])
    (hname : ∀ c ∈ name, isUnitChar c = true) (hrest : rest.takeWhile isUnitChar = []) :
    takeSpan (Nat.toDigits 10 n ++ (name ++ rest)) = (⟨Nat.toDigits 10 n, none, name⟩, rest) := by
  obtain ⟨c, cs, rfl⟩ := List.exists_cons_of_ne_nil hne
  obtain ⟨hend, hpoint⟩ := of_isUnitChar (hname c List.mem_cons_self)
  have hinNumber : ∀ c ∈ Nat.toDigits 10 n, (c.isDigit || Text.isBlank c) = true :=
    fun c hc => by rw [Text.isDigit_of_mem_toDigits c hc, Bool.true_or]
  -- The name of a unit ends the number before it, and does not begin like a fraction.
  have hstop : (c :: cs ++ rest).takeWhile (fun c => c.isDigit || Text.isBlank c) = [] := by
    rw [List.cons_append, List.takeWhile_cons, hend]
    rfl
  have hdigits : takeDigits (Nat.toDigits 10 n ++ (c :: cs ++ rest)) =
      (Nat.toDigits 10 n, c :: cs ++ rest) := by
    rw [takeDigits, Text.takeWhile_append_of_all hinNumber hstop,
      Text.dropWhile_append_of_all hinNumber hstop,
      List.filter_eq_self.mpr Text.isDigit_of_mem_toDigits]
  have hfraction : takeFraction (c :: cs ++ rest) = (none, c :: cs ++ rest) := by
    rw [List.cons_append, takeFraction]
    rintro _ ⟨⟩
    exact hpoint rfl
  rw [takeSpan, hdigits]
  dsimp only
  rw [hfraction]
  dsimp only
  rw [Text.takeWhile_append_of_all hname hrest, Text.dropWhile_append_of_all hname hrest]

/-! ## One span -/

theorem ofNanos?_nanos (d : Duration) : ofNanos? d.nanos = some d := dif_pos d.lt_limit

theorem word?_of_lt {n : Nat} (h : n < 2 ^ 64) : word? n = some n := if_pos h

/-- What the table of units gives for a name. -/
theorem of_ofName? {name : List Char} {u : SpanUnit} (h : SpanUnit.ofName? name = some u) :
    0 < u.size ∧ name ≠ [] ∧ ∀ c ∈ name, isUnitChar c = true := by
  have hall : (spanUnits.all fun u => decide (0 < u.size) &&
      u.names.all fun n => !n.toList.isEmpty && n.toList.all isUnitChar) = true := by decide
  simp only [List.all_eq_true, Bool.and_eq_true, decide_eq_true_eq, Bool.not_eq_true',
    List.isEmpty_eq_false_iff] at hall
  rw [SpanUnit.ofName?] at h
  obtain ⟨hsize, hnames⟩ := hall u (List.mem_of_find?_eq_some h)
  obtain ⟨n, hn, rfl⟩ : ∃ n ∈ u.names, n.toList = name := by simpa using List.find?_some h
  exact ⟨hsize, hnames n hn⟩

variable {d d' : Duration} {amount n : Nat} {grain : Grain} {u : SpanUnit} {name rest : List Char}

theorem addAmount_eq (h : d'.nanos = d.nanos + amount * grain.nanosPer)
    (hfine : grain = .nanos → amount < 10 ^ 9) : d.addAmount amount grain = some d' := by
  cases grain with
  | nanos =>
    have hsubsec : d.subsec + amount < 2 ^ 64 := by
      have hamount := hfine rfl
      have hlt := Nat.mod_lt d.nanos (y := 10 ^ 9) (by decide)
      unfold subsec
      omega
    rw [addAmount, word?_of_lt hsubsec, ← Nat.mul_one amount]
    simp only [Option.bind_eq_bind, Option.bind_some]
    rw [Grain.nanosPer] at h
    rw [← h]
    exact ofNanos?_nanos d'
  | secs =>
    rw [Grain.nanosPer] at h
    rw [addAmount, ← h]
    exact ofNanos?_nanos d'

/-- A span without a fraction adds what it says, unless that is too much. -/
theorem addSpan_eq (hu : SpanUnit.ofName? name = some u)
    (h : d'.nanos = d.nanos + n * u.size * u.grain.nanosPer)
    (hfine : u.grain = .nanos → n * u.size < 10 ^ 9) :
    d.addSpan ⟨Nat.toDigits 10 n, none, name⟩ = some d' := by
  have hamount : n * u.size < 2 ^ 64 := by
    have hlimit := d'.lt_limit
    rcases hgrain : u.grain with _ | _
    · have hsmall := hfine hgrain
      omega
    · rw [hgrain, Grain.nanosPer] at h
      omega
  have hn : n < 2 ^ 64 :=
    Nat.lt_of_le_of_lt (Nat.le_mul_of_pos_right n (of_ofName? hu).1) hamount
  simp [addSpan, hu, natOfDigits_toDigits, word?_of_lt hn, word?_of_lt hamount,
    addAmount_eq h hfine]

theorem addSpans_of_takeSpan {c : Char} {cs left : List Char} {s : Span} (hc : c.isDigit = true)
    (hspan : takeSpan (c :: cs) = (s, left)) (h : d.addSpan s = some d') :
    addSpans d (c :: cs) = addSpans d' left := by
  have hblank : (c :: cs).dropWhile Text.isBlank = c :: cs := by simp [isBlank_of_isDigit hc]
  rw [addSpans]
  split
  · rename_i hnil
    rw [hblank] at hnil
    cases hnil
  · rename_i c' cs' hcons
    rw [hblank] at hcons
    cases hcons
    rw [dif_pos hc, hspan, h]

theorem addSpans_blank (d : Duration) (cs : List Char) :
    addSpans d (' ' :: cs) = addSpans d cs := by
  rw [addSpans.eq_1 d (' ' :: cs), addSpans.eq_1 d cs]
  rfl

theorem addSpans_append (hu : SpanUnit.ofName? name = some u)
    (hrest : rest.takeWhile isUnitChar = [])
    (h : d'.nanos = d.nanos + n * u.size * u.grain.nanosPer)
    (hfine : u.grain = .nanos → n * u.size < 10 ^ 9) :
    addSpans d (Nat.toDigits 10 n ++ (name ++ rest)) = addSpans d' rest := by
  obtain ⟨-, hne, hname⟩ := of_ofName? hu
  have hspan := takeSpan_append (n := n) hne hname hrest
  have hadd := addSpan_eq hu h hfine
  have hdigits := Text.isDigit_of_mem_toDigits (n := n)
  obtain ⟨c, cs, hcs⟩ := List.exists_cons_of_ne_nil (Nat.toDigits_ne_nil (n := n) (b := 10))
  rw [hcs] at hspan hadd hdigits ⊢
  exact addSpans_of_takeSpan (hdigits c List.mem_cons_self) hspan hadd

/-! ## Spans in a row -/

/-- The spans with a space before each. -/
def spaced (spans : List String) : List Char := spans.flatMap fun s => ' ' :: s.toList

/-- Nothing in front is made longer by these characters. -/
def Parted (cs : List Char) : Prop := cs.takeWhile isUnitChar = []

/-- Reading goes on after these spans, with so many nanoseconds added. -/
def AddsUp (spans : List String) (nanos : Nat) : Prop :=
  ∀ (d d' : Duration) (rest : List Char), d'.nanos = d.nanos + nanos → Parted rest →
    addSpans d (spaced spans ++ rest) = addSpans d' rest

theorem addsUp_nil : AddsUp [] 0 := by
  intro d d' rest h _
  obtain rfl : d' = d := by
    cases d
    cases d'
    simpa using h
  rfl

theorem AddsUp.append {ss ts : List String} {m n : Nat} (hs : AddsUp ss m) (ht : AddsUp ts n) :
    AddsUp (ss ++ ts) (m + n) := by
  intro d d' rest h hrest
  -- What is read so far is below the result, and so never too large itself.
  have hlimit := d'.lt_limit
  have hparted : Parted (spaced ts ++ rest) := by
    rcases ts with _ | ⟨t, ts⟩
    · exact hrest
    · rfl
  rw [spaced, List.flatMap_append, List.append_assoc]
  exact (hs d ⟨d.nanos + m, by omega⟩ _ rfl hparted).trans
    (ht _ d' rest (by simp only; omega) hrest)

theorem addsUp_of_eq_zero (h : n = 0) (size nanos : Nat) : AddsUp [] (n * size * nanos) := by
  rw [h, Nat.zero_mul, Nat.zero_mul]
  exact addsUp_nil

theorem addsUp_singleton {s : String} (hs : s.toList = Nat.toDigits 10 n ++ name)
    (hu : SpanUnit.ofName? name = some u) (hfine : u.grain = .nanos → n * u.size < 10 ^ 9) :
    AddsUp [s] (n * u.size * u.grain.nanosPer) := by
  intro d d' rest h hrest
  have hspaced : spaced [s] ++ rest = ' ' :: (Nat.toDigits 10 n ++ (name ++ rest)) := by
    simp [spaced, hs]
  rw [hspaced, addSpans_blank]
  exact addSpans_append hu hrest h hfine

theorem addsUp_shortSpan {unit : String} (hu : SpanUnit.ofName? unit.toList = some u)
    (hfine : u.grain = .nanos → n * u.size < 10 ^ 9) :
    AddsUp (shortSpan n unit) (n * u.size * u.grain.nanosPer) := by
  unfold shortSpan
  split
  · exact addsUp_of_eq_zero (by assumption) _ _
  · exact addsUp_singleton (by simp) hu hfine

theorem addsUp_longSpan {unit : String} (hone : SpanUnit.ofName? unit.toList = some u)
    (hmany : SpanUnit.ofName? (unit ++ "s").toList = some u)
    (hfine : u.grain = .nanos → n * u.size < 10 ^ 9) :
    AddsUp (longSpan n unit) (n * u.size * u.grain.nanosPer) := by
  unfold longSpan
  split
  · exact addsUp_of_eq_zero (by assumption) _ _
  · split
    · exact addsUp_singleton (by simp) hone hfine
    · exact addsUp_singleton (by simp) hmany hfine

/-! ## Durations -/

/-- What is left of the seconds when the larger units are taken out comes to the seconds again. -/
theorem secs_eq (s : Nat) :
    s / yearSecs * yearSecs + s % yearSecs / monthSecs * monthSecs
      + s % yearSecs % monthSecs / daySecs * daySecs
      + s % yearSecs % monthSecs % daySecs / 3600 * 3600
      + s % yearSecs % monthSecs % daySecs % 3600 / 60 * 60
      + s % yearSecs % monthSecs % daySecs % 60 = s := by
  -- The seconds are what is left of the day, not of the hour, but an hour is whole minutes.
  have hminutes : s % yearSecs % monthSecs % daySecs % 60 =
      s % yearSecs % monthSecs % daySecs % 3600 % 60 := (Nat.mod_mod_of_dvd _ (by decide)).symm
  rw [hminutes]
  simp only [Nat.add_assoc, Nat.div_add_mod']

theorem nanos_eq (s n : Nat) :
    s * 10 ^ 9 + n / 10 ^ 6 * 10 ^ 6 + n / 1000 % 1000 * 1000 + n % 1000 = s * 10 ^ 9 + n := by
  omega

theorem addsUp_spans (d : Duration) : AddsUp d.spans d.nanos := by
  have hsubsec : d.subsec < 10 ^ 9 := Nat.mod_lt _ (by decide)
  have hyears : AddsUp (longSpan (d.secs / yearSecs) "year") _ := addsUp_longSpan rfl rfl nofun
  have hmonths : AddsUp (longSpan (d.secs % yearSecs / monthSecs) "month") _ :=
    addsUp_longSpan rfl rfl nofun
  have hdays : AddsUp (longSpan (d.secs % yearSecs % monthSecs / daySecs) "day") _ :=
    addsUp_longSpan rfl rfl nofun
  have hhours : AddsUp (shortSpan (d.secs % yearSecs % monthSecs % daySecs / 3600) "h") _ :=
    addsUp_shortSpan rfl nofun
  have hminutes :
      AddsUp (shortSpan (d.secs % yearSecs % monthSecs % daySecs % 3600 / 60) "m") _ :=
    addsUp_shortSpan rfl nofun
  have hsecs : AddsUp (shortSpan (d.secs % yearSecs % monthSecs % daySecs % 60) "s") _ :=
    addsUp_shortSpan rfl nofun
  have hmillis : AddsUp (shortSpan (d.subsec / 10 ^ 6) "ms") _ :=
    addsUp_shortSpan rfl fun _ => by dsimp only; omega
  have hmicros : AddsUp (shortSpan (d.subsec / 1000 % 1000) "us") _ :=
    addsUp_shortSpan rfl fun _ => by dsimp only; omega
  have hnanos : AddsUp (shortSpan (d.subsec % 1000) "ns") _ :=
    addsUp_shortSpan rfl fun _ => by dsimp only; omega
  -- The spans are read one after another, the larger units first.
  have hall := (((((((hyears.append hmonths).append hdays).append hhours).append hminutes).append
    hsecs).append hmillis).append hmicros).append hnanos
  refine (congrArg (AddsUp d.spans) ?_).mp hall
  simp only [Grain.nanosPer, Nat.mul_one, ← Nat.add_mul, secs_eq, nanos_eq]
  exact Nat.div_add_mod' d.nanos (10 ^ 9)

theorem spaced_eq_of_ne_nil {spans : List String} (h : spans ≠ []) :
    spaced spans = ' ' :: (" ".intercalate spans).toList := by
  obtain ⟨s, ss, rfl⟩ := List.exists_cons_of_ne_nil h
  induction ss generalizing s with
  | nil => simp [spaced]
  | cons next ss ih =>
    have hnext := ih next (by simp)
    rw [String.toList_intercalate] at hnext ⊢
    rw [spaced, List.flatMap_cons, ← spaced, hnext]
    simp [List.intercalate_cons_cons]

theorem addSpans_nil (d : Duration) : addSpans d [] = some d := by
  rw [addSpans]
  rfl

theorem addSpans_text (d : Duration) : addSpans zero d.text.toList = some d := by
  unfold text
  split
  · rename_i hzero
    have hd : d.nanos = zero.nanos := beq_iff_eq.mp hzero
    have hzeros : "0s".toList = Nat.toDigits 10 0 ++ "s".toList := rfl
    have hadds := addsUp_singleton hzeros rfl nofun
    have hspan := hadds zero d [] (by rw [hd, Nat.zero_mul, Nat.zero_mul, Nat.add_zero]) rfl
    rwa [addSpans_nil, List.append_nil, spaced_eq_of_ne_nil (by simp), addSpans_blank] at hspan
  · rename_i hzero
    have hadds := addsUp_spans d zero d [] (Nat.zero_add _).symm rfl
    rw [List.append_nil, addSpans_nil] at hadds
    have hspans : d.spans ≠ [] := by
      intro hnil
      rw [hnil] at hadds
      obtain rfl : zero = d := Option.some.inj ((addSpans_nil zero).symm.trans hadds)
      exact hzero rfl
    rwa [spaced_eq_of_ne_nil hspans, addSpans_blank] at hadds

theorem addSpans_of_isBlankText {s : String} (h : Text.isBlankText s = true) :
    addSpans d s.toList = some d := by
  have hnil := Text.dropWhile_of_all (List.all_eq_true.mp h)
  rw [addSpans]
  split
  · rfl
  · rename_i hcons
    cases hnil.symm.trans hcons

theorem ofText?_text (d : Duration) : ofText? d.text = some d := by
  have hadds := addSpans_text d
  have hbare : d.text ≠ "0" := by
    intro h
    rw [h] at hadds
    have hspan : addSpans zero "0".toList = none := by
      rw [addSpans]
      rfl
    cases hspan.symm.trans hadds
  have hblank : Text.isBlankText d.text = false := by
    rw [Bool.eq_false_iff]
    intro h
    rw [addSpans_of_isBlankText h] at hadds
    obtain rfl : zero = d := Option.some.inj hadds
    exact absurd h (by decide)
  simp [ofText?, hbare, hblank, hadds]

end Fickle.Duration

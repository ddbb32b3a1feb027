import Fickle.Proofs.Duration.Text
import Fickle.Proofs.Settings.Writing

/-! # Settings come back from their document

What a document of settings is read as is told by its four numbers alone: every other field comes
back as it was written.
-/

namespace Fickle

namespace Json

/-- An object with just the fields of a record. -/
theorem Value.record?_object (fields : List (String × Value)) {names : List String}
    (hnames : fields.map Prod.fst = names) (hdistinct : names.Nodup) :
    (Value.object (fields.map fun f => (some f.1, f.2))).record? names = some fields := by
  have hnamed : ((fields.map fun f => (some f.1, f.2)).mapM fun (f : Option String × Value) =>
      f.1.map fun k => (k, f.2)) = some fields := by
    rw [List.mapM_map]
    exact List.mapM_pure.trans (congrArg some (List.map_id fields))
  have hknown : (fields.filter fun f => names.contains f.1) = fields := by
    refine List.filter_eq_self.mpr fun f hf => ?_
    rw [List.contains_iff_mem, ← hnames]
    exact List.mem_map_of_mem hf
  rw [Value.record?, hnamed]
  simp only [Option.bind_eq_bind, Option.bind_some]
  rw [hknown, hnames, if_pos hdistinct]

theorem natOfDigits_toDigits (n : Nat) : natOfDigits (Nat.toDigits 10 n) = n :=
  Nat.ofDigitChars_toDigits (by decide) (by decide)

end Json

/-- The numbers of a model, which are neither texts nor durations. -/
def DriftModel.numbers {α : Type} (d : DriftModel α) : List α :=
  [d.ageWeight, d.accessWeight, d.recencyWeight, d.maxFraction]

theorem DriftModel.sameValue_beq_iff {α : Type} [DecidableEq α] {d e : DriftModel α} :
    d.sameValue (· == ·) e = true ↔ d = e := by
  cases d
  cases e
  simp [sameValue, and_assoc]

namespace Settings

open Json

/-- What a document of a single number is read as. -/
def numberOf (text : String) : Option Binary64 := value? text >>= Value.binary64?

/-- A model with each of its numbers written and read on its own. -/
def reread (d : DriftModel Binary64) : Option (DriftModel Binary64) := do
  let ageWeight ← numberOf (numberValue d.ageWeight)
  let accessWeight ← numberOf (numberValue d.accessWeight)
  let recencyWeight ← numberOf (numberValue d.recencyWeight)
  let maxFraction ← numberOf (numberValue d.maxFraction)
  return { d with ageWeight, accessWeight, recencyWeight, maxFraction }

theorem Spells.numberOf_eq {text : String} {ts : List Token} {v : Value} (h : Spells text ts v) :
    numberOf text = v.binary64? := by
  rw [numberOf, h.value?_eq]
  rfl

theorem durationOf_text (d : Duration) : durationOf (.text (some d.text)) = some d :=
  d.ofText?_text

theorem nat?_numeralOf {n bound : Nat} (h : n < bound) :
    (Value.number (numeralOf n)).nat? bound = some n := by
  simp [Value.nat?, numeralOf, natOfDigits_toDigits, h]

theorem exists_spells_seedValue (seed : Option UInt64) :
    ∃ t v, Spells (seedValue seed) [t] v ∧ seedOf v = some seed := by
  cases seed with
  | none => exact ⟨_, _, spells_null, rfl⟩
  | some n =>
    refine ⟨_, _, spells_nat n.toNat, ?_⟩
    simp [seedOf, nat?_numeralOf n.toNat_lt]

theorem driftOf_object (d : DriftModel Binary64) (age access recency limit : Value) :
    driftOf (.object
      [(some "recency_half_life", .text (some d.recencyHalfLife.text)),
       (some "age_unit", .text (some d.ageUnit.text)), (some "age_weight", age),
       (some "access_weight", access), (some "recency_weight", recency),
       (some "max_fraction", limit)]) = (do
      let ageWeight ← age.binary64?
      let accessWeight ← access.binary64?
      let recencyWeight ← recency.binary64?
      let maxFraction ← limit.binary64?
      return { d with ageWeight, accessWeight, recencyWeight, maxFraction }) := by
  have hrecord := Value.record?_object
    [("recency_half_life", .text (some d.recencyHalfLife.text)),
     ("age_unit", .text (some d.ageUnit.text)), ("age_weight", age), ("access_weight", access),
     ("recency_weight", recency), ("max_fraction", limit)] rfl (by simp)
  simp only [List.map_cons, List.map_nil] at hrecord
  simp [driftOf, hrecord, field?, durationOf_text]

theorem exists_spells_drift (d : DriftModel Binary64) :
    ∃ ts v, Spells (objectValue "  " (driftFields d)) ts v ∧ driftOf v = reread d := by
  obtain ⟨_, age, hage⟩ := exists_spells_numberValue d.ageWeight
  obtain ⟨_, access, haccess⟩ := exists_spells_numberValue d.accessWeight
  obtain ⟨_, recency, hrecency⟩ := exists_spells_numberValue d.recencyWeight
  obtain ⟨_, limit, hlimit⟩ := exists_spells_numberValue d.maxFraction
  have hindent : ∀ c ∈ "  ".toList, isSpace c = true := List.all_eq_true.mp rfl
  have hobject := spells_objectValue hindent
    ⟨"recency_half_life", _, _, _, rfl, spells_textValue d.recencyHalfLife.text⟩
    [⟨"age_unit", _, _, _, rfl, spells_textValue d.ageUnit.text⟩,
     ⟨"age_weight", _, _, _, rfl, hage⟩, ⟨"access_weight", _, _, _, rfl, haccess⟩,
     ⟨"recency_weight", _, _, _, rfl, hrecency⟩, ⟨"max_fraction", _, _, _, rfl, hlimit⟩]
  refine ⟨_, _, hobject, (driftOf_object d age access recency limit).trans ?_⟩
  rw [reread, hage.numberOf_eq, haccess.numberOf_eq, hrecency.numberOf_eq, hlimit.numberOf_eq]

theorem ofValue_object (s : Settings) (seed drift : Value) (hseed : seedOf seed = some s.seed) :
    ofValue (.object
      [(some "personality", .text (some s.personality)),
       (some "chaos_level", .number (numeralOf s.chaosLevel.toNat)), (some "seed", seed),
       (some "record", .bool s.record), (some "drift", drift)]) =
      (driftOf drift).map fun d => { s with drift := d } := by
  have hrecord := Value.record?_object
    [("personality", .text (some s.personality)),
     ("chaos_level", .number (numeralOf s.chaosLevel.toNat)), ("seed", seed),
     ("record", .bool s.record), ("drift", drift)] rfl (by simp)
  simp only [List.map_cons, List.map_nil] at hrecord
  cases hdrift : driftOf drift <;>
    simp [ofValue, hrecord, field?, hseed, hdrift, Value.text?, Value.bool?,
      nat?_numeralOf s.chaosLevel.toNat_lt]

/-- What settings come back as from their document. -/
theorem value?_document (s : Settings) :
    (value? s.document >>= ofValue) = (reread s.drift).map fun d => { s with drift := d } := by
  obtain ⟨_, seed, hseedText, hseed⟩ := exists_spells_seedValue s.seed
  obtain ⟨_, drift, hdriftText, hdrift⟩ := exists_spells_drift s.drift
  have hindent : ∀ c ∈ "".toList, isSpace c = true := List.all_eq_true.mp rfl
  have hobject := spells_objectValue hindent
    ⟨"personality", _, _, _, rfl, spells_textValue s.personality⟩
    [⟨"chaos_level", _, _, _, rfl, spells_nat s.chaosLevel.toNat⟩,
     ⟨"seed", _, _, _, rfl, hseedText⟩, ⟨"record", _, _, _, rfl, spells_boolValue s.record⟩,
     ⟨"drift", _, _, _, rfl, hdriftText⟩]
  have hvalue : value? s.document = some _ := hobject.value?_eq
  rw [hvalue, ← hdrift]
  exact ofValue_object s seed drift hseed

theorem ofDocument_document_eq_ok_iff {s t : Settings} :
    ofDocument s.document = .ok t ↔
      ∃ d, reread s.drift = some d ∧ { s with drift := d } = t := by
  rw [ofDocument, value?_document]
  cases reread s.drift <;> simp

/-! ## Coming back -/

/-- A model comes back, up to what counts as the same number, when each of its numbers does. -/
theorem exists_reread_iff {same : Binary64 → Binary64 → Bool} {d : DriftModel Binary64} :
    (∃ e, reread d = some e ∧ d.sameValue same e = true) ↔
      ∀ x ∈ d.numbers, ∃ y, numberOf (numberValue x) = some y ∧ same x y = true := by
  constructor
  · rintro ⟨e, hread, hsame⟩
    simp only [reread, Option.bind_eq_bind, Option.bind_eq_some_iff] at hread
    obtain ⟨age, hage, access, haccess, recency, hrecency, limit, hlimit, ⟨⟩⟩ := hread
    simp only [DriftModel.sameValue, beq_self_eq_true, Bool.true_and, Bool.and_eq_true] at hsame
    obtain ⟨⟨⟨hageSame, haccessSame⟩, hrecencySame⟩, hlimitSame⟩ := hsame
    simp only [DriftModel.numbers, List.forall_mem_cons]
    exact ⟨⟨age, hage, hageSame⟩, ⟨access, haccess, haccessSame⟩,
      ⟨recency, hrecency, hrecencySame⟩, ⟨limit, hlimit, hlimitSame⟩, nofun⟩
  · intro h
    simp only [DriftModel.numbers, List.forall_mem_cons] at h
    obtain ⟨⟨age, hage, hageSame⟩, ⟨access, haccess, haccessSame⟩,
      ⟨recency, hrecency, hrecencySame⟩, ⟨limit, hlimit, hlimitSame⟩, -⟩ := h
    refine ⟨⟨d.recencyHalfLife, d.ageUnit, age, access, recency, limit⟩, ?_, ?_⟩
    · simp [reread, hage, haccess, hrecency, hlimit]
    · simp [DriftModel.sameValue, hageSame, haccessSame, hrecencySame, hlimitSame]

theorem sameValue_drift (s : Settings) (d : DriftModel Binary64) :
    s.sameValue { s with drift := d } = s.drift.sameValue Binary64.sameNumber d := by
  simp [sameValue]

/-- Settings are read back from their document as they were written if, and only if, each of their
four numbers is. It is so whether equal numbers have to be the same number bit for bit, or only have
to compare as equal. -/
theorem document_comes_back (s : Settings) :
    (ofDocument s.document = .ok s ↔
      ∀ x ∈ s.drift.numbers, numberOf (numberValue x) = some x) ∧
    ((∃ t, ofDocument s.document = .ok t ∧ s.sameValue t = true) ↔
      ∀ x ∈ s.drift.numbers, ∃ y, numberOf (numberValue x) = some y ∧ x.sameNumber y = true) := by
  constructor
  · -- The same statement for equality, where only one model counts as the same.
    have hnumbers := @exists_reread_iff (· == ·) s.drift
    simp only [DriftModel.sameValue_beq_iff, beq_iff_eq, exists_eq_right'] at hnumbers
    rw [← hnumbers, ofDocument_document_eq_ok_iff]
    constructor
    · rintro ⟨d, hd, hs⟩
      obtain rfl : d = s.drift := congrArg Settings.drift hs
      exact hd
    · intro hd
      exact ⟨s.drift, hd, rfl⟩
  · rw [← exists_reread_iff]
    constructor
    · rintro ⟨t, hread, hsame⟩
      obtain ⟨d, hd, rfl⟩ := ofDocument_document_eq_ok_iff.mp hread
      exact ⟨d, hd, (sameValue_drift s d).symm.trans hsame⟩
    · rintro ⟨d, hd, hsame⟩
      exact ⟨_, ofDocument_document_eq_ok_iff.mpr ⟨d, hd, rfl⟩, (sameValue_drift s d).trans hsame⟩

/-- A name with quotes, control characters and characters beyond 16 bits, a level that no session
accepts, the largest seed, the longest duration, a negative zero and the smallest double. -/
def awkward : Settings where
  personality := "say \"no\" \\ \t\n\x01\x7f é 😀"
  chaosLevel := 255
  seed := some 18446744073709551615
  record := true
  drift :=
    { recencyHalfLife := ⟨18446744073709551615999999999, by decide⟩
      ageUnit := ⟨1001, by decide⟩
      ageWeight := 0.1
      accessWeight := ⟨0x8000000000000000⟩
      recencyWeight := ⟨1⟩
      maxFraction := -1.5e300 }

theorem document_comes_back_awkward : ofDocument awkward.document = .ok awkward :=
  (document_comes_back awkward).1.mpr (by decide +kernel)

end Settings

end Fickle

import Fickle.Log.Record
import Fickle.Proofs.Bytes

/-! # Records are exact

A record is read back from its bytes whatever follows them, and nothing else is accepted as that
record.
-/

namespace Fickle

/-- A decision that a record can carry back. -/
structure Decision.Storable (d : Decision) : Prop where
  probability : Scalar.within 0.0 1.0 d.probability = true
  ternary : ∀ v, d.outcome = .ternary v → -1 ≤ v ∧ v ≤ 1

namespace Construct

theorem ofTag?_eq_some_iff (b : UInt8) (c : Construct) : ofTag? b = some c ↔ b = c.tag := by
  constructor
  · intro h
    have hb := List.find?_some h
    simpa using Eq.symm (beq_iff_eq.mp hb)
  · rintro rfl
    exact ofTag?_tag c

theorem tag_inj {c c' : Construct} (h : c.tag = c'.tag) : c = c' := by
  have hc := ofTag?_tag c
  rw [h, ofTag?_tag] at hc
  exact (Option.some.inj hc).symm

end Construct

namespace Log

/-! ## Outcomes -/

theorem OutcomeTag.ofByte?_eq_some_iff (b : UInt8) (t : OutcomeTag) :
    ofByte? b = some t ↔ b = t.toByte := by
  constructor
  · intro h
    have hb := List.find?_some h
    simpa using Eq.symm (beq_iff_eq.mp hb)
  · rintro rfl
    cases t <;> decide

theorem OutcomeTag.toByte_inj {t t' : OutcomeTag} (h : t.toByte = t'.toByte) : t = t' := by
  have ht := (OutcomeTag.ofByte?_eq_some_iff _ _).mpr h
  rw [(OutcomeTag.ofByte?_eq_some_iff _ _).mpr rfl] at ht
  exact Option.some.inj ht

/-- A ternary payload is the state with its sign. -/
theorem ternary_iff (w : Int64) (v : Int8) :
    (-1 ≤ w ∧ w ≤ 1) ∧ w.toInt8 = v ↔ w = v.toInt64 ∧ (-1 ≤ v ∧ v ≤ 1) := by
  simp only [Int64.le_iff_toInt_le, Int8.le_iff_toInt_le, ← Int8.toInt_inj, ← Int64.toInt_inj,
    Int64.toInt_toInt8, Int8.toInt_toInt64]
  have hv := v.toInt_lt
  have hv' := v.le_toInt
  have h1 : (1 : Int64).toInt = 1 := rfl
  have h2 : (-1 : Int64).toInt = -1 := rfl
  have h3 : (1 : Int8).toInt = 1 := rfl
  have h4 : (-1 : Int8).toInt = -1 := rfl
  rw [h1, h2, h3, h4]
  constructor
  · rintro ⟨hw, h⟩
    rw [Int.bmod_eq_of_le (by omega) (by omega)] at h
    exact ⟨h, by omega⟩
  · rintro ⟨hw, hv⟩
    rw [hw]
    exact ⟨hv, Int.bmod_eq_of_le (by omega) (by omega)⟩

theorem outcomeOf_payload (o : Outcome Binary64) (h : ∀ v, o = .ternary v → -1 ≤ v ∧ v ≤ 1) :
    outcomeOf (.ofOutcome o) (payload o) = .ok o := by
  cases o with
  | bool b => cases b <;> rfl
  | int v => simp [outcomeOf, OutcomeTag.ofOutcome, payload]
  | float v => rfl
  | ternary v =>
    obtain ⟨hw, hv⟩ := (ternary_iff v.toInt64 v).mpr ⟨rfl, h v rfl⟩
    simp only [outcomeOf, OutcomeTag.ofOutcome, payload, Int64.toInt64_toUInt64, if_pos hw, hv]
  | count n => rfl

theorem eq_payload_of_outcomeOf {tag : OutcomeTag} {raw : UInt64} {o : Outcome Binary64}
    (h : outcomeOf tag raw = .ok o) :
    tag = .ofOutcome o ∧ raw = payload o ∧ ∀ v, o = .ternary v → -1 ≤ v ∧ v ≤ 1 := by
  cases tag with
  | bool =>
    simp only [outcomeOf] at h
    split at h
    · cases h
      exact ⟨rfl, by assumption, by simp⟩
    · split at h
      · cases h
        exact ⟨rfl, by assumption, by simp⟩
      · cases h
  | int =>
    cases h
    exact ⟨rfl, by simp [payload], by simp⟩
  | float =>
    cases h
    exact ⟨rfl, rfl, by simp⟩
  | ternary =>
    simp only [outcomeOf] at h
    split at h
    · cases h
      -- The word is checked before it is cut down to a byte, so nothing is lost.
      obtain ⟨hw, hv⟩ := (ternary_iff raw.toInt64 _).mp ⟨by assumption, rfl⟩
      refine ⟨rfl, ?_, ?_⟩
      · rw [payload, ← hw, UInt64.toUInt64_toInt64]
      · rintro v ⟨⟩
        exact hv
    · cases h
  | count =>
    cases h
    exact ⟨rfl, rfl, by simp⟩

theorem payload_inj {o o' : Outcome Binary64}
    (ht : OutcomeTag.ofOutcome o = OutcomeTag.ofOutcome o') (hp : payload o = payload o') :
    o = o' := by
  cases o <;> cases o' <;> cases ht
  case bool b b' => cases b <;> cases b' <;> first | rfl | cases hp
  case int v v' =>
    have hv := congrArg UInt64.toInt64 hp
    simp only [payload, Int64.toInt64_toUInt64] at hv
    rw [hv]
  case float v v' =>
    cases v
    cases v'
    cases hp
    rfl
  case ternary v v' =>
    have hv := congrArg (fun raw => raw.toInt64.toInt8) hp
    simp only [payload, Int64.toInt64_toUInt64, Int8.toInt8_toInt64] at hv
    rw [hv]
  case count n n' => exact congrArg _ hp

/-! ## The fields of a record -/

/-- Thirty-four bytes are the fields of a record, and the rest follows them. -/
theorem exists_fields {bs : List UInt8} (h : recordSize ≤ bs.length) :
    ∃ seq site c t p o rest, seq.length = 8 ∧ site.length = 8 ∧ p.length = 8 ∧ o.length = 8 ∧
      bs = seq ++ (site ++ c :: t :: (p ++ o)) ++ rest := by
  unfold recordSize at h
  obtain ⟨seq, r₁, hseq, rfl⟩ := Bytes.exists_eq_append 8 bs (by omega)
  rw [List.length_append] at h
  obtain ⟨site, r₂, hsite, rfl⟩ := Bytes.exists_eq_append 8 r₁ (by omega)
  rw [List.length_append] at h
  rcases r₂ with _ | ⟨c, _ | ⟨t, r₃⟩⟩
  · simp at h
    omega
  · simp at h
    omega
  rw [List.length_cons, List.length_cons] at h
  obtain ⟨p, r₄, hp, rfl⟩ := Bytes.exists_eq_append 8 r₃ (by omega)
  rw [List.length_append] at h
  obtain ⟨o, rest, ho, rfl⟩ := Bytes.exists_eq_append 8 r₄ (by omega)
  refine ⟨seq, site, c, t, p, o, rest, hseq, hsite, hp, ho, ?_⟩
  simp only [List.append_assoc, List.cons_append]

theorem decodeDecision_fields {seq site p o : List UInt8} (c t : UInt8) (rest : List UInt8)
    (hseq : seq.length = 8) (hsite : site.length = 8) (hp : p.length = 8) (ho : o.length = 8) :
    decodeDecision (seq ++ (site ++ c :: t :: (p ++ o)) ++ rest) = (do
      let some construct := Construct.ofTag? c | throw (.unknownConstructTag c)
      let some tag := OutcomeTag.ofByte? t | throw (.unknownOutcomeTag t)
      let probability : Binary64 := ⟨Bytes.toWord p⟩
      if !Scalar.within 0.0 1.0 probability then
        throw (.badLog (.probability probability (Bytes.toWord seq)))
      let outcome ← outcomeOf tag (Bytes.toWord o)
      return (⟨Bytes.toWord seq, Site.ofBytes site, construct, probability, outcome⟩, rest)) := by
  generalize hbs : seq ++ (site ++ c :: t :: (p ++ o)) ++ rest = bs
  have hlen : ¬ (bs.take recordSize).length < recordSize := by
    rw [← hbs]
    simp [recordSize]
    omega
  -- Where each field begins, from the front on.
  have h0 : bs.take 8 = seq := by
    rw [← hbs, List.append_assoc, List.take_left' hseq]
  have h8 : bs.drop 8 = site ++ (c :: t :: (p ++ o) ++ rest) := by
    rw [← hbs, List.append_assoc, List.drop_left' hseq, List.append_assoc]
  have h16 : bs.drop 16 = c :: t :: (p ++ (o ++ rest)) := by
    rw [← List.drop_drop (i := 8) (j := 8), h8, List.drop_left' hsite]
    simp
  have h18 : bs.drop 18 = p ++ (o ++ rest) := by
    rw [← List.drop_drop (i := 2) (j := 16), h16]
    rfl
  have h26 : bs.drop 26 = o ++ rest := by
    rw [← List.drop_drop (i := 8) (j := 18), h18, List.drop_left' hp]
  have h34 : bs.drop recordSize = rest := by
    rw [recordSize, ← List.drop_drop (i := 8) (j := 26), h26, List.drop_left' ho]
  have hget (i : Nat) : bs.getD (16 + i) 0 = (bs.drop 16).getD i 0 := by
    simp [List.getD_eq_getElem?_getD]
  have hc : bs.getD 16 0 = c := by
    rw [hget 0, h16]
    rfl
  have ht : bs.getD 17 0 = t := by
    rw [hget 1, h16]
    rfl
  rewrite [decodeDecision, if_neg hlen, h0, h8, List.take_left' hsite, hc, ht, h18,
    List.take_left' hp, h26, List.take_left' ho, h34]
  rfl

/-! ## Records -/

@[simp]
theorem length_encodeDecision (d : Decision) : (encodeDecision d).length = recordSize := by
  simp [encodeDecision, recordSize]

theorem encodeDecision_inj {d d' : Decision} (h : encodeDecision d = encodeDecision d') :
    d = d' := by
  unfold encodeDecision at h
  obtain ⟨hseq, h⟩ := List.append_inj h (by simp)
  obtain ⟨hsite, h⟩ := List.append_inj h (by simp)
  obtain ⟨hc, h⟩ := List.cons.inj h
  obtain ⟨ht, h⟩ := List.cons.inj h
  obtain ⟨hp, ho⟩ := List.append_inj h (by simp)
  rcases d with ⟨seq, ⟨id⟩, construct, ⟨p⟩, outcome⟩
  rcases d' with ⟨seq', ⟨id'⟩, construct', ⟨p'⟩, outcome'⟩
  have hseq := Bytes.ofWord_inj hseq
  have hid := Bytes.ofWord_inj hsite
  have hp := Bytes.ofWord_inj hp
  have hconstruct := Construct.tag_inj hc
  have houtcome := payload_inj (OutcomeTag.toByte_inj ht) (Bytes.ofWord_inj ho)
  dsimp only at hseq hid hp hconstruct houtcome
  rw [hseq, hid, hp, hconstruct, houtcome]

theorem decodeDecision_encodeDecision {d : Decision} (h : d.Storable) (rest : List UInt8) :
    decodeDecision (encodeDecision d ++ rest) = .ok (d, rest) := by
  rw [encodeDecision, decodeDecision_fields _ _ rest (by simp) (by simp) (by simp) (by simp),
    (Construct.ofTag?_eq_some_iff _ _).mpr rfl, (OutcomeTag.ofByte?_eq_some_iff _ _).mpr rfl]
  simp only [Bytes.toWord_ofWord, h.probability, outcomeOf_payload d.outcome h.ternary]
  simp only [Site.ofBytes, Bytes.toWord_ofWord]
  rfl

theorem decodeDecision_of_short {bs : List UInt8} (h : bs.length < recordSize) :
    decodeDecision bs = .error (.truncated recordSize bs.length) := by
  rw [decodeDecision, if_pos (Bytes.length_take_lt_iff.mpr h)]
  rfl

theorem recordSize_le_of_decodeDecision {bs : List UInt8} {r : Decision × List UInt8}
    (h : decodeDecision bs = .ok r) : recordSize ≤ bs.length := by
  rcases Nat.lt_or_ge bs.length recordSize with hshort | hlong
  · rw [decodeDecision_of_short hshort] at h
    cases h
  · exact hlong

theorem decodeDecision_eq_ok_iff {bs rest : List UInt8} {d : Decision} :
    decodeDecision bs = .ok (d, rest) ↔ bs = encodeDecision d ++ rest ∧ d.Storable := by
  constructor
  · intro h
    obtain ⟨seq, site, c, t, p, o, rest', hseq, hsite, hp, ho, rfl⟩ :=
      exists_fields (recordSize_le_of_decodeDecision h)
    rw [decodeDecision_fields c t rest' hseq hsite hp ho] at h
    -- The decoder gives up at the first field that is no good.
    rcases hc : Construct.ofTag? c with _ | construct
    · rw [hc] at h
      cases h
    rcases ht : OutcomeTag.ofByte? t with _ | tag
    · rw [hc, ht] at h
      cases h
    rcases hw : Scalar.within 0.0 1.0 (⟨Bytes.toWord p⟩ : Binary64) with _ | _
    · simp only [hc, ht, hw] at h
      cases h
    rcases hq : outcomeOf tag (Bytes.toWord o) with e | outcome
    · simp only [hc, ht, hw, hq] at h
      cases h
    simp only [hc, ht, hw, hq] at h
    cases h
    obtain ⟨rfl, hraw, hternary⟩ := eq_payload_of_outcomeOf hq
    refine ⟨?_, hw, hternary⟩
    have hc := (Construct.ofTag?_eq_some_iff c construct).mp hc
    have ht := (OutcomeTag.ofByte?_eq_some_iff t _).mp ht
    rw [encodeDecision, ← hc, ← ht, ← hraw, Site.ofBytes, Bytes.ofWord_toWord hseq,
      Bytes.ofWord_toWord hsite, Bytes.ofWord_toWord hp, Bytes.ofWord_toWord ho]
  · rintro ⟨rfl, hd⟩
    exact decodeDecision_encodeDecision hd rest

/-! ## Records in a row -/

theorem length_flatMap_encodeDecision (ds : List Decision) :
    (ds.flatMap encodeDecision).length = ds.length * recordSize := by
  induction ds with
  | nil => simp
  | cons d ds ih =>
    rw [List.flatMap_cons, List.length_append, ih, length_encodeDecision, List.length_cons,
      Nat.succ_mul, Nat.add_comm]

theorem flatMap_encodeDecision_inj {ds ds' : List Decision}
    (h : ds.flatMap encodeDecision = ds'.flatMap encodeDecision) : ds = ds' := by
  induction ds generalizing ds' with
  | nil =>
    have hlen := length_flatMap_encodeDecision ds'
    rw [← h, List.flatMap_nil, List.length_nil, recordSize] at hlen
    exact (List.length_eq_zero_iff.mp (by omega)).symm
  | cons d ds ih =>
    rcases ds' with _ | ⟨d', ds'⟩
    · have hlen := length_flatMap_encodeDecision (d :: ds)
      rw [h, List.flatMap_nil, List.length_nil, List.length_cons, recordSize] at hlen
      omega
    · rw [List.flatMap_cons, List.flatMap_cons] at h
      obtain ⟨hd, hds⟩ := List.append_inj h (by simp)
      rw [encodeDecision_inj hd, ih hds]

end Log

end Fickle

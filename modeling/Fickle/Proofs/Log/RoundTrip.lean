import Fickle.Proofs.Binary64
import Fickle.Proofs.Log.Codec

/-! # Round trips

Writing a log and reading it back, and reading bytes and writing them back.
-/

namespace Fickle.Log

/-! ## From logs -/

theorem encode_eq_error_iff (l : Log) (e : Fault) :
    l.encode = .error e ↔
      Header.maxNameLength < l.personality.utf8ByteSize ∧ e = .badLog .nameTooLong := by
  rw [encode_eq]
  by_cases hname : Header.maxNameLength < l.personality.utf8ByteSize
  · rw [if_pos hname]
    simp [hname, eq_comm]
  · rw [if_neg hname]
    simp [hname]

theorem encode_eq_ok_iff (l : Log) (bs : List UInt8) :
    l.encode = .ok bs ↔
      l.personality.utf8ByteSize ≤ Header.maxNameLength ∧ bs = l.sealed l.flags := by
  rw [encode_eq]
  by_cases hname : Header.maxNameLength < l.personality.utf8ByteSize
  · rw [if_pos hname]
    simp [Nat.not_le.mpr hname]
  · rw [if_neg hname]
    simp [Nat.not_lt.mp hname, eq_comm]

/-- A log that can be read back is, from the bytes that it is written to. -/
theorem encode_bind_decode {l : Log} (h : l.Readable) : l.encode >>= decode = .ok l :=
  bind_eq_ok_iff.mpr ⟨_, (encode_eq_ok_iff _ _).mpr ⟨h.name, rfl⟩,
    decode_sealed h (hasUnknown_flags l) (isAutoSeeded_flags l)⟩

theorem writeTo_of_encode_eq_error {l : Log} {e : Fault} (h : l.encode = .error e) (d : Device) :
    l.writeTo d = .error e := by
  rw [writeTo, h]
  rfl

/-- Bytes that begin with the body of a log begin with its header, and go on with its records. -/
theorem eq_of_body_append {l l' : Log} {f f' : Flags} {tail tail' : List UInt8}
    (h : l.body f ++ tail = l'.body f' ++ tail') (hf : f.hasUnknown = false)
    (hf' : f'.hasUnknown = false) (hname : l.personality.utf8ByteSize ≤ Header.maxNameLength)
    (hname' : l'.personality.utf8ByteSize ≤ Header.maxNameLength) :
    l.headerWith f = l'.headerWith f' ∧
      l.decisions.toList.flatMap encodeDecision ++ tail =
        l'.decisions.toList.flatMap encodeDecision ++ tail' := by
  have hl : Header.decode (l.body f ++ tail) =
      .ok (l.headerWith f, l.decisions.toList.flatMap encodeDecision ++ tail) :=
    Header.decode_eq_ok_iff.mpr ⟨List.append_assoc _ _ _, rfl, hf, hname⟩
  have hl' : Header.decode (l'.body f' ++ tail') =
      .ok (l'.headerWith f', l'.decisions.toList.flatMap encodeDecision ++ tail') :=
    Header.decode_eq_ok_iff.mpr ⟨List.append_assoc _ _ _, rfl, hf', hname'⟩
  rw [h, hl'] at hl
  obtain ⟨hheader, hrecords⟩ := Prod.mk.inj (Except.ok.inj hl)
  exact ⟨hheader.symm, hrecords.symm⟩

/-- Bytes belong to one log with one set of flags. -/
theorem sealed_inj {l l' : Log} {f f' : Flags} (h : l.sealed f = l'.sealed f')
    (hf : f.hasUnknown = false) (hf' : f'.hasUnknown = false)
    (hname : l.personality.utf8ByteSize ≤ Header.maxNameLength)
    (hname' : l'.personality.utf8ByteSize ≤ Header.maxNameLength) :
    l.headerWith f = l'.headerWith f' ∧ l.decisions = l'.decisions := by
  obtain ⟨hheader, hrecords⟩ := eq_of_body_append h hf hf' hname hname'
  obtain ⟨hrecords, -⟩ := List.append_inj' hrecords (by rw [length_digest8, length_digest8])
  exact ⟨hheader, Array.toList_inj.mp (flatMap_encodeDecision_inj hrecords)⟩

/-- A log is told by its header, its decisions, and whether its seed was drawn. -/
theorem eq_of_headerWith {l l' : Log} {f f' : Flags} (hheader : l.headerWith f = l'.headerWith f')
    (hseed : l.autoSeeded = l'.autoSeeded) (hds : l.decisions = l'.decisions) : l = l' := by
  obtain ⟨-, -, hchaos, hs, -, hp⟩ := Header.mk.inj hheader
  rcases l with ⟨seed, personality, chaos, autoSeeded, decisions⟩
  rcases l' with ⟨seed', personality', chaos', autoSeeded', decisions'⟩
  dsimp only at hchaos hs hp hds hseed
  rw [hchaos, hs, hp, hds, hseed]

theorem eq_of_decode_sealed_flags {l l' : Log}
    (hname : l.personality.utf8ByteSize ≤ Header.maxNameLength)
    (h : decode (l.sealed l.flags) = .ok l') : l' = l := by
  obtain ⟨hl', f, hf, hseed, hbytes⟩ := decode_eq_ok_iff.mp h
  obtain ⟨hheader, hds⟩ := sealed_inj hbytes (hasUnknown_flags l) hf hname hl'.name
  have hflags : l.flags = f := congrArg Header.flags hheader
  rw [← hflags, isAutoSeeded_flags] at hseed
  exact (eq_of_headerWith hheader hseed hds).symm

theorem exists_decode_sealed_flags_iff {l : Log}
    (hname : l.personality.utf8ByteSize ≤ Header.maxNameLength) :
    (∃ l', decode (l.sealed l.flags) = .ok l') ↔ l.Readable := by
  constructor
  · rintro ⟨l', h⟩
    have hl' := (decode_eq_ok_iff.mp h).1
    rw [eq_of_decode_sealed_flags hname h] at hl'
    exact hl'
  · intro hl
    exact ⟨l, decode_sealed hl (hasUnknown_flags l) (isAutoSeeded_flags l)⟩

/-- What becomes of a log that is written and read back. -/
theorem encode_and_decode (l : Log) :
    ((∃ e, l.encode = .error e) ↔ 255 < l.personality.utf8ByteSize) ∧
    (∀ e, l.encode = .error e → e = .badLog .nameTooLong ∧ ∀ d : Device, l.writeTo d = .error e) ∧
    ∀ bs, l.encode = .ok bs →
      bs.length = l.encodedLength ∧
      ((∃ l', decode bs = .ok l') ↔
        l.Fits ∧ (l.decisions.toList.Pairwise fun a b => a.seq < b.seq) ∧
        ∀ d ∈ l.decisions, Scalar.within 0.0 1.0 d.probability = true ∧
          ∀ v, d.outcome = .ternary v → -1 ≤ v ∧ v ≤ 1) ∧
      ∀ l', decode bs = .ok l' →
        l'.bitEq l = true ∧ ∀ d ∈ l'.decisions, d.probability.isNaN = false := by
  refine ⟨?_, ?_, ?_⟩
  · constructor
    · rintro ⟨e, he⟩
      exact ((encode_eq_error_iff l e).mp he).1
    · intro hname
      exact ⟨_, (encode_eq_error_iff l _).mpr ⟨hname, rfl⟩⟩
  · intro e he
    exact ⟨((encode_eq_error_iff l e).mp he).2, writeTo_of_encode_eq_error he⟩
  · intro bs hbs
    obtain ⟨hname, rfl⟩ := (encode_eq_ok_iff l bs).mp hbs
    refine ⟨length_sealed l.flags l, ?_, ?_⟩
    · rw [exists_decode_sealed_flags_iff hname]
      constructor
      · rintro ⟨-, hfits, hasc, hall⟩
        exact ⟨hfits, hasc, fun d hd => ⟨(hall d hd).probability, (hall d hd).ternary⟩⟩
      · rintro ⟨hfits, hasc, hall⟩
        exact ⟨hname, hfits, hasc, fun d hd => ⟨(hall d hd).1, (hall d hd).2⟩⟩
    · intro l' h
      refine ⟨(bitEq_iff l' l).mpr (eq_of_decode_sealed_flags hname h), ?_⟩
      intro d hd
      exact Binary64.isNaN_eq_false_of_within ((decode_eq_ok_iff.mp h).1.storable d hd).probability

/-! ## From bytes -/

/-- The flags are the sixth byte of a log, and touch no other byte but those of the digest. -/
theorem exists_body_eq (l : Log) :
    ∃ front tail, front.length = 5 ∧ ∀ f : Flags, l.body f = front ++ f.bits :: tail := by
  refine ⟨Header.magic ++ [Header.currentVersion], l.chaos.val ::
    UInt8.ofNat l.personality.utf8ByteSize :: (Bytes.ofWord l.seed ++ (Bytes.ofWord
      (UInt64.ofNat l.size) ++ Bytes.ofText l.personality)) ++
    l.decisions.toList.flatMap encodeDecision, rfl, ?_⟩
  intro f
  simp [body, headerWith, Header.bytes]

theorem getElem?_sealed_flags (f : Flags) (l : Log) : (l.sealed f)[5]? = some f.bits := by
  obtain ⟨front, tail, hfront, hbody⟩ := exists_body_eq l
  rw [sealed, hbody, List.append_assoc, List.getElem?_append_right (by omega), hfront]
  rfl

theorem getElem?_sealed (f f' : Flags) (l : Log) {i : Nat} (hi : i ≠ 5)
    (hlen : i + digestSize < l.encodedLength) : (l.sealed f)[i]? = (l.sealed f')[i]? := by
  obtain ⟨front, tail, hfront, hbody⟩ := exists_body_eq l
  have hlength := length_sealed f l
  rw [sealed, List.length_append, length_digest8, hbody, List.length_append,
    List.length_cons] at hlength
  have hsplit (g : Flags) :
      l.sealed g = front ++ g.bits :: (tail ++ Sha256.digest8 (l.body g)) := by
    rw [sealed, hbody, List.append_assoc, List.cons_append]
  rw [hsplit f, hsplit f']
  rcases Nat.lt_or_gt_of_ne hi with hlt | hgt
  · rw [List.getElem?_append_left (by omega), List.getElem?_append_left (by omega)]
  · obtain ⟨j, rfl⟩ : ∃ j, i = front.length + (j + 1) := ⟨i - 6, by omega⟩
    rw [List.getElem?_append_right (by omega), List.getElem?_append_right (by omega),
      Nat.add_sub_cancel_left, List.getElem?_cons_succ, List.getElem?_cons_succ,
      List.getElem?_append_left (by omega), List.getElem?_append_left (by omega)]

/-- What becomes of bytes that are read and written back. -/
theorem decode_and_encode {bs : List UInt8} {l : Log} (h : decode bs = .ok l) :
    ∃ bs', l.encode = .ok bs' ∧ bs'.length = bs.length ∧
      (∀ i, i ≠ 5 → i + digestSize < bs.length → bs'[i]? = bs[i]?) ∧
      (∃ b b', bs[5]? = some b ∧ bs'[5]? = some b' ∧
        b' &&& ~~~Flags.driftBit = b &&& ~~~Flags.driftBit ∧
        (bs' = bs ↔ ((⟨b⟩ : Flags).hasDrift = true ↔
          ∃ d ∈ l.decisions, d.construct = .timeDrift))) ∧
      ∃ l', decode bs' = .ok l' ∧ l'.bitEq l = true := by
  obtain ⟨hl, f, hf, hseed, rfl⟩ := decode_eq_ok_iff.mp h
  have hseed' : l.flags.isAutoSeeded = f.isAutoSeeded := (isAutoSeeded_flags l).trans hseed.symm
  refine ⟨l.sealed l.flags, (encode_eq_ok_iff l _).mpr ⟨hl.name, rfl⟩, ?_, ?_, ?_, ?_⟩
  · rw [length_sealed, length_sealed]
  · intro i hi hlen
    rw [length_sealed] at hlen
    exact getElem?_sealed l.flags f l hi hlen
  · refine ⟨f.bits, l.flags.bits, getElem?_sealed_flags f l, getElem?_sealed_flags l.flags l,
      Flags.masked_eq (hasUnknown_flags l) hf hseed', ?_⟩
    rw [← hasDrift_iff, ← hasDrift_flags, ← Bool.eq_iff_iff]
    constructor
    · intro heq
      have hbits := getElem?_sealed_flags f l
      rw [← heq, getElem?_sealed_flags] at hbits
      rw [← Option.some.inj hbits]
    · intro hdrift
      -- The unknown bits are unset and the seed bits agree, which leaves the drift bit.
      have hflags : l.flags = f := by
        rw [Flags.eq_of_known (hasUnknown_flags l), Flags.eq_of_known hf, hseed', ← hdrift]
      rw [hflags]
  · exact ⟨l, decode_sealed hl (hasUnknown_flags l) (isAutoSeeded_flags l), (bitEq_iff l l).mpr rfl⟩

/-- A bit that announces a computed decision where there is none is written back as unset. -/
theorem decode_and_encode_ofOneDecision :
    decode (ofOneDecision.sealed ⟨Flags.driftBit⟩) = .ok ofOneDecision ∧
      ∃ bs, ofOneDecision.encode = .ok bs ∧ bs ≠ ofOneDecision.sealed ⟨Flags.driftBit⟩ := by
  have h : decode (ofOneDecision.sealed ⟨Flags.driftBit⟩) = .ok ofOneDecision :=
    decode_sealed readable_ofOneDecision rfl rfl
  obtain ⟨bs, hbs, -, -, ⟨b, b', hb, -, -, hiff⟩, -⟩ := decode_and_encode h
  refine ⟨h, bs, hbs, ?_⟩
  rw [getElem?_sealed_flags] at hb
  rw [Ne, hiff, ← Option.some.inj hb]
  simp [ofOneDecision, Flags.hasDrift, Flags.driftBit]

end Fickle.Log

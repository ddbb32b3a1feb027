import Fickle.Log.Codec
import Fickle.Proofs.Log.Header
import Fickle.Proofs.Log.Record

/-! # Logs survive their bytes -/

namespace Fickle

/-! ## Equality bit by bit -/

theorem Outcome.bitEq_iff (a b : Outcome Binary64) : a.bitEq b = true ↔ a = b := by
  rcases a with _ | _ | ⟨⟨_⟩⟩ | _ | _ <;> rcases b with _ | _ | ⟨⟨_⟩⟩ | _ | _ <;> simp [bitEq]

theorem Decision.bitEq_iff (a b : Decision) : a.bitEq b = true ↔ a = b := by
  rcases a with ⟨seq, site, construct, ⟨p⟩, outcome⟩
  rcases b with ⟨seq', site', construct', ⟨p'⟩, outcome'⟩
  simp [bitEq, Outcome.bitEq_iff, and_assoc]

namespace Log

theorem agree_iff (as bs : List Decision) : agree Decision.bitEq as bs = true ↔ as = bs := by
  induction as generalizing bs with
  | nil => cases bs <;> simp [agree]
  | cons a as ih => cases bs <;> simp [agree, Decision.bitEq_iff, ih]

theorem bitEq_iff (a b : Log) : a.bitEq b = true ↔ a = b := by
  rcases a with ⟨seed, personality, chaos, autoSeeded, ⟨ds⟩⟩
  rcases b with ⟨seed', personality', chaos', autoSeeded', ⟨ds'⟩⟩
  simp [bitEq, sameBy, agree_iff, and_assoc]

/-! ## Flags -/

theorem hasUnknown_flags (l : Log) : l.flags.hasUnknown = false := by
  unfold flags
  cases l.autoSeeded <;> cases l.hasDrift <;> rfl

theorem isAutoSeeded_flags (l : Log) : l.flags.isAutoSeeded = l.autoSeeded := by
  unfold flags
  cases l.autoSeeded <;> cases l.hasDrift <;> rfl

theorem hasDrift_flags (l : Log) : l.flags.hasDrift = l.hasDrift := by
  unfold flags
  cases l.autoSeeded <;> cases l.hasDrift <;> rfl

theorem hasDrift_iff (l : Log) :
    l.hasDrift = true ↔ ∃ d ∈ l.decisions, d.construct = .timeDrift := by
  simp only [hasDrift, List.any_eq_true, Array.mem_toList_iff, beq_iff_eq]

/-- Flags without an unknown bit are told by their two bits. -/
theorem Flags.eq_of_known {f : Flags} (h : f.hasUnknown = false) :
    f = (none.setAutoSeeded f.isAutoSeeded).setDrift f.hasDrift := by
  rcases f with ⟨⟨bits⟩⟩
  have hall : ∀ bits : BitVec 8, (⟨⟨bits⟩⟩ : Flags).hasUnknown = false →
      (⟨⟨bits⟩⟩ : Flags) = (none.setAutoSeeded (⟨⟨bits⟩⟩ : Flags).isAutoSeeded).setDrift
        (⟨⟨bits⟩⟩ : Flags).hasDrift := by decide +kernel
  exact hall bits h

theorem Flags.masked_eq {f f' : Flags} (hf : f.hasUnknown = false) (hf' : f'.hasUnknown = false)
    (hseed : f.isAutoSeeded = f'.isAutoSeeded) :
    f.bits &&& ~~~driftBit = f'.bits &&& ~~~driftBit := by
  rw [eq_of_known hf, eq_of_known hf', hseed]
  cases f'.isAutoSeeded <;> cases f.hasDrift <;> cases f'.hasDrift <;> rfl

/-! ## Records in a row -/

/-- Sequence numbers that grow, the first of them past the previous one. -/
def Ascending (previous : Option UInt64) (ds : List Decision) : Prop :=
  (previous.toList ++ ds.map Decision.seq).Pairwise (· < ·)

theorem ascending_cons (previous : Option UInt64) (d : Decision) (ds : List Decision) :
    Ascending previous (d :: ds) ↔
      (previous.any fun p => d.seq ≤ p) = false ∧ Ascending (some d.seq) ds := by
  unfold Ascending
  cases previous with
  | none => simp
  | some p =>
    simp only [Option.toList_some, List.map_cons, List.singleton_append, List.pairwise_cons,
      List.mem_cons, Option.any_some, decide_eq_false_iff_not, UInt64.not_le]
    constructor
    · rintro ⟨hp, hd, hds⟩
      exact ⟨hp d.seq (Or.inl rfl), hd, hds⟩
    · rintro ⟨hp, hd, hds⟩
      refine ⟨?_, hd, hds⟩
      rintro s (rfl | hs)
      · exact hp
      · exact UInt64.lt_trans hp (hd s hs)

theorem ascending_none (ds : List Decision) :
    Ascending none ds ↔ ds.Pairwise fun a b => a.seq < b.seq := by
  rw [Ascending, Option.toList_none, List.nil_append, List.pairwise_map]

theorem decodeRecords_eq_ok_iff (n : Nat) (previous : Option UInt64) (bs : List UInt8)
    (ds : List Decision) :
    decodeRecords n previous bs = .ok ds ↔
      ds.length = n ∧ (∃ rest, bs = ds.flatMap encodeDecision ++ rest) ∧
        (∀ d ∈ ds, d.Storable) ∧ Ascending previous ds := by
  induction n generalizing previous bs ds with
  | zero =>
    rw [decodeRecords]
    constructor
    · rintro ⟨⟩
      refine ⟨rfl, ⟨bs, rfl⟩, by simp, ?_⟩
      cases previous <;> simp [Ascending]
    · rintro ⟨hlen, -⟩
      rw [List.length_eq_zero_iff.mp hlen]
  | succ n ih =>
    simp only [decodeRecords, bind_eq_ok_iff, guard_eq_ok_iff, Bool.not_eq_true]
    constructor
    · rintro ⟨⟨d, rest⟩, hd, hprev, ds', hds, ⟨⟩⟩
      obtain ⟨rfl, hstorable⟩ := decodeDecision_eq_ok_iff.mp hd
      -- The number of this record is the previous one of those that follow.
      obtain ⟨hlen, ⟨rest', rfl⟩, hall, hasc⟩ := (ih _ _ _).mp hds
      refine ⟨by simp [hlen], ⟨rest', by simp⟩, ?_, (ascending_cons _ _ _).mpr ⟨hprev, hasc⟩⟩
      rintro x (_ | ⟨_, hx⟩)
      · exact hstorable
      · exact hall x hx
    · rintro ⟨hlen, ⟨rest, rfl⟩, hall, hasc⟩
      rcases ds with _ | ⟨d, ds⟩
      · cases hlen
      obtain ⟨hprev, hasc⟩ := (ascending_cons _ _ _).mp hasc
      refine ⟨(d, ds.flatMap encodeDecision ++ rest), ?_, hprev, ds, ?_, rfl⟩
      · exact decodeDecision_eq_ok_iff.mpr ⟨by simp, hall d List.mem_cons_self⟩
      · exact (ih _ _ _).mpr ⟨Nat.succ.inj hlen, ⟨rest, rfl⟩,
          fun x hx => hall x (List.mem_cons_of_mem d hx), hasc⟩

/-! ## Sealed logs -/

@[simp]
theorem length_digest8 (message : List UInt8) : (Sha256.digest8 message).length = digestSize := by
  simp [Sha256.digest8, Sha256.digest, Sha256.State.words, digestSize]

/-- The header of the log, with flags of its own. -/
def headerWith (f : Flags) (l : Log) : Header :=
  ⟨Header.currentVersion, f, l.chaos, l.seed, UInt64.ofNat l.size, l.personality⟩

/-- The bytes that the digest is taken of. -/
def body (f : Flags) (l : Log) : List UInt8 :=
  (l.headerWith f).bytes ++ l.decisions.toList.flatMap encodeDecision

/-- The bytes of a log, whatever flags its header carries. -/
def sealed (f : Flags) (l : Log) : List UInt8 := l.body f ++ Sha256.digest8 (l.body f)

@[simp]
theorem length_sealed (f : Flags) (l : Log) : (l.sealed f).length = l.encodedLength := by
  simp only [sealed, body, List.length_append, length_digest8, Header.length_bytes,
    length_flatMap_encodeDecision]
  rfl

theorem take_sealed (f : Flags) (l : Log) :
    (l.sealed f).take ((l.sealed f).length - digestSize) = l.body f := by
  rw [sealed, List.length_append, length_digest8, Nat.add_sub_cancel, List.take_left' rfl]

theorem encode_eq (l : Log) :
    l.encode = if Header.maxNameLength < l.personality.utf8ByteSize
      then .error (.badLog .nameTooLong) else .ok (l.sealed l.flags) := by
  unfold encode Header.encode
  have hname : l.header.personality = l.personality := rfl
  rw [hname]
  split
  · rfl
  · rfl

/-- The records of the log are fewer bytes than a 64-bit number counts, as they are for any log
that is held in memory. -/
def Fits (l : Log) : Prop := l.size * recordSize < 2 ^ 64

/-- A log that its bytes give back. -/
structure Readable (l : Log) : Prop where
  name : l.personality.utf8ByteSize ≤ Header.maxNameLength
  fits : l.Fits
  ascending : l.decisions.toList.Pairwise fun a b => a.seq < b.seq
  storable : ∀ d ∈ l.decisions, d.Storable

theorem Fits.toNat_size {l : Log} (h : l.Fits) : (UInt64.ofNat l.size).toNat = l.size := by
  unfold Fits recordSize at h
  rw [UInt64.toNat_ofNat', Nat.mod_eq_of_lt (by omega)]

theorem decode_sealed {l : Log} (hl : l.Readable) {f : Flags} (hf : f.hasUnknown = false)
    (hseed : f.isAutoSeeded = l.autoSeeded) : decode (l.sealed f) = .ok l := by
  have hlen : (l.sealed f).length - digestSize = (l.body f).length := by
    rw [sealed, List.length_append, length_digest8, Nat.add_sub_cancel]
  have hbody : (l.sealed f).take (l.body f).length = l.body f := List.take_left' rfl
  have htrailer : (l.sealed f).drop (l.body f).length = Sha256.digest8 (l.body f) :=
    List.drop_left' rfl
  have hheader : Header.decode (l.body f) =
      .ok (l.headerWith f, l.decisions.toList.flatMap encodeDecision) :=
    Header.decode_eq_ok_iff.mpr ⟨rfl, rfl, hf, hl.name⟩
  have hcount : (l.headerWith f).count.toNat = l.size := hl.fits.toNat_size
  have hrecords : (l.decisions.toList.flatMap encodeDecision).length = l.size * recordSize := by
    rw [length_flatMap_encodeDecision]
    rfl
  have hds : decodeRecords l.size none (l.decisions.toList.flatMap encodeDecision) =
      .ok l.decisions.toList := by
    apply (decodeRecords_eq_ok_iff _ _ _ _).mpr
    refine ⟨rfl, ⟨[], (List.append_nil _).symm⟩, ?_, (ascending_none _).mpr hl.ascending⟩
    intro d hd
    exact hl.storable d (Array.mem_toList_iff.mp hd)
  simp only [decode, bind_eq_ok_iff, guard_eq_ok_iff, hlen, hbody, htrailer]
  refine ⟨by simp [encodedLength], _, hheader, ?_, ?_, by simp, l.decisions.toList, ?_, ?_⟩
  · rw [hcount]
    exact Nat.not_le.mpr hl.fits
  · rw [hcount]
    exact not_not_intro hrecords
  · rw [hcount]
    exact hds
  · have hseed' : (l.headerWith f).flags.isAutoSeeded = l.autoSeeded := hseed
    rw [hseed']
    rfl

theorem decode_eq_ok_iff {bs : List UInt8} {l : Log} :
    decode bs = .ok l ↔ l.Readable ∧
      ∃ f : Flags, f.hasUnknown = false ∧ f.isAutoSeeded = l.autoSeeded ∧ bs = l.sealed f := by
  constructor
  · intro h
    simp only [decode, bind_eq_ok_iff, guard_eq_ok_iff, Decidable.not_not, ne_eq] at h
    obtain ⟨hshort, ⟨header, records⟩, hheader, hover, hcount, hdigest, ds, hds, h⟩ := h
    cases h
    obtain ⟨hbody, hread⟩ := Header.decode_eq_ok_iff.mp hheader
    obtain ⟨hlen, ⟨rest, hrest⟩, hall, hasc⟩ := (decodeRecords_eq_ok_iff _ _ _ _).mp hds
    have hsize : UInt64.ofNat ds.length = header.count := by rw [hlen, UInt64.ofNat_toNat]
    -- The count in the header was compared with the length of what follows it.
    have hnil : rest = [] := by
      have hlength := congrArg List.length hrest
      rw [List.length_append, length_flatMap_encodeDecision, hlen] at hlength
      apply List.length_eq_zero_iff.mp
      omega
    rw [hnil, List.append_nil] at hrest
    refine ⟨⟨hread.name, ?_, (ascending_none _).mp hasc, ?_⟩, header.flags, hread.flags, rfl, ?_⟩
    · show ds.toArray.size * recordSize < 2 ^ 64
      rw [List.size_toArray, hlen]
      omega
    · intro d hd
      exact hall d (by simpa using hd)
    · have hheader' : headerWith header.flags ⟨header.seed, header.personality, header.chaos,
          header.flags.isAutoSeeded, ds.toArray⟩ = header := by
        unfold headerWith Log.size
        rw [List.size_toArray, hsize, ← hread.version]
      rw [sealed, body, hheader', ← hrest, ← hbody, hdigest, List.take_append_drop]
  · rintro ⟨hl, f, hf, hseed, rfl⟩
    exact decode_sealed hl hf hseed

/-! ## A small log -/

/-- A log of one decision, which is not a computed one. -/
def ofOneDecision : Log :=
  ⟨7, "playful", .least, false, #[⟨0, ⟨1⟩, .maybe, ⟨0x3FE0000000000000⟩, .bool true⟩]⟩

theorem readable_ofOneDecision : ofOneDecision.Readable where
  name := by decide
  fits := by
    unfold Fits
    decide
  ascending := List.pairwise_singleton _ _
  storable := by
    intro d hd
    rw [List.mem_singleton.mp (Array.mem_toList_iff.mpr hd)]
    exact ⟨by decide +kernel, by rintro v ⟨⟩⟩

end Log

end Fickle

import Fickle.Proofs.Log.Codec
import Fickle.Proofs.Log.Reading

/-! # Decoders stay within their bytes

The decoders of a log, step by step. No bytes lead to a trap, and without one the steps come to what
the decoders come to.
-/

namespace Fickle.Log

open Reading

/-! ## The decoders step by step -/

def readHeader : Reading Header := do
  let length ← remaining
  if length < Header.fixedSize then throw (.truncated Header.fixedSize length)
  let magic ← bytes 4
  if magic ≠ Header.magic then throw (.badLog .badMagic)
  let version ← byte
  if version ≠ Header.currentVersion then throw (.badLog (.unsupportedVersion version))
  let flags : Flags := ⟨← byte⟩
  if flags.hasUnknown then throw (.badLog (.unknownFlags flags.bits))
  let chaos ← ofExcept (ChaosLevel.ofNat (← byte))
  let nameLength := (← byte).toNat
  let seed ← word
  let count ← word
  let length ← remaining
  if length < nameLength then
    throw (.truncated (← plus Header.fixedSize nameLength) (← plus Header.fixedSize length))
  match Bytes.toText? (← peek nameLength) with
  | none => throw (.badLog .nameNotText)
  | some personality =>
    skip nameLength
    return ⟨version, flags, chaos, seed, count, personality⟩

def readDecision : Reading Decision := do
  let length ← remaining
  if length < recordSize then throw (.truncated recordSize length)
  let seq ← word
  let site : Site := ⟨← word⟩
  let constructByte ← byte
  let some construct := Construct.ofTag? constructByte | throw (.unknownConstructTag constructByte)
  let tagByte ← byte
  let some tag := OutcomeTag.ofByte? tagByte | throw (.unknownOutcomeTag tagByte)
  let probability : Binary64 := ⟨← word⟩
  if !Scalar.within 0.0 1.0 probability then throw (.badLog (.probability probability seq))
  let outcome ← ofExcept (outcomeOf tag (← word))
  return ⟨seq, site, construct, probability, outcome⟩

def readRecords : Nat → Option UInt64 → Reading (List Decision)
  | 0, _ => return []
  | n + 1, previous => do
    let d ← readDecision
    if previous.any fun p => d.seq ≤ p then throw (.badLog (.outOfOrder d.seq))
    return d :: (← readRecords n (some d.seq))

def readLog : Reading Log := do
  let length ← remaining
  if length < digestSize then throw (.truncated digestSize length)
  let trailer ← split (← minus length digestSize)
  let body ← left
  let header ← readHeader
  let count := header.count.toNat
  let some size := product? count recordSize | throw (.badLog .countOverflow)
  let length ← remaining
  if length ≠ size then throw (.badLog (.countMismatch count length))
  if Sha256.digest8 body ≠ trailer then throw (.badLog .digestMismatch)
  reserve count
  let decisions ← readRecords count none
  return ⟨header.seed, header.personality, header.chaos, header.flags.isAutoSeeded,
    decisions.toArray⟩

/-! ## Headers and records -/

theorem mirrors_readHeader : Mirrors readHeader Header.decode := by
  rintro ⟨bs, room⟩
  unfold readHeader
  apply follows_step on_remaining
  dsimp only
  rcases Nat.lt_or_ge bs.length Header.fixedSize with hshort | hlong
  · rw [if_pos hshort, Header.decode_of_short hshort]
    exact follows_throw _ rfl
  obtain ⟨m, v, f, c, n, s, k, tail, hm, hs, hk, rfl⟩ := Header.exists_fields hlong
  rw [if_neg (Nat.not_lt.mpr hlong), Header.decode_fields v f c n tail hm hs hk]
  dsimp only
  apply follows_step (on_bytes hm)
  refine follows_guard _ rfl fun _ => ?_
  apply follows_step (on_byte v)
  refine follows_guard _ rfl fun _ => ?_
  apply follows_step (on_byte f)
  refine follows_guard _ rfl fun _ => ?_
  apply follows_step (on_byte c)
  refine follows_ofExcept rfl fun chaos _ => ?_
  apply follows_step (on_byte n)
  apply follows_step (on_word hs)
  apply follows_step (on_word hk)
  apply follows_step on_remaining
  dsimp only
  -- The name is as long as one byte says, or the bytes end before it does.
  have hn := n.toNat_lt
  rcases Nat.lt_or_ge tail.length n.toNat with hshort | hname
  · rw [if_pos hshort, if_pos (Bytes.length_take_lt_iff.mpr hshort)]
    apply follows_step (on_plus (by unfold Header.fixedSize UInt64.size; omega))
    apply follows_step (on_plus (by unfold Header.fixedSize UInt64.size; omega))
    exact follows_throw _ rfl
  · have hshort : ¬ tail.length < n.toNat := Nat.not_lt.mpr hname
    rw [if_neg hshort, if_neg (mt Bytes.length_take_lt_iff.mp hshort)]
    apply follows_step (on_peek hname)
    rcases Bytes.toText? (tail.take n.toNat) with _ | name
    · exact follows_throw _ rfl
    · apply follows_step (on_skip hname)
      exact follows_pure ⟨rfl, rfl⟩

theorem mirrors_readDecision : Mirrors readDecision decodeDecision := by
  rintro ⟨bs, room⟩
  unfold readDecision
  apply follows_step on_remaining
  dsimp only
  rcases Nat.lt_or_ge bs.length recordSize with hshort | hlong
  · rw [if_pos hshort, decodeDecision_of_short hshort]
    exact follows_throw _ rfl
  -- There are bytes for all the fields, so no step from here on can overrun.
  obtain ⟨seq, site, c, t, p, o, rest, hseq, hsite, hp, ho, rfl⟩ := exists_fields hlong
  rw [if_neg (Nat.not_lt.mpr hlong), decodeDecision_fields c t rest hseq hsite hp ho]
  simp only [List.append_assoc, List.cons_append]
  apply follows_step (on_word hseq)
  apply follows_step (on_word hsite)
  apply follows_step (on_byte c)
  rcases Construct.ofTag? c with _ | construct
  · exact follows_throw _ rfl
  dsimp only
  apply follows_step (on_byte t)
  rcases OutcomeTag.ofByte? t with _ | tag
  · exact follows_throw _ rfl
  dsimp only
  apply follows_step (on_word hp)
  refine follows_guard _ rfl fun _ => ?_
  apply follows_step (on_word ho)
  refine follows_ofExcept rfl fun outcome _ => ?_
  exact follows_pure ⟨rfl, rfl⟩

/-- Records that fill their bytes are read to the last byte. -/
theorem follows_readRecords {n : Nat} (previous : Option UInt64) {b : Buffer}
    (h : b.left.length = n * recordSize) :
    Follows (readRecords n previous) b (decodeRecords n previous b.left)
      (fun ds ds' b' => ds' = ds ∧ b' = ⟨[], b.room⟩) fun b' => b'.room = b.room := by
  induction n generalizing previous b with
  | zero =>
    rcases b with ⟨bs, room⟩
    rw [Nat.zero_mul] at h
    cases List.eq_nil_of_length_eq_zero h
    exact follows_pure ⟨rfl, rfl⟩
  | succ n ih =>
    unfold readRecords decodeRecords
    apply follows_bind (mirrors_readDecision b) (fun _ hroom => hroom)
    rintro d ⟨_, _⟩ ⟨rest, room⟩ hd ⟨⟨⟩, rfl⟩
    dsimp only at hd ⊢
    -- A record takes its share of the bytes, and leaves that of the others.
    have hrest : rest.length = n * recordSize := by
      have hlength := congrArg List.length (decodeDecision_eq_ok_iff.mp hd).1
      rw [h, List.length_append, length_encodeDecision, Nat.succ_mul] at hlength
      omega
    refine follows_guard _ rfl fun _ => ?_
    apply follows_bind (ih (some d.seq) hrest) (fun _ hroom => hroom)
    rintro ds _ _ - ⟨rfl, rfl⟩
    exact follows_pure ⟨rfl, rfl⟩

/-! ## No record is cut short -/

theorem exists_badLog_of_outcomeOf_eq_error {tag : OutcomeTag} {raw : UInt64} {fault : Fault}
    (h : outcomeOf tag raw = .error fault) : ∃ flaw, fault = .badLog flaw := by
  unfold outcomeOf at h
  cases tag with
  | bool =>
    dsimp only at h
    split at h
    · cases h
    · split at h
      · cases h
      · cases h
        exact ⟨_, rfl⟩
  | ternary =>
    dsimp only at h
    split at h
    · cases h
    · cases h
      exact ⟨_, rfl⟩
  | int => cases h
  | float => cases h
  | count => cases h

theorem decodeDecision_ne_truncated {bs : List UInt8} (h : recordSize ≤ bs.length)
    (wanted given : Nat) : decodeDecision bs ≠ .error (.truncated wanted given) := by
  obtain ⟨seq, site, c, t, p, o, rest, hseq, hsite, hp, ho, rfl⟩ := exists_fields h
  rw [decodeDecision_fields c t rest hseq hsite hp ho]
  rcases Construct.ofTag? c with _ | construct
  · nofun
  rcases OutcomeTag.ofByte? t with _ | tag
  · nofun
  intro hfault
  simp only [guard_eq_error_iff, bind_eq_error_iff] at hfault
  obtain ⟨-, ⟨⟩⟩ | ⟨-, houtcome | ⟨outcome, -, ⟨⟩⟩⟩ := hfault
  obtain ⟨flaw, ⟨⟩⟩ := exists_badLog_of_outcomeOf_eq_error houtcome

theorem decodeRecords_ne_truncated {n : Nat} (previous : Option UInt64) {bs : List UInt8}
    (h : bs.length = n * recordSize) (wanted given : Nat) :
    decodeRecords n previous bs ≠ .error (.truncated wanted given) := by
  induction n generalizing previous bs with
  | zero => nofun
  | succ n ih =>
    rw [Nat.succ_mul] at h
    intro hfault
    simp only [decodeRecords, guard_eq_error_iff, bind_eq_error_iff] at hfault
    obtain hd | ⟨⟨d, rest⟩, hd, ⟨-, ⟨⟩⟩ | ⟨-, hds | ⟨ds, -, ⟨⟩⟩⟩⟩ := hfault
    · exact decodeDecision_ne_truncated (by omega) wanted given hd
    · have hlength := congrArg List.length (decodeDecision_eq_ok_iff.mp hd).1
      rw [h, List.length_append, length_encodeDecision] at hlength
      exact ih (some d.seq) (by dsimp only; omega) hds

/-! ## Logs -/

theorem length_of_decode_header {bs records : List UInt8} {header : Header}
    (h : Header.decode bs = .ok (header, records)) :
    bs.length = header.encodedLength + records.length := by
  rw [(Header.decode_eq_ok_iff.mp h).1, List.length_append, Header.length_bytes]

/-- The room that a log of so many bytes may take. -/
def WithinRoom (length : Nat) (b : Buffer) : Prop := ∀ n ∈ b.room, n ≤ length / recordSize

theorem follows_readLog (bs : List UInt8) :
    Follows readLog ⟨bs, []⟩ (decode bs)
      (fun l l' b' => l' = l ∧ b'.left = [] ∧ WithinRoom bs.length b') (WithinRoom bs.length) := by
  have hnone : WithinRoom bs.length ⟨bs, []⟩ := by
    rintro n ⟨⟩
  unfold readLog decode
  apply follows_step on_remaining
  dsimp only
  refine follows_guard _ hnone fun hlong => ?_
  have hlong := Nat.not_lt.mp hlong
  apply follows_step (on_minus hlong)
  apply follows_step (on_split (Nat.sub_le _ _))
  apply follows_step on_left
  apply follows_bind (mirrors_readHeader _)
  · intro b' hroom
    rw [WithinRoom, hroom]
    exact hnone
  rintro header ⟨_, _⟩ ⟨records, _⟩ hheader ⟨⟨⟩, rfl⟩
  have hlength := length_of_decode_header hheader
  dsimp only at hheader hlength ⊢
  generalize header.count.toNat = count at *
  -- The product is the one length that the bytes do not bound.
  by_cases hfits : count * recordSize < UInt64.size
  case neg =>
    rw [product?, if_neg hfits, if_pos (Nat.not_lt.mp hfits)]
    exact follows_throw _ hnone
  rw [product?, if_pos hfits, if_neg (Nat.not_le.mpr hfits)]
  apply follows_step on_remaining
  refine follows_guard _ hnone fun hcount => ?_
  have hcount : records.length = count * recordSize := Decidable.not_not.mp hcount
  refine follows_guard _ hnone fun _ => ?_
  apply follows_step on_reserve
  -- Room is made only after the records have been found to be there.
  have hroom : WithinRoom bs.length ⟨records, [count]⟩ := by
    intro n hn
    rw [List.mem_singleton.mp hn, recordSize, Nat.le_div_iff_mul_le (by decide)]
    rw [List.length_take] at hlength
    unfold recordSize at hcount
    omega
  apply follows_bind (follows_readRecords (b := ⟨records, [count]⟩) none hcount)
  · intro b' hb'
    rw [WithinRoom, hb']
    exact hroom
  rintro ds _ _ - ⟨rfl, rfl⟩
  exact follows_pure ⟨rfl, rfl, hroom⟩

/-- What holds of bytes that nothing is known of. -/
structure ReadSafely (bs : List UInt8) : Prop where
  header : readHeader.onBytes bs = .ok (Header.decode bs)
  decision : readDecision.onBytes bs = .ok (decodeDecision bs)
  /-- What is read as a log is read to the last byte. -/
  log : readLog.onBytes bs = .ok ((decode bs).map fun l => (l, []))
  room : ∀ result b, readLog.on ⟨bs, []⟩ = .ok (result, b) → ∀ n ∈ b.room,
    n ≤ bs.length / recordSize
  /-- From the check of the length on, no record is cut short and no byte is left over. -/
  records : ∀ header records,
    Header.decode (bs.take (bs.length - digestSize)) = .ok (header, records) →
      records.length = header.count.toNat * recordSize →
        (readRecords header.count.toNat none).onBytes records =
            .ok ((decodeRecords header.count.toNat none records).map fun ds => (ds, [])) ∧
          ∀ wanted given,
            decodeRecords header.count.toNat none records ≠ .error (.truncated wanted given)
  length : ∀ l, decode bs = .ok l → ∃ header records,
    Header.decode (bs.take (bs.length - digestSize)) = .ok (header, records) ∧
      header.personality = l.personality ∧ header.count.toNat = l.size ∧
      bs.length = 24 + header.personality.utf8ByteSize + 34 * header.count.toNat + 8

/-- Reading any bytes step by step meets no trap, and comes to what the decoders come to. -/
theorem decoders_stay_in_bounds (bs : List UInt8) : ReadSafely bs where
  header := mirrors_readHeader.onBytes_eq bs
  decision := mirrors_readDecision.onBytes_eq bs
  log := by
    apply (follows_readLog bs).onBytes_eq
    rintro l l' b' ⟨rfl, hleft, -⟩
    rw [hleft]
  room := by
    intro result b hon
    apply (follows_readLog bs).of_on_eq_ok _ (fun _ => id) hon
    rintro l l' b' ⟨-, -, hroom⟩
    exact hroom
  records := by
    intro header records _ hlength
    refine ⟨?_, decodeRecords_ne_truncated none hlength⟩
    apply (follows_readRecords (b := ⟨records, []⟩) none hlength).onBytes_eq
    rintro ds ds' b' ⟨rfl, rfl⟩
    rfl
  length := by
    intro l h
    obtain ⟨hl, f, hf, -, rfl⟩ := decode_eq_ok_iff.mp h
    have hheader : Header.decode (l.body f) =
        .ok (l.headerWith f, l.decisions.toList.flatMap encodeDecision) :=
      Header.decode_eq_ok_iff.mpr ⟨rfl, rfl, hf, hl.name⟩
    have hcount : (l.headerWith f).count.toNat = l.size := hl.fits.toNat_size
    refine ⟨l.headerWith f, _, (take_sealed f l).symm ▸ hheader, rfl, hcount, ?_⟩
    rw [length_sealed, hcount, Nat.mul_comm 34]
    rfl

end Fickle.Log

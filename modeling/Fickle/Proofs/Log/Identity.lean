import Fickle.Proofs.Log.RoundTrip

/-! # Bytes stand for one log

Accepted bytes say themselves where they end, and logs that can be written have the same bytes just
when they are the same. Neither is owed to the digest: the header and the records settle it.
-/

namespace Fickle.Log

/-! ## Where a log ends -/

/-- Readable logs have the same bytes as soon as the bytes of one begin with the body of the
other. -/
theorem sealed_eq_of_body_begins {l l' : Log} {f f' : Flags} (hl : l.Readable) (hl' : l'.Readable)
    (hf : f.hasUnknown = false) (hf' : f'.hasUnknown = false) (h : l.body f <+: l'.sealed f') :
    l'.sealed f' = l.sealed f := by
  obtain ⟨tail, htail⟩ := h
  obtain ⟨hheader, hrecords⟩ := eq_of_body_append htail hf hf' hl.name hl'.name
  -- The headers count the records, so that the records end at the same place.
  have hsize : l.size = l'.size := by
    have hcount := congrArg (fun header : Header => header.count.toNat) hheader
    dsimp only [headerWith] at hcount
    rwa [hl.fits.toNat_size, hl'.fits.toNat_size] at hcount
  have hlength : (l.decisions.toList.flatMap encodeDecision).length =
      (l'.decisions.toList.flatMap encodeDecision).length := by
    rw [length_flatMap_encodeDecision, length_flatMap_encodeDecision, Array.length_toList,
      Array.length_toList]
    exact congrArg (· * recordSize) hsize
  obtain ⟨hds, -⟩ := List.append_inj hrecords hlength
  have hbody : l'.body f' = l.body f := by rw [body, body, hheader, hds]
  rw [sealed, sealed, hbody]

/-- Accepted bytes that begin with all but the last eight of other accepted bytes are those. -/
theorem eq_of_decode_of_body_begins {bs bs' : List UInt8} {l l' : Log} (h : decode bs = .ok l)
    (h' : decode bs' = .ok l') (hbegins : bs.take (bs.length - digestSize) <+: bs') :
    bs' = bs := by
  obtain ⟨hl, f, hf, -, rfl⟩ := decode_eq_ok_iff.mp h
  obtain ⟨hl', f', hf', -, rfl⟩ := decode_eq_ok_iff.mp h'
  rw [take_sealed] at hbegins
  exact sealed_eq_of_body_begins hl hl' hf hf' hbegins

/-- Accepted bytes are accepted neither cut short nor with more bytes after them, nor when any
others stand in the place of the last eight. -/
theorem accepted_bytes_end_where_they_end {bs : List UInt8} {l : Log} (h : decode bs = .ok l) :
    (∀ bs', bs' <+: bs → bs' ≠ bs → ∃ fault, decode bs' = .error fault) ∧
      (∀ bs', bs <+: bs' → bs' ≠ bs → ∃ fault, decode bs' = .error fault) ∧
      ∀ bs', bs.take (bs.length - digestSize) <+: bs' → bs' ≠ bs →
        ∃ fault, decode bs' = .error fault := by
  have hbody : bs.take (bs.length - digestSize) <+: bs := List.take_prefix _ bs
  simp only [exists_eq_error_iff]
  refine ⟨?_, ?_, ?_⟩
  · intro bs' hcut hne l' h'
    have hbody' : bs'.take (bs'.length - digestSize) <+: bs' := List.take_prefix _ bs'
    exact hne (eq_of_decode_of_body_begins h' h (hbody'.trans hcut)).symm
  · intro bs' hmore hne l' h'
    exact hne (eq_of_decode_of_body_begins h h' (hbody.trans hmore))
  · intro bs' hother hne l' h'
    exact hne (eq_of_decode_of_body_begins h h' hother)

/-- A small log cut by as much as a record, followed by one more byte, and with every byte of its
digest moved on by one. -/
theorem accepted_bytes_end_where_they_end_ofOneDecision :
    decode (ofOneDecision.sealed Flags.none) = .ok ofOneDecision ∧
      (∃ fault, decode ((ofOneDecision.sealed Flags.none).take 39) = .error fault) ∧
      (∃ fault, decode (ofOneDecision.sealed Flags.none ++ [0]) = .error fault) ∧
      ∃ fault, decode (ofOneDecision.body Flags.none ++
        (Sha256.digest8 (ofOneDecision.body Flags.none)).map (· + 1)) = .error fault := by
  have h : decode (ofOneDecision.sealed Flags.none) = .ok ofOneDecision :=
    decode_sealed readable_ofOneDecision rfl rfl
  have hlength : (ofOneDecision.sealed Flags.none).length = 73 := by
    rw [length_sealed]
    decide
  obtain ⟨hcut, hmore, hother⟩ := accepted_bytes_end_where_they_end h
  have hshort : (ofOneDecision.sealed Flags.none).take 39 <+: ofOneDecision.sealed Flags.none :=
    List.take_prefix 39 _
  refine ⟨h, hcut _ hshort ?_, hmore _ (List.prefix_append _ _) ?_, hother _ ?_ ?_⟩
  · intro heq
    have hlength' := congrArg List.length heq
    rw [List.length_take, hlength] at hlength'
    cases hlength'
  · simp
  · rw [take_sealed]
    exact List.prefix_append _ _
  · intro heq
    have hdigest := List.append_cancel_left heq
    have hsize := length_digest8 (ofOneDecision.body Flags.none)
    rcases hbytes : Sha256.digest8 (ofOneDecision.body Flags.none) with _ | ⟨b, rest⟩
    · rw [hbytes] at hsize
      cases hsize
    · rw [hbytes] at hdigest
      have hb := (List.cons.inj hdigest).1
      simp at hb

/-! ## Which log it is -/

theorem sealed_flags_inj {l l' : Log} (h : l.sealed l.flags = l'.sealed l'.flags)
    (hname : l.personality.utf8ByteSize ≤ Header.maxNameLength)
    (hname' : l'.personality.utf8ByteSize ≤ Header.maxNameLength) : l = l' := by
  obtain ⟨hheader, hds⟩ := sealed_inj h (hasUnknown_flags l) (hasUnknown_flags l') hname hname'
  have hflags : l.flags = l'.flags := congrArg Header.flags hheader
  have hseed : l.autoSeeded = l'.autoSeeded := by
    rw [← isAutoSeeded_flags, hflags, isAutoSeeded_flags]
  exact eq_of_headerWith hheader hseed hds

/-- Logs that can be written have the same bytes just when they agree bit by bit, whether those
bytes can be read or not. -/
theorem encode_tells_logs_apart {a b : Log} {bs bs' : List UInt8} (ha : a.encode = .ok bs)
    (hb : b.encode = .ok bs') : bs = bs' ↔ a.bitEq b = true := by
  obtain ⟨hname, rfl⟩ := (encode_eq_ok_iff a bs).mp ha
  obtain ⟨hname', rfl⟩ := (encode_eq_ok_iff b bs').mp hb
  rw [bitEq_iff]
  constructor
  · intro h
    exact sealed_flags_inj h hname hname'
  · rintro rfl
    rfl

/-- A log that no bytes give back: its numbers fall, a probability is no number, and a state lies
far outside the three. Only its last outcome is open. -/
def unreadable (last : Binary64) : Log :=
  ⟨7, "playful", .least, false, #[⟨3, ⟨1⟩, .kindaBinary, ⟨0x7FF8000000000001⟩, .ternary 5⟩,
    ⟨1, ⟨1⟩, .fuzzyFloat, ⟨0x3FE0000000000000⟩, .float last⟩]⟩

/-- Zero and its negative make different bytes, even in logs that are not accepted again. -/
theorem encode_tells_logs_apart_unreadable :
    ∃ bs bs', (unreadable ⟨0⟩).encode = .ok bs ∧
      (unreadable ⟨0x8000000000000000⟩).encode = .ok bs' ∧
      (∃ fault, decode bs = .error fault) ∧ (∃ fault, decode bs' = .error fault) ∧ bs ≠ bs' := by
  have hname (last : Binary64) :
      (unreadable last).personality.utf8ByteSize ≤ Header.maxNameLength := by
    show "playful".utf8ByteSize ≤ 255
    decide
  have hencode (last : Binary64) : (unreadable last).encode =
      .ok ((unreadable last).sealed (unreadable last).flags) :=
    (encode_eq_ok_iff _ _).mpr ⟨hname last, rfl⟩
  -- Whatever the last outcome is, the numbers fall.
  have hrefused (last : Binary64) :
      ∃ fault, decode ((unreadable last).sealed (unreadable last).flags) = .error fault := by
    rw [exists_eq_error_iff]
    intro l hl
    have hread := (exists_decode_sealed_flags_iff (hname last)).mp ⟨l, hl⟩
    exact absurd hread.ascending (by simp [unreadable])
  refine ⟨_, _, hencode _, hencode _, hrefused _, hrefused _, ?_⟩
  rw [Ne, encode_tells_logs_apart (hencode _) (hencode _)]
  decide

end Fickle.Log

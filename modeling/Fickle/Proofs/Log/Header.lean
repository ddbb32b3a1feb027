import Fickle.Log.Header
import Fickle.Proofs.Bytes
import Fickle.Proofs.Except

/-! # Headers are exact

A header is read back from its bytes whatever follows them, and nothing else is accepted as that
header.
-/

namespace Fickle

namespace ChaosLevel

theorem ofNat_eq_ok_iff (level : UInt8) (c : ChaosLevel) : ofNat level = .ok c ↔ level = c.val := by
  unfold ofNat ofNat?
  constructor
  · intro h
    split at h
    · rename_i hc
      split at hc
      · cases hc
        cases h
        rfl
      · cases hc
    · cases h
  · rintro rfl
    rw [dif_pos ⟨c.one_le, c.le_ten⟩]

end ChaosLevel

namespace Log

namespace Header

/-- A header that is read back from its bytes. -/
structure Readable (h : Header) : Prop where
  version : h.version = currentVersion
  flags : h.flags.hasUnknown = false
  name : h.personality.utf8ByteSize ≤ maxNameLength

@[simp]
theorem length_bytes (h : Header) : h.bytes.length = h.encodedLength := by
  simp [bytes, magic, encodedLength, fixedSize]
  omega

/-! ## The fields of a header -/

theorem exists_fields {bs : List UInt8} (h : fixedSize ≤ bs.length) :
    ∃ m v f c n s k rest, m.length = 4 ∧ s.length = 8 ∧ k.length = 8 ∧
      bs = m ++ v :: f :: c :: n :: (s ++ (k ++ rest)) := by
  unfold fixedSize at h
  obtain ⟨m, r₁, hm, rfl⟩ := Bytes.exists_eq_append 4 bs (by omega)
  rw [List.length_append] at h
  -- Four single bytes stand between the magic number and the words.
  rcases r₁ with _ | ⟨v, _ | ⟨f, _ | ⟨c, _ | ⟨n, r₂⟩⟩⟩⟩
  · simp at h
    omega
  · simp at h
    omega
  · simp at h
    omega
  · simp at h
    omega
  simp only [List.length_cons] at h
  obtain ⟨s, r₃, hs, rfl⟩ := Bytes.exists_eq_append 8 r₂ (by omega)
  rw [List.length_append] at h
  obtain ⟨k, rest, hk, rfl⟩ := Bytes.exists_eq_append 8 r₃ (by omega)
  exact ⟨m, v, f, c, n, s, k, rest, hm, hs, hk, rfl⟩

theorem decode_fields {m s k : List UInt8} (v f c n : UInt8) (rest : List UInt8)
    (hm : m.length = 4) (hs : s.length = 8) (hk : k.length = 8) :
    decode (m ++ v :: f :: c :: n :: (s ++ (k ++ rest))) = (do
      if m ≠ magic then throw (.badLog .badMagic)
      if v ≠ currentVersion then throw (.badLog (.unsupportedVersion v))
      if (⟨f⟩ : Flags).hasUnknown then throw (.badLog (.unknownFlags f))
      let chaos ← ChaosLevel.ofNat c
      let name := rest.take n.toNat
      if name.length < n.toNat then
        throw (.truncated (fixedSize + n.toNat) (fixedSize + rest.length))
      match Bytes.toText? name with
      | none => throw (.badLog .nameNotText)
      | some personality =>
        return (⟨v, ⟨f⟩, chaos, Bytes.toWord s, Bytes.toWord k, personality⟩,
          rest.drop n.toNat)) := by
  generalize hbs : m ++ v :: f :: c :: n :: (s ++ (k ++ rest)) = bs
  have hlen : ¬ (bs.take fixedSize).length < fixedSize := by
    rw [← hbs]
    simp [fixedSize]
    omega
  -- Where each field begins, from the front on.
  have h0 : bs.take 4 = m := by
    rw [← hbs, List.take_left' hm]
  have h4 : bs.drop 4 = v :: f :: c :: n :: (s ++ (k ++ rest)) := by
    rw [← hbs, List.drop_left' hm]
  have h8 : bs.drop 8 = s ++ (k ++ rest) := by
    rw [← List.drop_drop (i := 4) (j := 4), h4]
    rfl
  have h16 : bs.drop 16 = k ++ rest := by
    rw [← List.drop_drop (i := 8) (j := 8), h8, List.drop_left' hs]
  have h24 : bs.drop fixedSize = rest := by
    rw [fixedSize, ← List.drop_drop (i := 8) (j := 16), h16, List.drop_left' hk]
  -- The decoder reads four single bytes by their place.
  have hget (i : Nat) : bs.getD (4 + i) 0 = (bs.drop 4).getD i 0 := by
    simp [List.getD_eq_getElem?_getD]
  have hv : bs.getD 4 0 = v := by
    rw [hget 0, h4]
    rfl
  have hf : bs.getD 5 0 = f := by
    rw [hget 1, h4]
    rfl
  have hc : bs.getD 6 0 = c := by
    rw [hget 2, h4]
    rfl
  have hn : bs.getD 7 0 = n := by
    rw [hget 3, h4]
    rfl
  rewrite [decode, if_neg hlen, h0, hv, hf, hc, hn, h8, List.take_left' hs, h16,
    List.take_left' hk, h24]
  rfl

/-! ## Headers -/

theorem decode_bytes {h : Header} (hr : h.Readable) (rest : List UInt8) :
    decode (h.bytes ++ rest) = .ok (h, rest) := by
  have hshape : h.bytes ++ rest = magic ++ h.version :: h.flags.bits :: h.chaos.val
      :: UInt8.ofNat h.personality.utf8ByteSize :: (Bytes.ofWord h.seed ++
        (Bytes.ofWord h.count ++ (Bytes.ofText h.personality ++ rest))) := by
    simp [bytes]
  have hname := hr.name
  unfold maxNameLength at hname
  have hn : (UInt8.ofNat h.personality.utf8ByteSize).toNat = h.personality.utf8ByteSize := by
    rw [UInt8.toNat_ofNat', Nat.mod_eq_of_lt (by omega)]
  have hlen := Bytes.length_ofText h.personality
  have hchaos := (ChaosLevel.ofNat_eq_ok_iff _ h.chaos).mpr rfl
  have htext := (Bytes.toText?_eq_some_iff _ h.personality).mpr rfl
  have hflags : (⟨h.flags.bits⟩ : Flags).hasUnknown = false := hr.flags
  rw [hshape, decode_fields _ _ _ _ _ rfl (by simp) (by simp), hn, List.take_left' hlen,
    List.drop_left' hlen, hr.version]
  simp only [htext, hchaos, hflags, hlen, Bytes.toWord_ofWord, ne_eq, not_true_eq_false, if_false,
    Nat.lt_irrefl, Bool.false_eq_true, ← hr.version]
  rfl

theorem decode_of_short {bs : List UInt8} (h : bs.length < fixedSize) :
    decode bs = .error (.truncated fixedSize bs.length) := by
  rw [decode, if_pos (Bytes.length_take_lt_iff.mpr h)]
  rfl

theorem fixedSize_le_of_decode {bs : List UInt8} {r : Header × List UInt8}
    (h : decode bs = .ok r) : fixedSize ≤ bs.length := by
  rcases Nat.lt_or_ge bs.length fixedSize with hshort | hlong
  · rw [decode_of_short hshort] at h
    cases h
  · exact hlong

theorem decode_eq_ok_iff {bs rest : List UInt8} {h : Header} :
    decode bs = .ok (h, rest) ↔ bs = h.bytes ++ rest ∧ h.Readable := by
  constructor
  · intro hd
    obtain ⟨m, v, f, c, n, s, k, tail, hm, hs, hk, rfl⟩ :=
      exists_fields (fixedSize_le_of_decode hd)
    rw [decode_fields v f c n tail hm hs hk] at hd
    simp only [guard_eq_ok_iff, bind_eq_ok_iff] at hd
    obtain ⟨hmagic, hv, hf, chaos, hchaos, hn, hd⟩ := hd
    rcases htext : Bytes.toText? (tail.take n.toNat) with _ | name
    · rw [htext] at hd
      cases hd
    rw [htext] at hd
    cases hd
    -- What was checked says that each field is the one that the header is written with.
    have hmagic := Decidable.not_not.mp hmagic
    have hc := (ChaosLevel.ofNat_eq_ok_iff c chaos).mp hchaos
    have hname := (Bytes.toText?_eq_some_iff _ name).mp htext
    have hsize : name.utf8ByteSize = n.toNat := by
      rw [← Bytes.length_ofText, ← hname]
      have hle := List.length_take_le n.toNat tail
      omega
    refine ⟨?_, Decidable.not_not.mp hv, Bool.eq_false_iff.mpr hf, ?_⟩
    · rw [bytes, hmagic, hsize, ← hc, ← hname, Bytes.ofWord_toWord hs, Bytes.ofWord_toWord hk,
        UInt8.ofNat_toNat]
      simp
    · have hlt := n.toNat_lt
      show name.utf8ByteSize ≤ 255
      omega
  · rintro ⟨rfl, hr⟩
    exact decode_bytes hr rest

end Header

end Log

end Fickle

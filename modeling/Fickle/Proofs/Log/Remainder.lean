import Fickle.Proofs.Log.Header
import Fickle.Proofs.Log.Record

/-! # What is read and what is left

A decoder that stands in front of other bytes has to stop where its value ends. The decoders of
records and of headers take just the bytes that their encoders make, and leave the rest.
-/

namespace Fickle.Log

variable {β : Type} {encode : β → Except Fault (List UInt8)}
  {decode : List UInt8 → Except Fault (β × List UInt8)} {size : β → Nat} {fits : β → Prop}

/-- An encoder and a decoder that undo each other on the values that fit, whatever follows. -/
structure ExactCodec (encode : β → Except Fault (List UInt8))
    (decode : List UInt8 → Except Fault (β × List UInt8)) (size : β → Nat) (fits : β → Prop) :
    Prop where
  /-- A value that fits has bytes, and these are as many as it says. -/
  encodes : ∀ a, fits a → ∃ front, encode a = .ok front ∧ front.length = size a
  /-- What is taken are the bytes of a value that fits, and nothing else is taken. -/
  decodes : ∀ bs a rest, decode bs = .ok (a, rest) ↔
    fits a ∧ ∃ front, encode a = .ok front ∧ bs = front ++ rest

namespace ExactCodec

theorem reads (h : ExactCodec encode decode size fits) {a : β} (ha : fits a) (rest : List UInt8) :
    ∃ front, encode a = .ok front ∧ decode (front ++ rest) = .ok (a, rest) := by
  obtain ⟨front, hfront, -⟩ := h.encodes a ha
  exact ⟨front, hfront, (h.decodes _ a rest).mpr ⟨ha, front, hfront, rfl⟩⟩

theorem leaves (h : ExactCodec encode decode size fits) {bs rest : List UInt8} {a : β}
    (hd : decode bs = .ok (a, rest)) :
    ∃ front, encode a = .ok front ∧ bs = front ++ rest ∧ front.length = size a := by
  obtain ⟨ha, front, hfront, hbs⟩ := (h.decodes bs a rest).mp hd
  obtain ⟨front', hfront', hlength⟩ := h.encodes a ha
  obtain rfl : front = front' := Except.ok.inj (hfront.symm.trans hfront')
  exact ⟨front, hfront, hbs, hlength⟩

end ExactCodec

theorem exact_decision :
    ExactCodec (fun d => .ok (encodeDecision d)) decodeDecision (fun _ => recordSize)
      Decision.Storable where
  encodes d _ := ⟨_, rfl, length_encodeDecision d⟩
  decodes bs d rest := by
    rw [decodeDecision_eq_ok_iff, and_comm]
    constructor
    · rintro ⟨hd, rfl⟩
      exact ⟨hd, _, rfl, rfl⟩
    · rintro ⟨hd, _, ⟨⟩, rfl⟩
      exact ⟨hd, rfl⟩

theorem Header.encode_eq_ok_iff {h : Header} {bs : List UInt8} :
    h.encode = .ok bs ↔ h.personality.utf8ByteSize ≤ maxNameLength ∧ h.bytes = bs := by
  unfold encode
  split
  · rename_i hlong
    exact ⟨nofun, fun ⟨hshort, _⟩ => absurd hshort (Nat.not_le.mpr hlong)⟩
  · rename_i hlong
    simp [Nat.not_lt.mp hlong]

theorem exact_header :
    ExactCodec Header.encode Header.decode Header.encodedLength Header.Readable where
  encodes h hh := ⟨_, Header.encode_eq_ok_iff.mpr ⟨hh.name, rfl⟩, h.length_bytes⟩
  decodes bs h rest := by
    rw [Header.decode_eq_ok_iff, and_comm]
    constructor
    · rintro ⟨hh, rfl⟩
      exact ⟨hh, _, Header.encode_eq_ok_iff.mpr ⟨hh.name, rfl⟩, rfl⟩
    · rintro ⟨hh, front, hfront, rfl⟩
      obtain ⟨-, rfl⟩ := Header.encode_eq_ok_iff.mp hfront
      exact ⟨hh, rfl⟩

/-- Records and headers are taken off the front of any bytes exactly. What a decoder takes are the
bytes that the encoder makes of the value, as many as it says, and what follows is left; and a
value that fits is taken off its own bytes whatever follows them. Doubles are their bits here, so a
negative zero and the payload of what is no number come back as they were. -/
theorem codecs_undo_each_other :
    ((∀ bs d rest, decodeDecision bs = .ok (d, rest) →
        bs = encodeDecision d ++ rest ∧ (encodeDecision d).length = 34) ∧
      ∀ bs h rest, Header.decode bs = .ok (h, rest) →
        ∃ front, h.encode = .ok front ∧ bs = front ++ rest ∧ front.length = h.encodedLength) ∧
    (∀ d rest, Scalar.within 0.0 1.0 d.probability = true →
        (∀ v, d.outcome = .ternary v → -1 ≤ v ∧ v ≤ 1) →
        decodeDecision (encodeDecision d ++ rest) = .ok (d, rest)) ∧
      ∀ h rest, h.version = 1 → h.flags.hasUnknown = false → h.personality.utf8ByteSize ≤ 255 →
        ∃ front, h.encode = .ok front ∧ Header.decode (front ++ rest) = .ok (h, rest) := by
  refine ⟨⟨?_, fun _ _ _ => exact_header.leaves⟩, ?_, ?_⟩
  · intro bs d rest hd
    obtain ⟨_, ⟨⟩, hbs, hlength⟩ := exact_decision.leaves hd
    exact ⟨hbs, hlength⟩
  · intro d rest hprobability hternary
    obtain ⟨_, ⟨⟩, hread⟩ := exact_decision.reads ⟨hprobability, hternary⟩ rest
    exact hread
  · intro h rest hversion hflags hname
    exact exact_header.reads ⟨hversion, hflags, hname⟩ rest

/-- A negative zero for a probability, and an outcome that is no number but has a payload. -/
def oddDecision : Decision :=
  ⟨3, ⟨42⟩, .fuzzyFloat, ⟨0x8000000000000000⟩, .float ⟨0xFFF0000000000123⟩⟩

/-- A header as it is read, with a name that is not of ASCII. -/
def oddHeader : Header := ⟨1, Flags.none, .least, 9, 1, "žertovný"⟩

theorem codecs_undo_each_other_odd :
    decodeDecision (encodeDecision oddDecision ++ [7]) = .ok (oddDecision, [7]) ∧
      ∃ front, oddHeader.encode = .ok front ∧
        Header.decode (front ++ [7]) = .ok (oddHeader, [7]) :=
  ⟨codecs_undo_each_other.2.1 oddDecision [7] (by decide +kernel) (by rintro v ⟨⟩),
    codecs_undo_each_other.2.2 oddHeader [7] rfl rfl (by decide)⟩

end Fickle.Log

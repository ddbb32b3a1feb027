import Fickle.Proofs.Log.Bounds
import Fickle.Proofs.Session.Beginning

/-! # Whom an undecodable log blames

A fault of the decoder points at the bytes, with one exception. A chaos level that there is not is
refused where sessions refuse theirs, and so with a fault that points at the settings. Damage of
that one byte cannot be told from a session that was given such a level.
-/

namespace Fickle

namespace ChaosLevel

theorem ofNat_eq_error_iff {level : UInt8} {fault : Fault} :
    ofNat level = .error fault ↔ ¬ (1 ≤ level ∧ level ≤ 10) ∧ fault = .chaosOutOfRange level := by
  unfold ofNat ofNat?
  by_cases h : 1 ≤ level ∧ level ≤ 10
  · simp [h]
  · simp [h, eq_comm]

end ChaosLevel

theorem Session.create_of_chaosOutOfRange {settings : Settings} {registry : Registry}
    {profile : Profile Binary64} (hname : registry.get settings.personality = .ok profile)
    (hlevel : ¬ (1 ≤ settings.chaosLevel ∧ settings.chaosLevel ≤ 10)) (drawn : UInt64) :
    create settings registry drawn = .error (.chaosOutOfRange settings.chaosLevel) := by
  have hchaos : settings.chaos = .error (.chaosOutOfRange settings.chaosLevel) :=
    ChaosLevel.ofNat_eq_error_iff.mpr ⟨hlevel, rfl⟩
  rw [create_eq, hname, hchaos]
  rfl

namespace Log

/-! ## Headers -/

namespace Header

/-- The bytes are in order up to the chaos level, and there is no such level. -/
structure Mistuned (bs : List UInt8) : Prop where
  length : fixedSize ≤ bs.length
  magic : bs.take 4 = magic
  version : bs.getD 4 0 = currentVersion
  flags : (⟨bs.getD 5 0⟩ : Flags).hasUnknown = false
  level : ¬ (1 ≤ bs.getD 6 0 ∧ bs.getD 6 0 ≤ 10)

variable {bs : List UInt8} {fault : Fault}

theorem Mistuned.decode_eq (h : Mistuned bs) :
    decode bs = .error (.chaosOutOfRange (bs.getD 6 0)) := by
  have hlength := mt Bytes.length_take_lt_iff.mp (Nat.not_lt.mpr h.length)
  have hflags : ¬ (⟨bs.getD 5 0⟩ : Flags).hasUnknown = true := Bool.eq_false_iff.mp h.flags
  unfold decode
  rw [if_neg hlength, if_neg (not_not_intro h.magic)]
  dsimp only
  rw [if_neg (not_not_intro h.version), if_neg hflags,
    ChaosLevel.ofNat_eq_error_iff.mpr ⟨h.level, rfl⟩]
  rfl

theorem of_decode_eq_error (h : decode bs = .error fault) :
    fault.kind = .format ∨ Mistuned bs := by
  simp only [decode, guard_eq_error_iff, bind_eq_error_iff] at h
  obtain ⟨-, rfl⟩ | ⟨hlength, h⟩ := h
  · exact .inl rfl
  obtain ⟨-, rfl⟩ | ⟨hmagic, h⟩ := h
  · exact .inl rfl
  obtain ⟨-, rfl⟩ | ⟨hversion, h⟩ := h
  · exact .inl rfl
  obtain ⟨-, rfl⟩ | ⟨hflags, h⟩ := h
  · exact .inl rfl
  obtain hchaos | ⟨chaos, -, h⟩ := h
  · -- All that is checked before the level is in order.
    have hlevel := (ChaosLevel.ofNat_eq_error_iff.mp hchaos).1
    exact .inr ⟨Nat.not_lt.mp (mt Bytes.length_take_lt_iff.mpr hlength),
      Decidable.not_not.mp hmagic, Decidable.not_not.mp hversion, Bool.eq_false_iff.mpr hflags,
      hlevel⟩
  obtain ⟨-, rfl⟩ | ⟨-, h⟩ := h
  · exact .inl rfl
  split at h
  · cases h
    exact .inl rfl
  · cases h

theorem mistuned_set {r : Header × List UInt8} (h : decode bs = .ok r) {level : UInt8}
    (hlevel : ¬ (1 ≤ level ∧ level ≤ 10)) : Mistuned (bs.set 6 level) := by
  have hlength := fixedSize_le_of_decode h
  simp only [decode, guard_eq_ok_iff] at h
  obtain ⟨-, hmagic, hversion, hflags, -⟩ := h
  -- The checks that come before it read other bytes.
  have hkept (i : Nat) (hi : i ≠ 6) : (bs.set 6 level).getD i 0 = bs.getD i 0 := by
    rw [List.getD_eq_getElem?_getD, List.getElem?_set_ne hi.symm, ← List.getD_eq_getElem?_getD]
  have hset : (bs.set 6 level).getD 6 0 = level := by
    rw [List.getD_eq_getElem?_getD, List.getElem?_set_self (by unfold fixedSize at hlength; omega)]
    rfl
  exact {
    length := by rwa [List.length_set]
    magic := by
      rw [List.take_set_of_le (by omega)]
      exact Decidable.not_not.mp hmagic
    version := by
      rw [hkept 4 (by decide)]
      exact Decidable.not_not.mp hversion
    flags := by
      rw [hkept 5 (by decide)]
      exact Bool.eq_false_iff.mpr hflags
    level := by rwa [hset] }

end Header

/-! ## Records -/

theorem kind_of_decodeDecision_eq_error {bs : List UInt8} {fault : Fault}
    (h : decodeDecision bs = .error fault) : fault.kind = .format := by
  rcases Nat.lt_or_ge bs.length recordSize with hshort | hlong
  · rw [decodeDecision_of_short hshort] at h
    cases h
    rfl
  obtain ⟨seq, site, c, t, p, o, rest, hseq, hsite, hp, ho, rfl⟩ := exists_fields hlong
  rw [decodeDecision_fields c t rest hseq hsite hp ho] at h
  rcases hc : Construct.ofTag? c with _ | construct
  · rw [hc] at h
    cases h
    rfl
  rcases ht : OutcomeTag.ofByte? t with _ | tag
  · rw [hc, ht] at h
    cases h
    rfl
  simp only [hc, ht, guard_eq_error_iff, bind_eq_error_iff] at h
  obtain ⟨-, rfl⟩ | ⟨-, houtcome | ⟨outcome, -, ⟨⟩⟩⟩ := h
  · rfl
  · obtain ⟨flaw, rfl⟩ := exists_badLog_of_outcomeOf_eq_error houtcome
    rfl

theorem kind_of_decodeRecords_eq_error {n : Nat} {previous : Option UInt64} {bs : List UInt8}
    {fault : Fault} (h : decodeRecords n previous bs = .error fault) : fault.kind = .format := by
  induction n generalizing previous bs with
  | zero => cases h
  | succ n ih =>
    simp only [decodeRecords, guard_eq_error_iff, bind_eq_error_iff] at h
    obtain hd | ⟨⟨d, rest⟩, -, ⟨-, rfl⟩ | ⟨-, hds | ⟨ds, -, ⟨⟩⟩⟩⟩ := h
    · exact kind_of_decodeDecision_eq_error hd
    · rfl
    · exact ih hds

/-! ## Logs -/

/-- The header of a log is in order up to the chaos level, and there is no such level. -/
def Mistuned (bs : List UInt8) : Prop := Header.Mistuned (bs.take (bs.length - digestSize))

variable {bs : List UInt8} {fault : Fault}

theorem Mistuned.length (h : Mistuned bs) : Header.fixedSize + digestSize ≤ bs.length := by
  have hlength := Header.Mistuned.length h
  rw [List.length_take] at hlength
  unfold Header.fixedSize at hlength ⊢
  omega

theorem Mistuned.getD_take (h : Mistuned bs) :
    (bs.take (bs.length - digestSize)).getD 6 0 = bs.getD 6 0 := by
  have hlength := h.length
  unfold Header.fixedSize at hlength
  rw [List.getD_eq_getElem?_getD, List.getElem?_take_of_lt (by omega), ← List.getD_eq_getElem?_getD]

theorem Mistuned.level (h : Mistuned bs) : ¬ (1 ≤ bs.getD 6 0 ∧ bs.getD 6 0 ≤ 10) := by
  have hlevel := Header.Mistuned.level h
  rwa [h.getD_take] at hlevel

theorem Mistuned.decode_eq (h : Mistuned bs) :
    decode bs = .error (.chaosOutOfRange (bs.getD 6 0)) := by
  have hlong : ¬ bs.length < digestSize := by
    have hlength := h.length
    omega
  unfold decode
  rw [if_neg hlong]
  dsimp only
  rw [Header.Mistuned.decode_eq h, h.getD_take]
  rfl

theorem of_decode_eq_error (h : decode bs = .error fault) :
    fault.kind = .format ∨ Mistuned bs := by
  simp only [decode, guard_eq_error_iff, bind_eq_error_iff] at h
  obtain ⟨-, rfl⟩ | ⟨-, hheader | ⟨⟨header, records⟩, -, h⟩⟩ := h
  · exact .inl rfl
  · exact Header.of_decode_eq_error hheader
  obtain ⟨-, rfl⟩ | ⟨-, ⟨-, rfl⟩ | ⟨-, ⟨-, rfl⟩ | ⟨-, hds | ⟨ds, -, ⟨⟩⟩⟩⟩⟩ := h
  · exact .inl rfl
  · exact .inl rfl
  · exact .inl rfl
  · exact .inl (kind_of_decodeRecords_eq_error hds)

theorem mistuned_set {l : Log} (h : decode bs = .ok l) {level : UInt8}
    (hlevel : ¬ (1 ≤ level ∧ level ≤ 10)) : Mistuned (bs.set 6 level) := by
  simp only [decode, guard_eq_ok_iff, bind_eq_ok_iff] at h
  obtain ⟨-, r, hheader, -⟩ := h
  have hbody := Header.mistuned_set hheader hlevel
  rwa [← List.take_set, ← List.length_set (i := 6) (a := level)] at hbody

/-- What the fault of the decoder tells of bytes that nothing is known of. -/
structure TellsDamage (bs : List UInt8) : Prop where
  /-- A fault points at the log, unless the chaos level is what the decoder stumbles over. -/
  pointsAtLog : ∀ fault, decode bs = .error fault → (fault.kind = .format ↔ ¬ Mistuned bs)
  /-- There it points at the settings, whatever else may be wrong with the log. -/
  pointsAtSettings : Mistuned bs → decode bs = .error (.chaosOutOfRange (bs.getD 6 0)) ∧
    (Fault.chaosOutOfRange (bs.getD 6 0)).kind = .configuration
  /-- Settings with that level fail with the same fault. -/
  sameAsSettings : Mistuned bs → ∀ (settings : Settings) (registry : Registry)
    (profile : Profile Binary64) (drawn : UInt64),
    registry.get settings.personality = .ok profile → settings.chaosLevel = bs.getD 6 0 →
      ∃ fault, decode bs = .error fault ∧ Session.create settings registry drawn = .error fault
  /-- It takes one byte of a good log. -/
  oneByte : ∀ l level, decode bs = .ok l → ¬ (1 ≤ level ∧ level ≤ 10) → Mistuned (bs.set 6 level)

/-- Whatever is wrong with bytes that are no log, the fault says that it is the log, but for a chaos
level that there is not. -/
theorem damage_is_told_but_for_the_level (bs : List UInt8) : TellsDamage bs where
  pointsAtLog := by
    intro fault h
    constructor
    · intro hkind hmistuned
      cases h.symm.trans hmistuned.decode_eq
      cases hkind
    · exact (of_decode_eq_error h).resolve_right
  pointsAtSettings h := ⟨h.decode_eq, rfl⟩
  sameAsSettings := by
    intro h settings registry profile drawn hname hlevel
    refine ⟨_, h.decode_eq, ?_⟩
    rw [← hlevel]
    exact Session.create_of_chaosOutOfRange hname (hlevel ▸ h.level) drawn
  oneByte _ _ h := mistuned_set h

/-- A good log of which the chaos level is overwritten, beside a session with that level. -/
theorem damage_is_told_but_for_the_level_eleven :
    decode (ofOneDecision.sealed Flags.none) = .ok ofOneDecision ∧
      Mistuned ((ofOneDecision.sealed Flags.none).set 6 11) ∧
      ∃ fault, decode ((ofOneDecision.sealed Flags.none).set 6 11) = .error fault ∧
        fault.kind = .configuration ∧
        Session.create (Settings.seeded "playful" 11 7) Registry.builtin 7 = .error fault := by
  have hgood : decode (ofOneDecision.sealed Flags.none) = .ok ofOneDecision :=
    decode_sealed readable_ofOneDecision rfl rfl
  have hmistuned := (damage_is_told_but_for_the_level _).oneByte ofOneDecision 11 hgood (by decide)
  have htold := damage_is_told_but_for_the_level ((ofOneDecision.sealed Flags.none).set 6 11)
  obtain ⟨fault, hfault, hcreate⟩ := htold.sameAsSettings hmistuned
    (Settings.seeded "playful" 11 7) Registry.builtin _ 7 rfl rfl
  obtain ⟨hsame, hkind⟩ := htold.pointsAtSettings hmistuned
  cases hfault.symm.trans hsame
  exact ⟨hgood, hmistuned, _, hfault, hkind, hcreate⟩

end Log

end Fickle

import Fickle.Proofs.Session.Beginning
import Fickle.Rate.Runner
import Fickle.Proofs.Word

/-! # Seeds of sub-streams

The seed of a sub-stream is mixed from the seed and the index by steps that lose nothing. So neither
two indices under one seed nor two seeds under one index ever give the same.
-/

namespace Fickle

namespace Stream

/-! ## The mixing -/

/-- What is done to the sum of a seed and the multiple of an index. -/
def scramble (z : UInt64) : UInt64 :=
  let z := (z ^^^ (z >>> 30)) * 0xBF58476D1CE4E5B9
  let z := (z ^^^ (z >>> 27)) * 0x94D049BB133111EB
  z ^^^ (z >>> 31)

theorem bijective_scramble : Function.Bijective scramble := by
  have hfirst : Function.Bijective fun z : UInt64 => (z ^^^ (z >>> 30)) * 0xBF58476D1CE4E5B9 :=
    (Word.bijective_mul_right (d := 0x96DE1B173F119089) (by decide)).comp
      (Word.bijective_xor_shiftRight (by decide))
  have hsecond : Function.Bijective fun z : UInt64 => (z ^^^ (z >>> 27)) * 0x94D049BB133111EB :=
    (Word.bijective_mul_right (d := 0x319642B2D24D8EC3) (by decide)).comp
      (Word.bijective_xor_shiftRight (by decide))
  exact (Word.bijective_xor_shiftRight (by decide)).comp (hsecond.comp hfirst)

theorem bijective_subseed (seed : UInt64) : Function.Bijective (subseed seed) := by
  have hmultiple : Function.Bijective fun index : UInt64 => (index + 1) * 0x9E3779B97F4A7C15 :=
    (Word.bijective_mul_right (d := 0xF1DE83E19937733D) (by decide)).comp
      (Word.bijective_add_right 1)
  exact bijective_scramble.comp ((Word.bijective_add_left seed).comp hmultiple)

theorem bijective_subseed_left (index : UInt64) :
    Function.Bijective fun seed => subseed seed index :=
  bijective_scramble.comp (Word.bijective_add_right _)

end Stream

/-! ## Trials -/

namespace Runner

theorem of_session_eq_ok {r : Runner} {i : UInt64} {s : Session} (h : r.session i.toNat = .ok s) :
    s.seed = Stream.subseed r.baseSeed i ∧ s.stream = Stream.ofSeed s.seed := by
  obtain ⟨profile, chaos, -, -, rfl⟩ := Session.of_create_eq_opened h
  refine ⟨?_, rfl⟩
  show r.seed i.toNat = _
  unfold seed
  rw [UInt64.ofNat_toNat]

/-- Under any seed each of the words is the seed of exactly one sub-stream, and so it is for any
index under the seeds. Hence each trial of a runner reads a stream of its own seed, which no other
trial has. -/
theorem seeds_never_collide :
    (∀ seed, Function.Bijective (Stream.subseed seed)) ∧
      (∀ index, Function.Bijective fun seed => Stream.subseed seed index) ∧
      ∀ (r : Runner) (i j : UInt64) (s t : Session),
        r.session i.toNat = .ok s → r.session j.toNat = .ok t →
          s.stream = Stream.ofSeed s.seed ∧ (s.seed = t.seed ↔ i = j) := by
  refine ⟨Stream.bijective_subseed, Stream.bijective_subseed_left, fun r i j s t hs ht => ?_⟩
  obtain ⟨hseed, hstream⟩ := of_session_eq_ok hs
  obtain ⟨hseed', -⟩ := of_session_eq_ok ht
  refine ⟨hstream, ?_⟩
  rw [hseed, hseed']
  exact (Stream.bijective_subseed r.baseSeed).injective.eq_iff

/-- The first and the last of all trials that a runner could make. -/
theorem seeds_never_collide_firstAndLast :
    let r := ofPersonality "playful" 10 Registry.builtin 42
    let trial (i : UInt64) := Session.opened Registry.builtin Personality.playful.profile
      .greatest .standard (Stream.subseed 42 i) false false
    r.session (0 : UInt64).toNat = .ok (trial 0) ∧
      r.session (18446744073709551615 : UInt64).toNat = .ok (trial 18446744073709551615) ∧
      (trial 0).seed ≠ (trial 18446744073709551615).seed := by
  intro r trial
  have hfirst : r.session (0 : UInt64).toNat = .ok (trial 0) := rfl
  have hlast : r.session (18446744073709551615 : UInt64).toNat =
      .ok (trial 18446744073709551615) := rfl
  have happlied := (seeds_never_collide.2.2 r 0 18446744073709551615 _ _ hfirst hlast).2
  exact ⟨hfirst, hlast, fun hsame => absurd (happlied.mp hsame) (by decide)⟩

end Runner

end Fickle

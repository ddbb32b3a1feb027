import Fickle.Bytes

/-! # Bytes give back what was written

Numbers of a fixed width and texts, in both directions.
-/

namespace Fickle.Bytes

/-! ## Numbers -/

theorem toNat_ofNat (n x : Nat) : toNat (ofNat n x) = x % 256 ^ n := by
  induction n generalizing x with
  | zero => simp [ofNat, toNat, Nat.mod_one]
  | succ n ih =>
    have hsplit : x % 256 ^ (n + 1) = x % 256 + 256 * (x / 256 % 256 ^ n) := by
      rw [Nat.pow_succ', Nat.mod_mul]
    rw [ofNat, toNat, ih, UInt8.toNat_ofNat', hsplit]

theorem toNat_lt (bs : List UInt8) : toNat bs < 256 ^ bs.length := by
  induction bs with
  | nil => simp [toNat]
  | cons b bs ih =>
    have hb := b.toNat_lt
    rw [toNat, List.length_cons, Nat.pow_succ]
    omega

theorem ofNat_toNat (bs : List UInt8) : ofNat bs.length (toNat bs) = bs := by
  induction bs with
  | nil => rfl
  | cons b bs ih =>
    have hb := b.toNat_lt
    have hdiv : (b.toNat + 256 * toNat bs) / 256 = toNat bs := by omega
    have hlow : UInt8.ofNat (b.toNat + 256 * toNat bs) = b := by
      apply UInt8.toNat_inj.mp
      rw [UInt8.toNat_ofNat']
      omega
    rw [List.length_cons, toNat, ofNat, hlow, hdiv, ih]

@[simp]
theorem length_ofWord (x : UInt64) : (ofWord x).length = 8 := length_ofNat 8 x.toNat

@[simp]
theorem toWord_ofWord (x : UInt64) : toWord (ofWord x) = x := by
  rw [toWord, ofWord, toNat_ofNat]
  have hx : x.toNat % 256 ^ 8 = x.toNat := Nat.mod_eq_of_lt x.toNat_lt
  rw [hx, UInt64.ofNat_toNat]

theorem ofWord_inj {x y : UInt64} (h : ofWord x = ofWord y) : x = y := by
  rw [← toWord_ofWord x, h, toWord_ofWord]

theorem ofWord_toWord {bs : List UInt8} (h : bs.length = 8) : ofWord (toWord bs) = bs := by
  have hlt := toNat_lt bs
  rw [h] at hlt
  have hn : (toWord bs).toNat = toNat bs := by
    rw [toWord, UInt64.toNat_ofNat']
    exact Nat.mod_eq_of_lt hlt
  have hbs := ofNat_toNat bs
  rw [h] at hbs
  rw [ofWord, hn, hbs]

/-! ## Cuts -/

theorem exists_eq_append (n : Nat) (bs : List UInt8) (h : n ≤ bs.length) :
    ∃ front rest, front.length = n ∧ bs = front ++ rest := by
  refine ⟨bs.take n, bs.drop n, ?_, (List.take_append_drop n bs).symm⟩
  rw [List.length_take, Nat.min_eq_left h]

theorem length_take_lt_iff {n : Nat} {bs : List UInt8} :
    (bs.take n).length < n ↔ bs.length < n := by
  rw [List.length_take]
  omega

/-! ## Texts -/

@[simp]
theorem length_ofText (s : String) : (ofText s).length = s.utf8ByteSize := by
  rw [ofText, Array.length_toList]
  rfl

theorem toText?_eq_some_iff (bs : List UInt8) (s : String) :
    toText? bs = some s ↔ bs = ofText s := by
  rw [toText?, String.fromUTF8?]
  constructor
  · intro h
    split at h
    · cases h
      rfl
    · cases h
  · rintro rfl
    have hs : ByteArray.mk (ofText s).toArray = s.toByteArray := rfl
    rw [hs, dif_pos s.isValidUTF8]
    rfl

end Fickle.Bytes

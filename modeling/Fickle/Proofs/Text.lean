import Fickle.Text.Blank

/-! # Cutting a text

Where a run of characters of one kind ends, and the digits that a number is written with.
-/

namespace Fickle.Text

variable {p : Char → Bool} {cs rest : List Char}

theorem dropWhile_of_takeWhile (h : rest.takeWhile p = []) : rest.dropWhile p = rest := by
  have happend := List.takeWhile_append_dropWhile (p := p) (l := rest)
  rwa [h, List.nil_append] at happend

theorem takeWhile_append_of_head (cs : List Char) (h : rest.takeWhile p = []) :
    (cs ++ rest).takeWhile p = cs.takeWhile p := by
  rw [List.takeWhile_append, h, List.append_nil]
  split
  · rename_i hall
    exact ((List.takeWhile_sublist p).eq_of_length hall).symm
  · rfl

theorem dropWhile_append_of_head (cs : List Char) (h : rest.takeWhile p = []) :
    (cs ++ rest).dropWhile p = cs.dropWhile p ++ rest := by
  rw [List.dropWhile_append, dropWhile_of_takeWhile h]
  split
  · rename_i hall
    rw [List.isEmpty_iff.mp hall, List.nil_append]
  · rfl

theorem takeWhile_append_of_all (hcs : ∀ c ∈ cs, p c = true) (h : rest.takeWhile p = []) :
    (cs ++ rest).takeWhile p = cs := by
  rw [List.takeWhile_append_of_pos hcs, h, List.append_nil]

theorem dropWhile_append_of_all (hcs : ∀ c ∈ cs, p c = true) (h : rest.takeWhile p = []) :
    (cs ++ rest).dropWhile p = rest := by
  rw [List.dropWhile_append_of_pos hcs, dropWhile_of_takeWhile h]

theorem takeWhile_of_all (hcs : ∀ c ∈ cs, p c = true) : cs.takeWhile p = cs := by
  have h : (cs ++ []).takeWhile p = cs := takeWhile_append_of_all hcs rfl
  rwa [List.append_nil] at h

theorem dropWhile_of_all (hcs : ∀ c ∈ cs, p c = true) : cs.dropWhile p = [] := by
  have h : (cs ++ []).dropWhile p = [] := dropWhile_append_of_all hcs rfl
  rwa [List.append_nil] at h

theorem isDigit_of_mem_toDigits {n : Nat} : ∀ c ∈ Nat.toDigits 10 n, c.isDigit = true :=
  fun _ => Nat.isDigit_of_mem_toDigits (by decide) (by decide)

end Fickle.Text

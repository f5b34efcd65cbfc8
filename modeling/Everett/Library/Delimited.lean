import Mathlib.Tactic

/-!
# Delimited words

Words are stored one after the other, together with the positions which delimit them.
-/

namespace Everett.Delimited

variable {α : Type*}

/-- The positions which delimit words, the first and the last one included. -/
def offsets (words : List (List α)) : List Nat :=
  (List.range (words.length + 1)).map fun i => (words.take i).flatten.length

@[simp]
theorem length_offsets (words : List (List α)) : (offsets words).length = words.length + 1 := by
  simp [offsets]

@[simp]
theorem offsets_nil : offsets ([] : List (List α)) = [0] := rfl

theorem getElem?_offsets {words : List (List α)} {i : Nat} (within : i ≤ words.length) :
    (offsets words)[i]? = some (words.take i).flatten.length := by
  rw [offsets, List.getElem?_map, List.getElem?_range (Nat.lt_succ_of_le within)]
  rfl

theorem offsets_append_singleton (words : List (List α)) (word : List α) :
    offsets (words ++ [word]) = offsets words ++ [(words ++ [word]).flatten.length] := by
  have whole : (words ++ [word]).take (words.length + 1) = words ++ [word] :=
    List.take_of_length_le (by simp)
  have front : ∀ i ∈ List.range (words.length + 1),
      ((words ++ [word]).take i).flatten.length = (words.take i).flatten.length := by
    intro i member
    have within : i ≤ words.length := Nat.lt_succ_iff.mp (List.mem_range.mp member)
    rw [List.take_append_of_le_length within]
  have length : (words ++ [word]).length + 1 = words.length + 1 + 1 := by simp
  rw [offsets, length, List.range_succ, List.map_append, List.map_congr_left front,
    List.map_singleton, whole]
  rfl

theorem length_take_succ {words : List (List α)} {i : Nat} {word : List α}
    (found : words[i]? = some word) :
    (words.take (i + 1)).flatten.length = (words.take i).flatten.length + word.length := by
  rw [List.take_add_one, found, List.flatten_append, List.length_append]
  simp

/-- The word between two delimiting positions. -/
theorem between {words : List (List α)} {i : Nat} {word : List α} (found : words[i]? = some word) :
    (words.flatten.drop (words.take i).flatten.length).take word.length = word := by
  obtain ⟨within, rfl⟩ := List.getElem?_eq_some_iff.mp found
  have split : words = words.take i ++ words[i] :: words.drop (i + 1) := by
    rw [List.cons_getElem_drop_succ, List.take_append_drop]
  have flat : words.flatten =
      (words.take i).flatten ++ (words[i] ++ (words.drop (i + 1)).flatten) := by
    conv_lhs => rw [split, List.flatten_append, List.flatten_cons]
  rw [flat, List.drop_left, List.take_left]

theorem length_take_le {words : List (List α)} (i : Nat) :
    (words.take i).flatten.length ≤ words.flatten.length := by
  conv_rhs => rw [← List.take_append_drop i words, List.flatten_append, List.length_append]
  exact Nat.le_add_right _ _

/-- Words of one width are delimited by its multiples. -/
theorem length_flatten_of_width {words : List (List α)} {width : Nat}
    (uniform : ∀ word ∈ words, word.length = width) : words.flatten.length = words.length * width := by
  rw [List.length_flatten, List.map_congr_left uniform, List.map_const', List.sum_replicate,
    smul_eq_mul]

end Everett.Delimited

import Mathlib.Data.List.MinMax
import Mathlib.Data.List.Sort

/-!
# Numbered lists

A history in which the number of each item is its position: without gaps, without repetitions, and
with the greatest number at its end.
-/

namespace Everett

variable {α : Type} {number : α → ℕ} {items : List α} {a b : α}

/-- The number of each item is its position. -/
def Numbered (number : α → ℕ) (items : List α) : Prop :=
  items.map number = List.range items.length

namespace Numbered

theorem nil : Numbered number [] := rfl

theorem concat_iff :
    Numbered number (items ++ [a]) ↔ Numbered number items ∧ number a = items.length := by
  unfold Numbered
  rw [List.map_append, List.length_append, List.length_singleton, List.range_succ,
    List.map_singleton]
  constructor
  · intro same
    obtain ⟨front, back⟩ := List.append_inj same (by rw [List.length_map, List.length_range])
    exact ⟨front, List.singleton_inj.mp back⟩
  · rintro ⟨front, back⟩
    rw [front, back]

theorem lt_length (numbered : Numbered number items) (member : a ∈ items) :
    number a < items.length := by
  have mapped := List.mem_map_of_mem (f := number) member
  rw [numbered] at mapped
  exact List.mem_range.mp mapped

/-- A number belongs to one item. -/
theorem inj (numbered : Numbered number items) (first : a ∈ items) (second : b ∈ items)
    (same : number a = number b) : a = b := by
  have nodup : (items.map number).Nodup := by
    rw [numbered]
    exact List.nodup_range
  exact List.inj_on_of_nodup_map nodup first second same

/-- The last item has the greatest number. -/
theorem getLast (numbered : Numbered number items) (last : items.getLast? = some a) :
    number a + 1 = items.length := by
  obtain ⟨front, rfl⟩ := List.getLast?_eq_some_iff.mp last
  rw [(Iff.mp concat_iff numbered).2, List.length_append, List.length_singleton]

/-- The item with the greatest number is the last one. -/
theorem argmax (numbered : Numbered number items) : items.argmax number = items.getLast? := by
  induction items using List.reverseRecOn with
  | nil => rfl
  | append_singleton front last induction =>
      obtain ⟨before, top⟩ := Iff.mp concat_iff numbered
      rw [List.argmax_concat, List.getLast?_concat, induction before]
      cases found : front.getLast? with
      | none => rfl
      | some old =>
          have less : number old < number last := by
            rw [top]
            exact before.lt_length (List.mem_of_getLast? found)
          exact if_pos less

end Numbered

/-! ## Sorted lists -/

theorem pairwise_mergeSort_le [LinearOrder α] (items : List α) :
    (items.mergeSort fun x y => decide (x ≤ y)).Pairwise (· ≤ ·) := by
  have total := @List.pairwise_mergeSort α (fun x y => decide (x ≤ y))
    (fun _ _ _ first second => decide_eq_true
      ((of_decide_eq_true first).trans (of_decide_eq_true second)))
    (fun x y => by simpa using le_total x y) items
  exact total.imp of_decide_eq_true

/-- Sorting with one more item, which is then left out, gives a sorted list back. -/
theorem filter_mergeSort_cons [LinearOrder α] [DecidableEq α] (sorted : items.Pairwise (· ≤ ·))
    (absent : a ∉ items) :
    ((a :: items).mergeSort fun x y => decide (x ≤ y)).filter (· ≠ a) = items := by
  have same : (((a :: items).mergeSort fun x y => decide (x ≤ y)).filter (· ≠ a)).Perm items := by
    have others : items.filter (· ≠ a) = items := List.filter_eq_self.mpr fun x member =>
      decide_eq_true fun same => absent (same ▸ member)
    have perm := (List.mergeSort_perm (a :: items) fun x y => decide (x ≤ y)).filter (· ≠ a)
    rwa [List.filter_cons_of_neg (by simp), others] at perm
  exact same.eq_of_pairwise (fun _ _ _ _ first second => le_antisymm first second)
    ((pairwise_mergeSort_le _).filter _) sorted

/-- A sorted list is sorted already. -/
theorem mergeSort_of_sorted [LinearOrder α] (sorted : items.Pairwise (· ≤ ·)) :
    (items.mergeSort fun x y => decide (x ≤ y)) = items :=
  List.mergeSort_of_pairwise (sorted.imp decide_eq_true)

end Everett

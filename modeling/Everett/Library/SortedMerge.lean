import Mathlib.Data.List.Sort
import Mathlib.Order.Compare
import Mathlib.Tactic

/-!
# Merging sorted association lists

Two lists of entries with strictly increasing keys are merged into one, entries of one key being
combined.  The merge has the keys of both lists, and what it associates with a key depends only on
what either list does.
-/

namespace Everett

variable {κ ν : Type*} [LinearOrder κ]

/-- Merge two sorted association lists, combining the values of a common key. -/
def mergeWith (combine : κ → ν → ν → ν) : List (κ × ν) → List (κ × ν) → List (κ × ν)
  | [], newer => newer
  | older, [] => older
  | (a, x) :: older, (b, y) :: newer =>
      if a < b then (a, x) :: mergeWith combine older ((b, y) :: newer)
      else if b < a then (b, y) :: mergeWith combine ((a, x) :: older) newer
      else (a, combine a x y) :: mergeWith combine older newer
  termination_by older newer => older.length + newer.length

/-- The value which an association list gives a key. -/
def valueAt (key : κ) (entries : List (κ × ν)) : Option ν :=
  (entries.find? fun entry => entry.1 = key).map Prod.snd

variable {combine : κ → ν → ν → ν} {a b key : κ} {x y : ν} {older newer : List (κ × ν)}

@[simp]
theorem mergeWith_nil_left : mergeWith combine [] newer = newer := by
  rw [mergeWith]

@[simp]
theorem mergeWith_nil_right : mergeWith combine older [] = older := by
  cases older <;> rw [mergeWith]
  exact List.cons_ne_nil _ _

theorem mergeWith_of_lt (less : a < b) :
    mergeWith combine ((a, x) :: older) ((b, y) :: newer) =
      (a, x) :: mergeWith combine older ((b, y) :: newer) := by
  rw [mergeWith, if_pos less]

theorem mergeWith_of_gt (greater : b < a) :
    mergeWith combine ((a, x) :: older) ((b, y) :: newer) =
      (b, y) :: mergeWith combine ((a, x) :: older) newer := by
  rw [mergeWith, if_neg greater.not_gt, if_pos greater]

theorem mergeWith_of_eq :
    mergeWith combine ((a, x) :: older) ((a, y) :: newer) =
      (a, combine a x y) :: mergeWith combine older newer := by
  rw [mergeWith, if_neg (lt_irrefl a), if_neg (lt_irrefl a)]

theorem length_mergeWith_le :
    (mergeWith combine older newer).length ≤ older.length + newer.length := by
  induction older, newer using mergeWith.induct with
  | case1 newer => simp
  | case2 older _ => simp
  | case3 a x older b y newer less induction =>
      rw [mergeWith_of_lt less, List.length_cons, List.length_cons]
      omega
  | case4 a x older b y newer _ greater induction =>
      rw [mergeWith_of_gt greater, List.length_cons]
      simp only [List.length_cons] at induction ⊢
      omega
  | case5 a x older b y newer not_less not_greater induction =>
      obtain rfl := le_antisymm (not_lt.mp not_greater) (not_lt.mp not_less)
      rw [mergeWith_of_eq, List.length_cons, List.length_cons, List.length_cons]
      omega

/-- A merge has exactly the keys of both lists. -/
theorem mem_keys_mergeWith :
    key ∈ (mergeWith combine older newer).map Prod.fst ↔
      key ∈ older.map Prod.fst ∨ key ∈ newer.map Prod.fst := by
  induction older, newer using mergeWith.induct with
  | case1 newer => simp
  | case2 older _ => simp
  | case3 a x older b y newer less induction =>
      rw [mergeWith_of_lt less, List.map_cons, List.mem_cons, induction]
      simp only [List.map_cons, List.mem_cons]
      tauto
  | case4 a x older b y newer _ greater induction =>
      rw [mergeWith_of_gt greater, List.map_cons, List.mem_cons, induction]
      simp only [List.map_cons, List.mem_cons]
      tauto
  | case5 a x older b y newer not_less not_greater induction =>
      obtain rfl := le_antisymm (not_lt.mp not_greater) (not_lt.mp not_less)
      rw [mergeWith_of_eq, List.map_cons, List.mem_cons, induction]
      simp only [List.map_cons, List.mem_cons]
      tauto

/-- The keys of a merge of sorted lists are sorted. -/
theorem sorted_mergeWith (older_sorted : (older.map Prod.fst).Pairwise (· < ·))
    (newer_sorted : (newer.map Prod.fst).Pairwise (· < ·)) :
    ((mergeWith combine older newer).map Prod.fst).Pairwise (· < ·) := by
  induction older, newer using mergeWith.induct with
  | case1 newer => simpa using newer_sorted
  | case2 older _ => simpa using older_sorted
  | case3 a x older b y newer less induction =>
      rw [List.map_cons, List.pairwise_cons] at older_sorted
      rw [mergeWith_of_lt less, List.map_cons, List.pairwise_cons]
      refine ⟨fun key member => ?_, induction older_sorted.2 newer_sorted⟩
      rcases Iff.mp mem_keys_mergeWith member with old | new
      · exact older_sorted.1 key old
      · rw [List.map_cons, List.pairwise_cons] at newer_sorted
        rcases List.mem_cons.mp new with rfl | later
        · exact less
        · exact less.trans (newer_sorted.1 key later)
  | case4 a x older b y newer _ greater induction =>
      rw [List.map_cons, List.pairwise_cons] at newer_sorted
      rw [mergeWith_of_gt greater, List.map_cons, List.pairwise_cons]
      refine ⟨fun key member => ?_, induction older_sorted newer_sorted.2⟩
      rcases Iff.mp mem_keys_mergeWith member with old | new
      · rw [List.map_cons, List.pairwise_cons] at older_sorted
        rcases List.mem_cons.mp old with rfl | later
        · exact greater
        · exact greater.trans (older_sorted.1 key later)
      · exact newer_sorted.1 key new
  | case5 a x older b y newer not_less not_greater induction =>
      obtain rfl := le_antisymm (not_lt.mp not_greater) (not_lt.mp not_less)
      rw [List.map_cons, List.pairwise_cons] at older_sorted newer_sorted
      rw [mergeWith_of_eq, List.map_cons, List.pairwise_cons]
      refine ⟨fun key member => ?_, induction older_sorted.2 newer_sorted.2⟩
      rcases Iff.mp mem_keys_mergeWith member with old | new
      · exact older_sorted.1 key old
      · exact newer_sorted.1 key new

@[simp]
theorem valueAt_nil : valueAt key ([] : List (κ × ν)) = none := rfl

theorem valueAt_cons_self : valueAt a ((a, x) :: older) = some x := by
  simp [valueAt]

theorem valueAt_cons_of_ne (ne : a ≠ key) : valueAt key ((a, x) :: older) = valueAt key older := by
  simp [valueAt, ne]

theorem valueAt_eq_none : valueAt key older = none ↔ key ∉ older.map Prod.fst := by
  simp only [valueAt, Option.map_eq_none_iff, List.find?_eq_none, List.mem_map, not_exists,
    decide_eq_true_eq, not_and]

theorem valueAt_of_forall_lt (above : ∀ other ∈ older.map Prod.fst, key < other) :
    valueAt key older = none :=
  Iff.mpr valueAt_eq_none fun member => lt_irrefl key (above key member)

/-- In a sorted list, the value of a key is what stands with it. -/
theorem valueAt_eq_some {value : ν} (sorted : (older.map Prod.fst).Pairwise (· < ·)) :
    valueAt key older = some value ↔ (key, value) ∈ older := by
  induction older with
  | nil => simp
  | cons entry older induction =>
      obtain ⟨a, x⟩ := entry
      rw [List.map_cons, List.pairwise_cons] at sorted
      by_cases same : a = key
      · subst same
        rw [valueAt_cons_self, Option.some_inj, List.mem_cons]
        constructor
        · rintro rfl
          exact .inl rfl
        · rintro (head | later)
          · exact (Prod.mk.inj head).2.symm
          · exact absurd (sorted.1 a (List.mem_map_of_mem later)) (lt_irrefl a)
      · rw [valueAt_cons_of_ne same, induction sorted.2, List.mem_cons]
        constructor
        · exact .inr
        · rintro (head | later)
          · exact absurd (Prod.mk.inj head).1.symm same
          · exact later

theorem valueAt_map {μ : Type*} (f : ν → μ) :
    valueAt key (older.map fun entry => (entry.1, f entry.2)) = (valueAt key older).map f := by
  induction older with
  | nil => rfl
  | cons entry older induction =>
      obtain ⟨a, x⟩ := entry
      rw [List.map_cons]
      by_cases same : a = key
      · subst same
        rw [valueAt_cons_self, valueAt_cons_self]
        rfl
      · rw [valueAt_cons_of_ne same, valueAt_cons_of_ne same, induction]

/-- What two lists give a key together. -/
def combineValues (combine : κ → ν → ν → ν) (key : κ) : Option ν → Option ν → Option ν
  | some x, some y => some (combine key x y)
  | some x, none => some x
  | none, y => y

/-- A merge gives a key what the two lists give it together. -/
theorem valueAt_mergeWith (older_sorted : (older.map Prod.fst).Pairwise (· < ·))
    (newer_sorted : (newer.map Prod.fst).Pairwise (· < ·)) :
    valueAt key (mergeWith combine older newer) =
      combineValues combine key (valueAt key older) (valueAt key newer) := by
  induction older, newer using mergeWith.induct with
  | case1 newer => cases value : valueAt key newer <;> simp [combineValues, value]
  | case2 older _ => cases value : valueAt key older <;> simp [combineValues, value]
  | case3 a x older b y newer less induction =>
      have rest := induction (List.Pairwise.of_cons older_sorted) newer_sorted
      rw [mergeWith_of_lt less]
      by_cases same : a = key
      · subst same
        have absent : valueAt a ((b, y) :: newer) = none := by
          apply valueAt_of_forall_lt
          intro other member
          rw [List.map_cons, List.pairwise_cons] at newer_sorted
          rcases List.mem_cons.mp member with rfl | later
          · exact less
          · exact less.trans (newer_sorted.1 other later)
        rw [valueAt_cons_self, valueAt_cons_self, absent]
        rfl
      · rw [valueAt_cons_of_ne same, valueAt_cons_of_ne same, rest]
  | case4 a x older b y newer _ greater induction =>
      have rest := induction older_sorted (List.Pairwise.of_cons newer_sorted)
      rw [mergeWith_of_gt greater]
      by_cases same : b = key
      · subst same
        have absent : valueAt b ((a, x) :: older) = none := by
          apply valueAt_of_forall_lt
          intro other member
          rw [List.map_cons, List.pairwise_cons] at older_sorted
          rcases List.mem_cons.mp member with rfl | later
          · exact greater
          · exact greater.trans (older_sorted.1 other later)
        rw [valueAt_cons_self, valueAt_cons_self, absent]
        rfl
      · rw [valueAt_cons_of_ne same, valueAt_cons_of_ne same, rest]
  | case5 a x older b y newer not_less not_greater induction =>
      obtain rfl := le_antisymm (not_lt.mp not_greater) (not_lt.mp not_less)
      have rest := induction (List.Pairwise.of_cons older_sorted)
        (List.Pairwise.of_cons newer_sorted)
      rw [mergeWith_of_eq]
      by_cases same : a = key
      · subst same
        rw [valueAt_cons_self, valueAt_cons_self, valueAt_cons_self]
        rfl
      · rw [valueAt_cons_of_ne same, valueAt_cons_of_ne same, valueAt_cons_of_ne same, rest]

end Everett

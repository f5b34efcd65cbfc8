import Everett.Library.SortedMerge

/-!
# Ordered tables

An ordered map is a list of entries with strictly increasing keys.  Assigning a key changes what the
table gives that key only; a table is determined by what it gives its keys, and a sum over its
entries changes with an assignment by what the key contributes.
-/

namespace Everett

variable {κ ν : Type*} [LinearOrder κ]

/-- Entries with strictly increasing keys. -/
def Ordered (table : List (κ × ν)) : Prop := (table.map Prod.fst).Pairwise (· < ·)

/-- Assign a key of an ordered table. -/
def assign (key : κ) (value : ν) : List (κ × ν) → List (κ × ν)
  | [] => [(key, value)]
  | (a, x) :: rest =>
      if key < a then (key, value) :: (a, x) :: rest
      else if a < key then (a, x) :: assign key value rest
      else (key, value) :: rest

/-- Assign a key unless the table holds it. -/
def emplace (key : κ) (value : ν) (table : List (κ × ν)) : List (κ × ν) :=
  if (valueAt key table).isSome then table else assign key value table

/-- Erase a key. -/
def erase (key : κ) (table : List (κ × ν)) : List (κ × ν) :=
  table.filter fun entry => entry.1 ≠ key

/-- Assign a key or erase it. -/
def put (key : κ) (value : Option ν) (table : List (κ × ν)) : List (κ × ν) :=
  match value with
  | some value => assign key value table
  | none => erase key table

/-- The entries of an ordered table which hold a value. -/
def present (table : List (κ × Option ν)) : List (κ × ν) :=
  table.filterMap fun entry => entry.2.map fun value => (entry.1, value)

variable {key a : κ} {value x : ν} {table rest : List (κ × ν)}

theorem ordered_nil : Ordered ([] : List (κ × ν)) := List.Pairwise.nil

theorem ordered_cons : Ordered ((a, x) :: rest) ↔
    (∀ other ∈ rest.map Prod.fst, a < other) ∧ Ordered rest := by
  rw [Ordered, List.map_cons, List.pairwise_cons]
  rfl

theorem mem_keys_assign {other : κ} : other ∈ (assign key value table).map Prod.fst ↔
    other = key ∨ other ∈ table.map Prod.fst := by
  induction table with
  | nil => simp [assign]
  | cons entry rest induction =>
      obtain ⟨a, x⟩ := entry
      rw [assign]
      split
      · simp
      · split
        · simp only [List.map_cons, List.mem_cons, induction]
          tauto
        · rename_i above below
          have same : a = key := le_antisymm (not_lt.mp above) (not_lt.mp below)
          simp [same]

theorem ordered_assign (ordered : Ordered table) : Ordered (assign key value table) := by
  induction table with
  | nil => simp [assign, Ordered]
  | cons entry rest induction =>
      obtain ⟨a, x⟩ := entry
      obtain ⟨first, later⟩ := Iff.mp ordered_cons ordered
      rw [assign]
      split
      · rename_i before
        refine Iff.mpr ordered_cons ⟨fun other member => ?_, ordered⟩
        rcases List.mem_cons.mp member with rfl | member
        · exact before
        · exact before.trans (first other member)
      · split
        · rename_i after
          refine Iff.mpr ordered_cons ⟨fun other member => ?_, induction later⟩
          rcases Iff.mp mem_keys_assign member with rfl | member
          · exact after
          · exact first other member
        · rename_i above below
          have same : a = key := le_antisymm (not_lt.mp above) (not_lt.mp below)
          exact Iff.mpr ordered_cons ⟨same ▸ first, later⟩

/-- An assignment changes what the table gives the assigned key only. -/
theorem valueAt_assign {other : κ} : valueAt other (assign key value table) =
    if other = key then some value else valueAt other table := by
  induction table with
  | nil =>
      rw [assign]
      split
      · rename_i same
        rw [same, valueAt_cons_self]
      · rename_i different
        rw [valueAt_cons_of_ne (Ne.symm different)]
  | cons entry rest induction =>
      obtain ⟨a, x⟩ := entry
      rw [assign]
      split
      · by_cases same : other = key
        · rw [if_pos same, same, valueAt_cons_self]
        · rw [if_neg same, valueAt_cons_of_ne (Ne.symm same)]
      · split
        · rename_i after
          by_cases head : a = other
          · subst head
            rw [if_neg after.ne, valueAt_cons_self, valueAt_cons_self]
          · rw [valueAt_cons_of_ne head, valueAt_cons_of_ne head, induction]
        · rename_i above below
          have at_key : a = key := le_antisymm (not_lt.mp above) (not_lt.mp below)
          by_cases same : other = key
          · rw [if_pos same, same, valueAt_cons_self]
          · rw [if_neg same, valueAt_cons_of_ne (Ne.symm same),
              valueAt_cons_of_ne (at_key ▸ Ne.symm same)]

/-! Tables around one of their entries. -/

section
variable {front back : List (κ × ν)}

theorem ordered_append_cons : Ordered (front ++ (a, x) :: back) ↔ Ordered front ∧ Ordered back ∧
    (∀ other ∈ front.map Prod.fst, other < a) ∧ ∀ other ∈ back.map Prod.fst, a < other := by
  rw [Ordered, List.map_append, List.map_cons, List.pairwise_append, List.pairwise_cons]
  constructor
  · rintro ⟨before, ⟨above, after⟩, across⟩
    exact ⟨before, after, fun other member => across other member a List.mem_cons_self, above⟩
  · rintro ⟨before, after, below, above⟩
    refine ⟨before, ⟨above, after⟩, fun other member later later_member => ?_⟩
    rcases List.mem_cons.mp later_member with rfl | deep
    · exact below other member
    · exact (below other member).trans (above later deep)

theorem valueAt_append_cons (ordered : Ordered (front ++ (a, x) :: back)) :
    valueAt key (front ++ (a, x) :: back) =
      if key < a then valueAt key front else if a < key then valueAt key back else some x := by
  obtain ⟨-, -, below, above⟩ := Iff.mp ordered_append_cons ordered
  induction front with
  | nil =>
      rw [List.nil_append]
      split_ifs with less more
      · rw [valueAt_cons_of_ne less.ne', valueAt_nil, valueAt_eq_none]
        exact fun member => (above key member).asymm less
      · rw [valueAt_cons_of_ne more.ne]
      · have same : a = key := le_antisymm (not_lt.mp less) (not_lt.mp more)
        rw [same, valueAt_cons_self]
  | cons entry front induction =>
      obtain ⟨b, y⟩ := entry
      have before : b < a := below b List.mem_cons_self
      have smaller := induction (Iff.mp ordered_cons ordered).2
        fun other member => below other (List.mem_cons_of_mem _ member)
      rw [List.cons_append]
      by_cases here : b = key
      · subst here
        rw [valueAt_cons_self, valueAt_cons_self, if_pos before]
      · rw [valueAt_cons_of_ne here, valueAt_cons_of_ne here, smaller]

theorem assign_append_of_lt (less : key < a) :
    assign key value (front ++ (a, x) :: back) = assign key value front ++ (a, x) :: back := by
  induction front with
  | nil => exact if_pos less
  | cons entry front induction =>
      obtain ⟨b, y⟩ := entry
      rw [List.cons_append, assign, assign, induction]
      split_ifs <;> rfl

theorem assign_append_of_gt (ordered : Ordered (front ++ (a, x) :: back)) (more : a < key) :
    assign key value (front ++ (a, x) :: back) = front ++ (a, x) :: assign key value back := by
  obtain ⟨-, -, below, -⟩ := Iff.mp ordered_append_cons ordered
  induction front with
  | nil => exact (if_neg more.asymm).trans (if_pos more)
  | cons entry front induction =>
      obtain ⟨b, y⟩ := entry
      have before : b < key := (below b List.mem_cons_self).trans more
      rw [List.cons_append, assign, if_neg before.asymm, if_pos before,
        induction (Iff.mp ordered_cons ordered).2
          fun other member => below other (List.mem_cons_of_mem _ member), List.cons_append]

theorem assign_append_self (ordered : Ordered (front ++ (a, x) :: back)) :
    assign a value (front ++ (a, x) :: back) = front ++ (a, value) :: back := by
  obtain ⟨-, -, below, -⟩ := Iff.mp ordered_append_cons ordered
  induction front with
  | nil => exact (if_neg (lt_irrefl a)).trans (if_neg (lt_irrefl a))
  | cons entry front induction =>
      obtain ⟨b, y⟩ := entry
      have before : b < a := below b List.mem_cons_self
      rw [List.cons_append, assign, if_neg before.asymm, if_pos before,
        induction (Iff.mp ordered_cons ordered).2
          fun other member => below other (List.mem_cons_of_mem _ member), List.cons_append]

theorem erase_of_not_mem (absent : key ∉ table.map Prod.fst) : erase key table = table := by
  refine List.filter_eq_self.mpr fun entry member => ?_
  rw [decide_eq_true_eq]
  rintro rfl
  exact absent (List.mem_map_of_mem member)

theorem erase_append_of_lt (ordered : Ordered (front ++ (a, x) :: back)) (less : key < a) :
    erase key (front ++ (a, x) :: back) = erase key front ++ (a, x) :: back := by
  obtain ⟨-, -, -, above⟩ := Iff.mp ordered_append_cons ordered
  have kept := @erase_of_not_mem _ _ _ key ((a, x) :: back) fun member =>
    (List.mem_cons.mp member).elim less.ne fun deep => (above key deep).asymm less
  rw [erase, List.filter_append]
  exact congrArg (erase key front ++ ·) kept

theorem erase_append_of_gt (ordered : Ordered (front ++ (a, x) :: back)) (more : a < key) :
    erase key (front ++ (a, x) :: back) = front ++ (a, x) :: erase key back := by
  obtain ⟨-, -, below, -⟩ := Iff.mp ordered_append_cons ordered
  have kept := @erase_of_not_mem _ _ _ key front fun member =>
    (below key member).asymm more
  rw [erase, List.filter_append, List.filter_cons_of_pos (by simpa using more.ne)]
  exact congrArg (· ++ (a, x) :: erase key back) kept

theorem erase_append_self (ordered : Ordered (front ++ (a, x) :: back)) :
    erase a (front ++ (a, x) :: back) = front ++ back := by
  obtain ⟨-, -, below, above⟩ := Iff.mp ordered_append_cons ordered
  have kept_front := @erase_of_not_mem _ _ _ a front fun member =>
    lt_irrefl a (below a member)
  have kept_back := @erase_of_not_mem _ _ _ a back fun member =>
    lt_irrefl a (above a member)
  rw [erase, List.filter_append, List.filter_cons_of_neg (by simp)]
  exact congrArg₂ (· ++ ·) kept_front kept_back

end

theorem valueAt_append {newer older : List (κ × ν)} :
    valueAt key (newer ++ older) = (valueAt key newer).or (valueAt key older) := by
  rw [valueAt, List.find?_append, Option.map_or]
  rfl

theorem length_assign (ordered : Ordered table) : (assign key value table).length =
    table.length + (valueAt key table).isNone.toNat := by
  induction table with
  | nil => rfl
  | cons entry rest induction =>
      obtain ⟨a, x⟩ := entry
      obtain ⟨above, later⟩ := Iff.mp ordered_cons ordered
      rw [assign]
      split_ifs with before after
      · have absent : valueAt key ((a, x) :: rest) = none := by
          rw [valueAt_eq_none]
          rintro (_ | member)
          · exact lt_irrefl _ before
          · next deep => exact (before.trans (above key deep)).false
        rw [absent]
        rfl
      · rw [valueAt_cons_of_ne after.ne, List.length_cons, induction later, List.length_cons]
        omega
      · have same : a = key := le_antisymm (not_lt.mp before) (not_lt.mp after)
        rw [same, valueAt_cons_self]
        rfl

theorem length_erase (ordered : Ordered table) : (erase key table).length =
    table.length - (valueAt key table).isSome.toNat := by
  cases found : valueAt key table with
  | none =>
      rw [erase_of_not_mem (Iff.mp valueAt_eq_none found)]
      rfl
  | some held =>
      obtain ⟨front, back, rfl⟩ := List.append_of_mem ((valueAt_eq_some ordered).mp found)
      rw [erase_append_self ordered, List.length_append, List.length_append, List.length_cons]
      rfl

theorem valueAt_emplace {other : κ} : valueAt other (emplace key value table) =
    (valueAt other table).or (if other = key then some value else none) := by
  unfold emplace
  cases held : valueAt key table with
  | none =>
      rw [Option.isSome_none, if_neg (by simp), valueAt_assign]
      split
      · rename_i same
        rw [same, held, Option.none_or]
      · rw [Option.or_none]
  | some found =>
      rw [Option.isSome_some, if_pos rfl]
      split
      · rename_i same
        rw [same, held, Option.some_or]
      · rw [Option.or_none]

/-- Ordered tables which give every key the same are equal. -/
theorem Ordered.ext {other : List (κ × ν)} (ordered : Ordered table) (other_ordered : Ordered other)
    (same : ∀ key, valueAt key table = valueAt key other) : table = other := by
  have nodup : ∀ {list : List (κ × ν)}, Ordered list → list.Nodup := fun sorted =>
    List.Nodup.of_map Prod.fst (sorted.imp ne_of_lt)
  have members : ∀ entry, entry ∈ table ↔ entry ∈ other := by
    rintro ⟨key, value⟩
    rw [← valueAt_eq_some ordered, ← valueAt_eq_some other_ordered, same]
  have perm := (List.perm_ext_iff_of_nodup (nodup ordered) (nodup other_ordered)).mpr members
  have apart : ∀ one two : κ × ν, one ∈ table → two ∈ other → one.1 < two.1 → two.1 < one.1 →
      one = two := fun one two _ _ before after => absurd after before.asymm
  exact perm.eq_of_pairwise apart (List.pairwise_map.mp ordered)
    (List.pairwise_map.mp other_ordered)

theorem ordered_erase (ordered : Ordered table) : Ordered (erase key table) :=
  List.pairwise_map.mpr ((List.pairwise_map.mp ordered).filter _)

/-- An erased key is absent, and nothing else changes. -/
theorem valueAt_erase {other : κ} (ordered : Ordered table) : valueAt other (erase key table) =
    if other = key then none else valueAt other table := by
  split
  · rename_i at_key
    rw [valueAt_eq_none]
    rintro member
    obtain ⟨entry, found, rfl⟩ := List.mem_map.mp member
    exact of_decide_eq_true (List.mem_filter.mp found).2 at_key
  · rename_i away
    refine Option.ext fun value => ?_
    rw [valueAt_eq_some (ordered_erase ordered), valueAt_eq_some ordered, erase, List.mem_filter]
    simp [away]

theorem ordered_put (ordered : Ordered table) (value : Option ν) :
    Ordered (put key value table) := by
  cases value with
  | none => exact ordered_erase ordered
  | some value => exact ordered_assign ordered

theorem valueAt_put {other : κ} (ordered : Ordered table) (value : Option ν) :
    valueAt other (put key value table) =
      if other = key then value else valueAt other table := by
  cases value with
  | none => exact valueAt_erase ordered
  | some value => exact valueAt_assign

section Total

variable {M : Type*} [AddCommMonoid M]

/-- Sum of what the entries of a table contribute. -/
def total (weight : κ → ν → M) (table : List (κ × ν)) : M :=
  (table.map fun entry => weight entry.1 entry.2).sum

/-- What an optional value of a key contributes. -/
def contribution (weight : κ → ν → M) (key : κ) (value : Option ν) : M :=
  (value.map (weight key)).getD 0

variable {weight : κ → ν → M}

omit [LinearOrder κ] in
@[simp]
theorem contribution_none : contribution weight key none = 0 := rfl

omit [LinearOrder κ] in
@[simp]
theorem contribution_some : contribution weight key (some value) = weight key value := rfl

/-- A sum over a table is what one key contributes and what the others do. -/
theorem total_eq_add (ordered : Ordered table) (key : κ) : total weight table =
    contribution weight key (valueAt key table) +
      total weight (erase key table) := by
  unfold erase
  induction table with
  | nil => simp [total, valueAt, contribution]
  | cons entry rest induction =>
      obtain ⟨a, x⟩ := entry
      obtain ⟨first, later⟩ := Iff.mp ordered_cons ordered
      by_cases same : a = key
      · subst same
        have others : (rest.filter fun entry => entry.1 ≠ a) = rest := by
          refine List.filter_eq_self.mpr fun entry member => ?_
          exact decide_eq_true (first entry.1 (List.mem_map_of_mem member)).ne'
        rw [valueAt_cons_self, contribution_some, List.filter_cons_of_neg (by simp), others]
        simp [total]
      · rw [valueAt_cons_of_ne same, List.filter_cons_of_pos (by simpa using same)]
        simp only [total, List.map_cons, List.sum_cons] at induction ⊢
        rw [induction later, add_left_comm]

/-- Tables which differ at one key have sums which differ by what it contributes. -/
theorem total_change (weight : κ → ν → M) {other : List (κ × ν)} (ordered : Ordered table)
    (other_ordered : Ordered other) (key : κ)
    (same : ∀ elsewhere ≠ key, valueAt elsewhere other = valueAt elsewhere table) :
    total weight other + contribution weight key (valueAt key table) =
      total weight table + contribution weight key (valueAt key other) := by
  have rest : erase key other = erase key table := by
    refine (ordered_erase other_ordered).ext (ordered_erase ordered) fun elsewhere => ?_
    rw [valueAt_erase other_ordered, valueAt_erase ordered]
    split
    · rfl
    · exact same elsewhere ‹_›
  rw [total_eq_add ordered key, total_eq_add other_ordered key, rest]
  abel

end Total

section Present

variable {options : List (κ × Option ν)}

theorem ordered_present (ordered : Ordered options) : Ordered (present options) := by
  have sublist : List.Sublist ((present options).map Prod.fst) (options.map Prod.fst) := by
    induction options with
    | nil => exact .slnil
    | cons entry options induction =>
        obtain ⟨a, value⟩ := entry
        have rest := induction (Iff.mp ordered_cons ordered).2
        cases value with
        | none => exact rest.cons a
        | some value => exact rest.cons_cons a
  exact ordered.sublist sublist

theorem valueAt_present (ordered : Ordered options) :
    valueAt key (present options) = (valueAt key options).join := by
  refine Option.ext fun value => ?_
  rw [valueAt_eq_some (ordered_present ordered), Option.join_eq_some_iff, valueAt_eq_some ordered,
    present, List.mem_filterMap]
  constructor
  · rintro ⟨⟨other, held⟩, member, matching⟩
    obtain ⟨found, rfl, same⟩ := Option.map_eq_some_iff.mp matching
    cases same
    exact member
  · exact fun member => ⟨(key, some value), member, rfl⟩

end Present

end Everett

import Mathlib.Data.Finmap
import Mathlib.Data.Finsupp.Single
import Mathlib.Tactic

/-!
# Tables of counted owners

A finite map from keys to owners with a positive number of references.  `Counts` relates it to the
number of references of every owner: at most one owner of each key is referenced.
-/

namespace Everett

/-- An owner with its references. -/
structure CountedEntry (V : Type) where
  value : V
  references : ℕ
  deriving DecidableEq

/-- A hash table, whose order is not observed. -/
abbrev CountedTable (K V : Type) := Finmap fun _ : K => CountedEntry V

namespace CountedTable

variable {K V α : Type} [DecidableEq K]

/-- Give up one reference; nothing is defined for a missing entry or a count of zero. -/
def release (key : K) (table : CountedTable K V) : Option (CountedTable K V) :=
  match table.lookup key with
  | none => none
  | some found =>
      match found.references with
      | 0 => none
      | 1 => some (table.erase key)
      | references + 2 => some (table.insert key ⟨found.value, references + 1⟩)

/-- The table holds the owners with references, at their keys. -/
def Counts (place : α → K × V) (table : CountedTable K V) (count : α →₀ ℕ) : Prop :=
  ∀ key value references, table.lookup key = some ⟨value, references⟩ ↔
    ∃ a, place a = (key, value) ∧ count a = references ∧ references ≠ 0

variable {place : α → K × V} {table : CountedTable K V} {count : α →₀ ℕ} {a b : α}

theorem counts_empty : Counts place (∅ : CountedTable K V) 0 := by
  intro key value references
  simp only [Finmap.lookup_empty, Finsupp.coe_zero, Pi.zero_apply, false_iff, reduceCtorEq]
  rintro ⟨a, -, rfl, positive⟩
  exact positive rfl

namespace Counts

theorem lookup (counts : Counts place table count) (live : count a ≠ 0) :
    table.lookup (place a).1 = some ⟨(place a).2, count a⟩ :=
  (counts _ _ _).mpr ⟨a, rfl, rfl, live⟩

/-- Owners with one key do not live together. -/
theorem eq_of_key (injective : Function.Injective place) (counts : Counts place table count)
    (first : count a ≠ 0) (second : count b ≠ 0) (key : (place a).1 = (place b).1) : a = b := by
  have one := counts.lookup first
  have two := counts.lookup second
  rw [← key, one, Option.some.injEq, CountedEntry.mk.injEq] at two
  exact injective (Prod.ext key two.1)

theorem find (counts : Counts place table count) {key : K} {found : CountedEntry V}
    (present : table.lookup key = some found) :
    ∃ a, place a = (key, found.value) ∧ count a = found.references ∧ found.references ≠ 0 :=
  (counts _ _ _).mp present

omit [DecidableEq K] in
/-- References of one owner do not matter at another key. -/
theorem exists_add_single {key : K} {value : V} {references : ℕ} (other : key ≠ (place a).1) :
    (∃ b, place b = (key, value) ∧ (count + .single a 1) b = references ∧ references ≠ 0) ↔
      ∃ b, place b = (key, value) ∧ count b = references ∧ references ≠ 0 := by
  refine exists_congr fun b => and_congr_right fun placed => ?_
  have apart : a ≠ b := by
    rintro rfl
    exact other (congrArg Prod.fst placed).symm
  rw [Finsupp.add_apply, Finsupp.single_eq_of_ne' apart, Nat.add_zero]

theorem unique {other : CountedTable K V} (counts : Counts place table count)
    (second : Counts place other count) : table = other := by
  refine Finmap.ext_lookup fun key => Option.ext fun found => ?_
  exact (counts key found.value found.references).trans
    (second key found.value found.references).symm

/-- The first reference of an owner, whose key is free. -/
theorem insert (counts : Counts place table count)
    (free : table.lookup (place a).1 = none) :
    Counts place (table.insert (place a).1 ⟨(place a).2, 1⟩) (count + .single a 1) := by
  have absent : count a = 0 := by
    by_contra live
    rw [counts.lookup live] at free
    cases free
  intro key value references
  by_cases own : key = (place a).1
  · subst own
    rw [Finmap.lookup_insert, Option.some.injEq, CountedEntry.mk.injEq]
    constructor
    · rintro ⟨rfl, rfl⟩
      exact ⟨a, rfl, by simp [absent], by decide⟩
    · rintro ⟨b, placed, rfl, positive⟩
      by_cases same : a = b
      · subst same
        exact ⟨congrArg Prod.snd placed, by simp [absent]⟩
      · rw [Finsupp.add_apply, Finsupp.single_eq_of_ne' same, Nat.add_zero] at positive
        have present := counts.lookup positive
        rw [placed] at present
        rw [present] at free
        cases free
  · rw [Finmap.lookup_insert_of_ne _ own, counts key value references, exists_add_single own]

/-- A further reference of a live owner. -/
theorem increment (injective : Function.Injective place) (counts : Counts place table count)
    (live : count a ≠ 0) :
    Counts place (table.insert (place a).1 ⟨(place a).2, count a + 1⟩)
      (count + .single a 1) := by
  intro key value references
  by_cases own : key = (place a).1
  · subst own
    rw [Finmap.lookup_insert, Option.some.injEq, CountedEntry.mk.injEq]
    constructor
    · rintro ⟨rfl, rfl⟩
      exact ⟨a, rfl, by simp, by omega⟩
    · rintro ⟨b, placed, rfl, positive⟩
      by_cases same : a = b
      · subst same
        exact ⟨congrArg Prod.snd placed, by simp⟩
      · rw [Finsupp.add_apply, Finsupp.single_eq_of_ne' same, Nat.add_zero] at positive
        exact absurd (counts.eq_of_key injective live positive
          (congrArg Prod.fst placed).symm) same
  · rw [Finmap.lookup_insert_of_ne _ own, counts key value references, exists_add_single own]

/-- Erasing an owner with one reference. -/
theorem erase (injective : Function.Injective place) (absent : count a = 0)
    (counts : Counts place table (count + .single a 1)) :
    Counts place (table.erase (place a).1) count := by
  intro key value references
  by_cases own : key = (place a).1
  · subst own
    rw [Finmap.lookup_erase]
    refine iff_of_false (by simp) ?_
    rintro ⟨b, placed, rfl, positive⟩
    have other : a ≠ b := by
      rintro rfl
      exact positive absent
    refine other (counts.eq_of_key injective (by simp) ?_ (congrArg Prod.fst placed).symm)
    rwa [Finsupp.add_apply, Finsupp.single_eq_of_ne' other, Nat.add_zero]
  · rw [Finmap.lookup_erase_ne own, counts key value references, exists_add_single own]

/-- A reference which is held can be released. -/
theorem release (injective : Function.Injective place)
    (counts : Counts place table (count + .single a 1)) :
    ∃ after, table.release (place a).1 = some after ∧ Counts place after count := by
  have present := counts.lookup (a := a) (by simp)
  have total : (count + .single a 1) a = count a + 1 := by simp
  rw [total] at present
  by_cases absent : count a = 0
  · refine ⟨table.erase (place a).1, ?_, counts.erase injective absent⟩
    simp [CountedTable.release, present, absent]
  · obtain ⟨less, equal⟩ := Nat.exists_eq_succ_of_ne_zero absent
    refine ⟨table.insert (place a).1 ⟨(place a).2, less + 1⟩, ?_, ?_⟩
    · simp [CountedTable.release, present, equal]
    · intro key value references
      by_cases own : key = (place a).1
      · subst own
        rw [Finmap.lookup_insert, Option.some.injEq, CountedEntry.mk.injEq]
        constructor
        · rintro ⟨rfl, rfl⟩
          exact ⟨a, rfl, equal, by omega⟩
        · rintro ⟨b, placed, rfl, positive⟩
          have same : a = b := counts.eq_of_key injective (by simp)
            (by rw [Finsupp.add_apply]; omega) (congrArg Prod.fst placed).symm
          subst same
          exact ⟨congrArg Prod.snd placed, by omega⟩
      · rw [Finmap.lookup_insert_of_ne _ own, counts key value references, exists_add_single own]

end Counts

end CountedTable

end Everett

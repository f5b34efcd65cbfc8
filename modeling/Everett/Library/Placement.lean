import Mathlib.Data.Fintype.Card
import Mathlib.Tactic

/-!
# Placing labels in cells

Finitely many cells hold the labels with some property, each label in exactly one cell; other cells
are vacant.  As long as there are fewer labels than cells, a vacant cell exists.
-/

namespace Everett

variable {κ : Type*} {n : Nat}

/-- Every label with a property stands in exactly one cell, and nothing else does. -/
structure Places (cells : Fin n → Option κ) (labels : κ → Prop) : Prop where
  sound : ∀ {cell label}, cells cell = some label → labels label
  complete : ∀ {label}, labels label → ∃ cell, cells cell = some label
  injective : ∀ {cell other label}, cells cell = some label → cells other = some label →
    cell = other

namespace Places

variable {cells : Fin n → Option κ} {labels labels' : κ → Prop} {cell : Fin n} {label : κ}

theorem empty (none_wanted : ∀ label, ¬ labels label) :
    Places (fun _ : Fin n => (none : Option κ)) labels :=
  ⟨fun placed => (Option.some_ne_none _ placed.symm).elim,
    fun member => (none_wanted _ member).elim,
    fun placed => (Option.some_ne_none _ placed.symm).elim⟩

/-- Fewer labels than cells leave a cell vacant. -/
theorem exists_vacant (places : Places cells labels) {bound : Finset κ}
    (bounded : ∀ label, labels label → label ∈ bound) (fewer : bound.card < n) :
    ∃ cell, cells cell = none := by
  by_contra full
  push Not at full
  choose label labelled using fun cell => Option.ne_none_iff_exists'.mp (full cell)
  have maps : ∀ cell ∈ (Finset.univ : Finset (Fin n)), label cell ∈ bound :=
    fun cell _ => bounded _ (places.sound (labelled cell))
  have distinct : ∀ cell ∈ (Finset.univ : Finset (Fin n)), ∀ other ∈ Finset.univ,
      label cell = label other → cell = other :=
    fun cell _ other _ same => places.injective (labelled cell) (same ▸ labelled other)
  have all := Finset.card_le_card_of_injOn label maps distinct
  rw [Finset.card_univ, Fintype.card_fin] at all
  omega

/-- Replacing what a cell holds. -/
theorem update (places : Places cells labels) (cell : Fin n) (new : Option κ)
    (fresh : ∀ label, new = some label → labels label → cells cell = some label)
    (wanted : ∀ label, labels' label ↔ new = some label ∨ labels label ∧ cells cell ≠ some label) :
    Places (Function.update cells cell new) labels' := by
  refine ⟨fun {other found} placed => ?_, fun {found} member => ?_,
    fun {one two found} first second => ?_⟩
  · rw [wanted]
    by_cases same : other = cell
    · subst same
      exact .inl (by rwa [Function.update_self] at placed)
    · rw [Function.update_of_ne same] at placed
      exact .inr ⟨places.sound placed, fun also => same (places.injective placed also)⟩
  · rcases (wanted found).mp member with placed | ⟨old, elsewhere⟩
    · exact ⟨cell, by rw [Function.update_self, placed]⟩
    · obtain ⟨other, placed⟩ := places.complete old
      refine ⟨other, ?_⟩
      rw [Function.update_of_ne, placed]
      rintro rfl
      exact elsewhere placed
  · by_cases same_one : one = cell <;> by_cases same_two : two = cell
    · rw [same_one, same_two]
    · subst same_one
      rw [Function.update_self] at first
      rw [Function.update_of_ne same_two] at second
      exact places.injective (fresh found first (places.sound second)) second
    · subst same_two
      rw [Function.update_self] at second
      rw [Function.update_of_ne same_one] at first
      exact places.injective first (fresh found second (places.sound first))
    · rw [Function.update_of_ne same_one] at first
      rw [Function.update_of_ne same_two] at second
      exact places.injective first second

/-- Keeping only the labels which are still wanted. -/
theorem filter (places : Places cells labels) (keep : κ → Bool)
    (wanted : ∀ label, labels' label ↔ labels label ∧ keep label = true) :
    Places (fun cell => (cells cell).filter keep) labels' := by
  refine ⟨fun {other found} placed => ?_, fun {found} member => ?_,
    fun {one two found} first second => ?_⟩
  · rw [Option.filter_eq_some_iff] at placed
    exact (wanted found).mpr ⟨places.sound placed.1, placed.2⟩
  · obtain ⟨old, kept⟩ := (wanted found).mp member
    obtain ⟨other, placed⟩ := places.complete old
    exact ⟨other, by simp [placed, kept]⟩
  · rw [Option.filter_eq_some_iff] at first second
    exact places.injective first.1 second.1

/-- The same cells hold labels with an equivalent property. -/
theorem congr (places : Places cells labels) (wanted : ∀ label, labels' label ↔ labels label) :
    Places cells labels' :=
  ⟨fun placed => (wanted _).mpr (places.sound placed),
    fun member => places.complete ((wanted _).mp member), places.injective⟩

end Places

end Everett

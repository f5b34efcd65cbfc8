import Everett.Redundant.Root

/-!
# Visibility

Marking what the root reaches and releasing the consumed slots which it no longer reaches brings
the slots up to date with the root: every level keeps its newest shown pair and what came later.
-/

namespace Everett

open Word Outcome

variable {P : StoragePolicy} {composition : Composition P}

/-- Ordinal of the newest object which the root reaches on a level. -/
def seen (received : Nat → Nat) : Nat → Nat
  | 0 => received 0
  | 1 => received 1
  | level + 1 + 1 => (seen received (level + 1) - 1) / 2

@[simp]
theorem seen_zero (received : Nat → Nat) : seen received 0 = received 0 := rfl

@[simp]
theorem seen_one (received : Nat → Nat) : seen received 1 = received 1 := rfl

theorem seen_next (received : Nat → Nat) (level : Nat) :
    seen received (level + 1 + 1) = (seen received (level + 1) - 1) / 2 := rfl

namespace History

variable {h : History P}

theorem seen_le_received (counts : h.Counts) (level : Nat) :
    seen h.received level ≤ h.received level ∧ h.received level ≤ seen h.received level + 1 := by
  induction level using seen.induct with
  | case1 => exact ⟨le_rfl, Nat.le_succ _⟩
  | case2 => exact ⟨le_rfl, Nat.le_succ _⟩
  | case3 level induction =>
      have lower := counts.lower (level + 1)
      have upper := counts.upper (level + 1)
      have next := seen_next h.received level
      change seen h.received (level + 1 + 1) ≤ h.received (level + 1 + 1) ∧
        h.received (level + 1 + 1) ≤ seen h.received (level + 1 + 1) + 1
      omega

theorem shown_le_seen (counts : h.Counts) (level : Nat) :
    h.shown level ≤ seen h.received level := by
  induction level using seen.induct with
  | case1 => exact counts.shown_le 0
  | case2 => exact counts.shown_le 1
  | case3 level induction =>
      have shown_next := counts.shown_next level
      have next := seen_next h.received level
      change h.shown (level + 1 + 1) ≤ seen h.received (level + 1 + 1)
      omega

theorem seen_succ_le (counts : h.Counts) (level : Nat) :
    2 * seen h.received (level + 1) ≤ seen h.received level := by
  cases level with
  | zero => exact counts.lower 0
  | succ level =>
      rw [seen_next]
      omega

/-- The history once everything which the root shows is marked, and the rest is released. -/
def refreshed (h : History P) : History P :=
  { h with
    shown := seen h.received
    cells := fun level position => (h.cells level position).filter fun
      | .object ordinal => decide (2 * seen h.received (level + 1) < ordinal)
      | _ => true }

theorem Counts.refreshed (counts : h.Counts) : h.refreshed.Counts where
  total := counts.total
  lower := counts.lower
  upper := counts.upper
  shown_le level := (seen_le_received counts level).1
  shown_ge level := (seen_le_received counts level).2
  shown_first := counts.lower 0
  shown_next _ := rfl
  calm := counts.calm

theorem current_refreshed : h.refreshed.Current := ⟨rfl, rfl⟩

section

variable {levels : Nat → RedundantLevel P} {height nextIdentity : Nat}
  (shape : h.Shape composition levels height nextIdentity)

include shape

/-- From level one on, the root reaches the newest shown pairs. -/
theorem Shape.chain_seen : h.Chain composition (seen h.received) 1 := by
  intro level above
  obtain ⟨below, rfl⟩ := Nat.exists_eq_succ_of_ne_zero (Nat.one_le_iff_ne_zero.mp above)
  exact ⟨rfl, shape.targetsDescribed (shown_le_seen shape.counts _)
    (seen_le_received shape.counts _).1⟩

/-- If level zero has active objects, the root reaches them first. -/
theorem Shape.chain_seen_zero (active : h.received 0 ≠ 2 * h.received 1) :
    h.Chain composition (seen h.received) 0 := by
  intro level above
  cases level with
  | zero =>
      have lower := shape.counts.lower 0
      have upper := shape.counts.upper 0
      have shown := shape.counts.shown_le 1
      simp only [Nat.zero_add] at *
      rw [seen_zero, seen_one]
      refine ⟨by omega, fun some_made => ⟨shape.described 0 _ ⟨by simp only [Nat.zero_add]; omega, by omega⟩,
          fun even => shape.described 0 _ ⟨by simp only [Nat.zero_add]; omega, le_rfl⟩⟩⟩
  | succ level => exact shape.chain_seen (level + 1) (by omega)

/-- What the root reaches stands in a slot of its level which is shown: a live object of the newest
shown pair, or the root carrier. -/
theorem Shape.mem_reachable {root : Routes P} (rooted : h.Rooted levels root)
    {object : RedundantObject P} : object ∈ Execution.reachable root ↔
      ∃ level position, ((levels level).slots position).object = some object ∧
        (h.cells level position = some .root ∨ ∃ ordinal,
          h.cells level position = some (.object ordinal) ∧
          2 * seen h.received (level + 1) < ordinal ∧ ordinal ≤ seen h.received level) := by
  have counts := shape.counts
  have placed : ∀ level ordinal, 2 * seen h.received (level + 1) < ordinal →
      ordinal ≤ seen h.received level → ∃ position,
      h.cells level position = some (.object ordinal) ∧
      ((levels level).slots position).object = some (h.made level ordinal) := by
    intro level ordinal above below
    have live : h.Live level ordinal :=
      ⟨lt_of_le_of_lt (Nat.mul_le_mul_left 2 (shown_le_seen counts (level + 1))) above,
        below.trans (seen_le_received counts level).1⟩
    obtain ⟨position, cell⟩ := @Places.complete _ _ _ _ (shape.places level) (.object ordinal) live
    have renders := shape.renders level position
    rw [cell] at renders
    exact ⟨position, cell, by rw [show (levels level).slots position = _ from renders]⟩
  have made : ∀ {level position ordinal}, h.cells level position = some (.object ordinal) →
      ((levels level).slots position).object = some object → object = h.made level ordinal := by
    intro level position ordinal cell held
    have renders := shape.renders level position
    rw [cell] at renders
    rw [show (levels level).slots position = _ from renders, Option.some_inj] at held
    exact held.symm
  unfold Rooted at rooted
  split at rooted
  · rename_i balanced
    have level_zero : ∀ ordinal, ¬ (2 * seen h.received 1 < ordinal ∧
        ordinal ≤ seen h.received 0) := by
      rintro ordinal ⟨above, below⟩
      rw [seen_one] at above
      rw [seen_zero] at below
      omega
    split at rooted
    · rename_i nothing
      have all_zero : ∀ level, seen h.received level = 0 := by
        intro level
        have fewer := counts.received_mul level
        rw [nothing, Nat.le_zero] at fewer
        have zero := (Nat.mul_eq_zero.mp fewer).resolve_left (Nat.two_pow_pos level).ne'
        have := (seen_le_received counts level).1
        omega
      rw [rooted]
      constructor
      · intro member
        cases member
      · rintro ⟨level, position, -, at_root | ⟨ordinal, -, above, below⟩⟩
        · exact absurd nothing ((shape.places level).sound at_root).2.2.1
        · rw [all_zero] at above below
          omega
    · obtain ⟨position, carrier, cell, held, rfl⟩ := rooted
      have renders := shape.renders 0 position
      rw [cell] at renders
      obtain ⟨shown_carrier, root_carrier, slot_eq⟩ := renders
      rw [slot_eq, Option.some_inj] at held
      subst held
      have reaches : Execution.reachable (⟨some shown_carrier, none⟩ : Routes P) =
          shown_carrier :: Execution.reachable (h.targets 1 (h.received 1)) := by
        simp only [Execution.reachable, RedundantObject.visitPointer_some,
          RedundantObject.visit_eq, root_carrier.next_eq, RedundantObject.visitPointer_none,
          List.append_nil]
      have deeper := @Chain.mem_reachable P _ h object _ _ shape.chain_seen
      rw [reaches, List.mem_cons, show h.received 1 = seen h.received 1 from rfl, deeper]
      constructor
      · rintro (rfl | ⟨level, above, ordinal, lower, upper, rfl⟩)
        · exact ⟨0, position, by rw [slot_eq], .inl cell⟩
        · obtain ⟨held_at, cell_at, held⟩ := placed level ordinal lower upper
          exact ⟨level, held_at, held, .inr ⟨ordinal, cell_at, lower, upper⟩⟩
      · rintro ⟨level, held_at, held, at_root | ⟨ordinal, cell_at, lower, upper⟩⟩
        · obtain ⟨rfl, -⟩ := (shape.places level).sound at_root
          have same := (shape.places 0).injective at_root cell
          rw [same, slot_eq, Option.some_inj] at held
          exact .inl held.symm
        · have positive : 1 ≤ level := by
            by_contra first
            obtain rfl : level = 0 := by omega
            exact level_zero ordinal ⟨lower, upper⟩
          exact .inr ⟨level, positive, ordinal, lower, upper, made cell_at held⟩
  · rename_i active
    have whole := @Chain.mem_reachable P _ h object _ _ (shape.chain_seen_zero active)
    rw [rooted, show h.received 0 = seen h.received 0 from rfl, whole]
    constructor
    · rintro ⟨level, -, ordinal, lower, upper, rfl⟩
      obtain ⟨held_at, cell_at, held⟩ := placed level ordinal lower upper
      exact ⟨level, held_at, held, .inr ⟨ordinal, cell_at, lower, upper⟩⟩
    · rintro ⟨level, held_at, held, at_root | ⟨ordinal, cell_at, lower, upper⟩⟩
      · exact absurd ((shape.places level).sound at_root).2.1 active
      · exact ⟨level, Nat.zero_le _, ordinal, lower, upper, made cell_at held⟩

/-- Pointers to objects in slots are told apart by their addresses. -/
theorem Shape.address_eq {level other_level : Nat} {position other_position : Fin 3}
    {object other : RedundantObject P}
    (held : ((levels level).slots position).object = some object)
    (other_held : ((levels other_level).slots other_position).object = some other)
    (same : object.address = other.address) : level = other_level ∧ position = other_position := by
  have identity := (shape.identities _ _ _ held).2.2
  have other_identity := (shape.identities _ _ _ other_held).2.2
  exact shape.distinct _ _ _ _ _ _ held other_held (by rw [← identity, same, other_identity])

/-- The root reaches no object twice. -/
theorem Shape.nodup_reachable {root : Routes P} (rooted : h.Rooted levels root) :
    (Execution.reachable root).Nodup := by
  have apart : ∀ {objects : List (RedundantObject P)},
      objects.Pairwise (fun one two => one.level ≠ two.level ∨ one.first ≠ two.first) →
      objects.Nodup := by
    intro objects pairwise
    refine pairwise.imp fun {one two} differ same => ?_
    subst same
    exact differ.elim (fun ne => ne rfl) fun ne => ne rfl
  unfold Rooted at rooted
  split at rooted
  · split at rooted
    · rw [rooted]
      exact List.nodup_nil
    · obtain ⟨position, carrier, cell, held, rfl⟩ := rooted
      have renders := shape.renders 0 position
      rw [cell] at renders
      obtain ⟨shown_carrier, root_carrier, slot_eq⟩ := renders
      rw [slot_eq, Option.some_inj] at held
      subst held
      have reaches : Execution.reachable (⟨some shown_carrier, none⟩ : Routes P) =
          shown_carrier :: Execution.reachable (h.targets 1 (h.received 1)) := by
        simp only [Execution.reachable, RedundantObject.visitPointer_some,
          RedundantObject.visit_eq, root_carrier.next_eq, RedundantObject.visitPointer_none,
          List.append_nil]
      rw [reaches, List.nodup_cons]
      refine ⟨fun member => ?_, apart shape.chain_seen.pairwise_reachable⟩
      obtain ⟨level, above, ordinal, lower, upper, is_made⟩ :=
        shape.chain_seen.mem_reachable.mp member
      have live : h.Live level ordinal :=
        ⟨lt_of_le_of_lt (Nat.mul_le_mul_left 2 (shown_le_seen shape.counts (level + 1))) lower,
          upper.trans (seen_le_received shape.counts level).1⟩
      have level_eq := (shape.described level ordinal live).level_eq
      rw [← is_made, root_carrier.level_eq] at level_eq
      omega
  · rename_i active
    rw [rooted]
    exact apart (shape.chain_seen_zero active).pairwise_reachable

end

end History

/-! ## Marking -/

namespace Execution

/-- A slot holds one of some objects. -/
def showsIn (levels : Nat → RedundantLevel P) (objects : List (RedundantObject P)) (level : Nat)
    (position : Fin 3) : Bool :=
  objects.any fun object => object.level = level &&
    ((levels level).slots position).object.map RedundantObject.address = some object.address

/-- Levels with the slots of some objects marked as visible. -/
def markedLevels (objects : List (RedundantObject P)) (levels : Nat → RedundantLevel P) :
    Nat → RedundantLevel P := fun level =>
  { levels level with
    slots := fun position =>
      let slot := (levels level).slots position
      { slot with everVisible := slot.everVisible || showsIn levels objects level position }
    lastDestinationVisible := (levels level).lastDestinationVisible || objects.any fun object =>
      object.level = level && (levels level).lastDestination = object.identity }

@[simp]
theorem markedLevels_nil (levels : Nat → RedundantLevel P) : markedLevels [] levels = levels := by
  funext level
  simp [markedLevels, showsIn]

theorem markedLevels_cons (object : RedundantObject P) (objects : List (RedundantObject P))
    (levels : Nat → RedundantLevel P) :
    markedLevels (object :: objects) levels = markedLevels objects (markedLevels [object] levels) := by
  funext level
  simp [markedLevels, showsIn, Bool.or_assoc]

/-- Objects of some levels, each in one slot of its own level. -/
def Standing (levels : Nat → RedundantLevel P) (height : Nat) (object : RedundantObject P)
    (position : Fin 3) : Prop :=
  object.level < height ∧ ∀ other,
    ((levels object.level).slots other).object.map RedundantObject.address =
      some object.address ↔ other = position

theorem holders_eq {e : Execution P} {object : RedundantObject P} {position : Fin 3}
    (standing : Standing e.levels e.height object position) : e.holders object = [position] := by
  have unique := standing.2
  have chosen : e.holders object = (List.finRange 3).filter fun other => other = position := by
    unfold holders
    refine List.filter_congr fun other _ => ?_
    exact decide_eq_decide.mpr (unique other)
  rw [chosen]
  clear unique chosen standing
  revert position
  decide

theorem mark_ok {e : Execution P} {visible : Finset (Nat × Fin 3)} {object : RedundantObject P}
    {position : Fin 3} (standing : Standing e.levels e.height object position)
    (fresh : (object.level, position) ∉ visible) :
    mark (e, visible) object = .ok ({ e with levels := markedLevels [object] e.levels },
      insert (object.level, position) visible) := by
  have held := holders_eq standing
  have unmarked : ∀ found ∈ e.holders object, (object.level, found) ∉ visible := by
    rw [held]
    simpa using fresh
  have some_holder : e.holders object ≠ [] := by simp [held]
  have levels_eq : Function.update e.levels object.level
      { e.levels object.level with
        slots := fun found =>
          if found ∈ e.holders object then
            { (e.levels object.level).slots found with everVisible := true }
          else (e.levels object.level).slots found
        lastDestinationVisible := (e.levels object.level).lastDestinationVisible ||
          (e.levels object.level).lastDestination = object.identity } =
      markedLevels [object] e.levels := by
    funext level
    by_cases same : level = object.level
    · subst same
      rw [Function.update_self, markedLevels]
      have slots_eq : (fun found : Fin 3 =>
          if found ∈ e.holders object then
            { (e.levels object.level).slots found with everVisible := true }
          else (e.levels object.level).slots found) = fun found =>
          { (e.levels object.level).slots found with
            everVisible := ((e.levels object.level).slots found).everVisible ||
              showsIn e.levels [object] object.level found } := by
        funext found
        simp only [held, List.mem_singleton]
        have shown := standing.2 found
        by_cases here : found = position
        · rw [if_pos here]
          have shows : showsIn e.levels [object] object.level found = true := by
            simp [showsIn, shown.mpr here]
          rw [shows, Bool.or_true]
        · rw [if_neg here]
          have hides : showsIn e.levels [object] object.level found = false := by
            have absent := mt shown.mp here
            simp only [showsIn, List.any_cons, List.any_nil, Bool.or_false, absent, decide_false,
              Bool.and_false]
          rw [hides, Bool.or_false]
      rw [slots_eq]
      simp
    · rw [Function.update_of_ne same, markedLevels]
      have other_level : ¬ object.level = level := fun equal => same equal.symm
      simp [showsIn, other_level]
  have visible_eq : visible ∪ ((e.holders object).map fun found =>
      (object.level, found)).toFinset = insert (object.level, position) visible := by
    rw [held]
    ext slot
    simp [or_comm]
  unfold mark
  simp only
  rw [require_true standing.1, ok_bind, require_true unmarked, ok_bind, require_true some_holder,
    ok_bind, levels_eq, visible_eq]

theorem Standing.marked {levels : Nat → RedundantLevel P} {height : Nat}
    {object other : RedundantObject P} {position : Fin 3}
    (standing : Standing levels height object position) :
    Standing (markedLevels [other] levels) height object position := standing

/-- Marking objects which stand in different slots succeeds. -/
theorem foldlM_mark_ok {objects : List (RedundantObject P)} {e : Execution P}
    {visible : Finset (Nat × Fin 3)} {place : RedundantObject P → Fin 3}
    (standing : ∀ object ∈ objects, Standing e.levels e.height object (place object))
    (fresh : ∀ object ∈ objects, (object.level, place object) ∉ visible)
    (apart : objects.Pairwise fun one two =>
      (one.level, place one) ≠ (two.level, place two)) :
    ∃ shown : Finset (Nat × Fin 3),
      objects.foldlM mark (e, visible) =
        .ok ({ e with levels := markedLevels objects e.levels }, shown) ∧
      ∀ slot, slot ∈ shown ↔ slot ∈ visible ∨
        ∃ object ∈ objects, slot = (object.level, place object) := by
  induction objects generalizing e visible with
  | nil =>
      refine ⟨visible, ?_, by simp⟩
      rw [List.foldlM_nil, markedLevels_nil]
      rfl
  | cons object objects induction =>
      rw [List.pairwise_cons] at apart
      have here := standing object List.mem_cons_self
      have marked := mark_ok here (fresh object List.mem_cons_self)
      obtain ⟨shown, rest, members⟩ := @induction
        { e with levels := markedLevels [object] e.levels }
        (insert (object.level, place object) visible)
        (fun other member => (standing other (List.mem_cons_of_mem _ member)).marked)
        (fun other member => by
          rw [Finset.mem_insert, not_or]
          exact ⟨(apart.1 other member).symm, fresh other (List.mem_cons_of_mem _ member)⟩)
        apart.2
      refine ⟨shown, ?_, fun slot => ?_⟩
      · rw [List.foldlM_cons, marked, ok_bind, rest]
        simp only [← markedLevels_cons]
      · rw [members, Finset.mem_insert]
        simp only [List.mem_cons, exists_eq_or_imp]
        tauto

end Execution

/-! ## Refreshing what is visible -/

namespace History

variable {h : History P}

/-- Uses of slots which the root reaches. -/
def Showing (h : History P) (level : Nat) (role : Option SlotRole) : Prop :=
  role = some .root ∨ ∃ ordinal, role = some (.object ordinal) ∧
    2 * seen h.received (level + 1) < ordinal ∧ ordinal ≤ seen h.received level

/-- The levels once everything reachable is marked and the rest is released. -/
def refreshedLevels (levels : Nat → RedundantLevel P) (objects : List (RedundantObject P))
    (visible : Finset (Nat × Fin 3)) : Nat → RedundantLevel P := fun level =>
  { Execution.markedLevels objects levels level with
    slots := fun position => Execution.release visible level position
      ((Execution.markedLevels objects levels level).slots position) }

@[simp]
theorem refreshedLevels_job (levels : Nat → RedundantLevel P)
    (objects : List (RedundantObject P)) (visible : Finset (Nat × Fin 3)) (level : Nat) :
    (refreshedLevels levels objects visible level).job = (levels level).job := rfl

@[simp]
theorem release_vacant (visible : Finset (Nat × Fin 3)) (level : Nat) (position : Fin 3)
    (shown : Bool) : Execution.release visible level position
      { RedundantSlot.vacant P with everVisible := shown } =
        { RedundantSlot.vacant P with everVisible := shown } := rfl

section

variable {e : Execution P} {height nextIdentity : Nat}

/-- A mark stands exactly on the slots which the root reaches. -/
theorem Shape.showsIn_iff (shape : h.Shape composition e.levels height nextIdentity)
    {root : Routes P} (rooted : h.Rooted e.levels root) (level : Nat) (position : Fin 3) :
    Execution.showsIn e.levels (Execution.reachable root) level position = true ↔
      h.Showing level (h.cells level position) := by
  rw [Execution.showsIn, List.any_eq_true]
  constructor
  · rintro ⟨object, member, matching⟩
    rw [Bool.and_eq_true, decide_eq_true_eq, decide_eq_true_eq] at matching
    obtain ⟨rfl, held⟩ := matching
    obtain ⟨found, held_eq, same⟩ := Option.map_eq_some_iff.mp held
    obtain ⟨other_level, other_position, other_held, showing⟩ :=
      (shape.mem_reachable rooted).mp member
    obtain ⟨rfl, rfl⟩ := shape.address_eq held_eq other_held same
    exact showing
  · intro showing
    have holds : ∃ object, ((e.levels level).slots position).object = some object ∧
        object.level = level := by
      have renders := shape.renders level position
      rcases showing with at_root | ⟨ordinal, placed, -, -⟩
      · rw [at_root] at renders
        obtain ⟨object, carrier, slot_eq⟩ := renders
        have first := ((shape.places level).sound at_root).1
        exact ⟨object, by rw [slot_eq], by rw [carrier.level_eq, first]⟩
      · exact ⟨_, shape.object_eq placed,
          (shape.described _ _ (shape.live_of_cells placed)).level_eq⟩
    obtain ⟨object, held, object_level⟩ := holds
    refine ⟨object, (shape.mem_reachable rooted).mpr ⟨level, position, held, showing⟩, ?_⟩
    simp [object_level, held]

/-- Everything reachable stands in one slot, which the history shows. -/
theorem Shape.standing (shape : h.Shape composition e.levels height nextIdentity)
    {root : Routes P} (rooted : h.Rooted e.levels root) {object : RedundantObject P}
    (member : object ∈ Execution.reachable root) : ∃ position,
      Execution.Standing e.levels height object position ∧
      ((e.levels object.level).slots position).object = some object := by
  obtain ⟨level, position, held, showing⟩ := (shape.mem_reachable rooted).mp member
  have object_level : object.level = level := by
    have renders := shape.renders level position
    rcases showing with at_root | ⟨ordinal, placed, -, -⟩
    · rw [at_root] at renders
      obtain ⟨carrier, root_carrier, slot_eq⟩ := renders
      rw [slot_eq, Option.some_inj] at held
      rw [← held, root_carrier.level_eq, ((shape.places level).sound at_root).1]
    · have found := shape.object_eq placed
      rw [held, Option.some_inj] at found
      rw [found]
      exact (shape.described _ _ (shape.live_of_cells placed)).level_eq
  subst object_level
  refine ⟨position, ⟨?_, fun other => ⟨fun other_held => ?_, ?_⟩⟩, held⟩
  · by_contra outside
    have fresh := (shape.beyond _ (Nat.not_lt.mp outside)).1
    rw [fresh] at held
    cases held
  · obtain ⟨found, held_eq, same⟩ := Option.map_eq_some_iff.mp other_held
    exact (shape.address_eq held_eq held same).2
  · rintro rfl
    rw [held, Option.map_some]

/-- Marking everything reachable yields the levels with the marks. -/
theorem Shape.marked_ok (shape : h.Shape composition e.levels e.height nextIdentity)
    (rooted : h.Rooted e.levels e.root) : ∃ shown : Finset (Nat × Fin 3),
      (Execution.reachable e.root).foldlM Execution.mark (e, ∅) =
        .ok ({ e with levels := Execution.markedLevels (Execution.reachable e.root) e.levels },
          shown) ∧
      ∀ level position, (level, position) ∈ shown ↔ h.Showing level (h.cells level position) := by
  have exists_place : ∀ object, ∃ position, object ∈ Execution.reachable e.root →
      Execution.Standing e.levels e.height object position ∧
      ((e.levels object.level).slots position).object = some object := by
    intro object
    by_cases member : object ∈ Execution.reachable e.root
    · obtain ⟨position, standing⟩ := shape.standing rooted member
      exact ⟨position, fun _ => standing⟩
    · exact ⟨0, fun found => absurd found member⟩
  choose place placed using exists_place
  have apart : (Execution.reachable e.root).Pairwise fun one two =>
      (one.level, place one) ≠ (two.level, place two) := by
    refine (shape.nodup_reachable rooted).imp_of_mem fun {one two} one_member two_member differ
      same => differ ?_
    obtain ⟨level_eq, place_eq⟩ := Prod.mk.inj same
    have one_held := (placed one one_member).2
    rw [level_eq, place_eq, (placed two two_member).2] at one_held
    exact (Option.some_inj.mp one_held).symm
  obtain ⟨shown, marked, members⟩ := @Execution.foldlM_mark_ok P _ _ ∅ _
    (fun object member => (placed object member).1) (fun object _ => Finset.notMem_empty _) apart
  refine ⟨shown, marked, fun level position => ?_⟩
  rw [members, ← shape.showsIn_iff rooted, Execution.showsIn, List.any_eq_true]
  constructor
  · rintro (none_before | ⟨object, member, here⟩)
    · exact absurd none_before (Finset.notMem_empty _)
    · obtain ⟨rfl, rfl⟩ := Prod.mk.inj here
      exact ⟨object, member, by simp [(placed object member).2]⟩
  · rintro ⟨object, member, matching⟩
    rw [Bool.and_eq_true, decide_eq_true_eq, decide_eq_true_eq] at matching
    obtain ⟨rfl, held⟩ := matching
    exact .inr ⟨object, member,
      Prod.ext rfl (((placed object member).1.2 position).mp held)⟩

/-- Uses which stay when the consumed objects out of sight are released. -/
theorem refreshed_cells_of_kept {level : Nat} {position : Fin 3} {role : SlotRole}
    (placed : h.cells level position = some role)
    (kept : ∀ ordinal, role = .object ordinal → 2 * seen h.received (level + 1) < ordinal) :
    h.refreshed.cells level position = some role := by
  rw [refreshed, Option.filter_eq_some_iff]
  refine ⟨placed, ?_⟩
  cases role with
  | object ordinal => exact decide_eq_true (kept ordinal rfl)
  | _ => rfl

section

variable {objects : List (RedundantObject P)} {visible : Finset (Nat × Fin 3)}
  (shape : h.Shape composition e.levels height nextIdentity)
  (behind : 2 * h.received 1 ≤ h.shown 0)
  (marks : ∀ level position, Execution.showsIn e.levels objects level position = true ↔
    h.Showing level (h.cells level position))
  (members : ∀ level position,
    (level, position) ∈ visible ↔ h.Showing level (h.cells level position))

include shape behind marks members

/-- Every slot serves its use in the refreshed history. -/
theorem Shape.renders_refreshed (level : Nat) (position : Fin 3) :
    h.refreshed.Renders (refreshedLevels e.levels objects visible) level
      (h.refreshed.cells level position)
      ((refreshedLevels e.levels objects visible level).slots position) := by
  have counts := shape.counts
  have renders := shape.renders level position
  have mark := marks level position
  have member := members level position
  have slot_eq : (refreshedLevels e.levels objects visible level).slots position =
      Execution.release visible level position { (e.levels level).slots position with
        everVisible := ((e.levels level).slots position).everVisible ||
          Execution.showsIn e.levels objects level position } := rfl
  rw [slot_eq]
  generalize Execution.showsIn e.levels objects level position = shown at mark
  generalize (e.levels level).slots position = slot at renders
  cases cell : h.cells level position with
  | none =>
      rw [cell] at renders mark
      have hidden : shown = false := by
        rw [← Bool.not_eq_true, mark]
        rintro (impossible | ⟨_, impossible, -⟩) <;> cases impossible
      rw [show h.refreshed.cells level position = none by simp [refreshed, cell],
        show slot = .vacant P from renders, hidden]
      rfl
  | some role =>
      rw [cell] at renders mark member
      cases role with
      | object ordinal =>
          have live : h.Live level ordinal := shape.live_of_cells cell
          have showing : h.Showing level (some (.object ordinal)) ↔
              2 * seen h.received (level + 1) < ordinal ∧ ordinal ≤ seen h.received level := by
            simp [Showing]
          rw [showing] at mark member
          rw [show slot = _ from renders]
          have upper := (seen_le_received counts (level + 1)).1
          have seen_le := (seen_le_received counts level).1
          have fresh := shown_le_seen counts level
          have shown_ge := counts.shown_ge level
          by_cases kept : 2 * seen h.received (level + 1) < ordinal
          · have flag : (decide (ordinal ≤ h.shown level) || shown) =
                decide (ordinal ≤ seen h.received level) := by
              rw [Bool.eq_iff_iff, Bool.or_eq_true, mark, decide_eq_true_eq, decide_eq_true_eq]
              omega
            rw [refreshed_cells_of_kept cell (by rintro _ ⟨⟩; exact kept), flag]
            have stays : ¬ (decide (ordinal ≤ seen h.received level) = true ∧
                (level, position) ∉ visible) := by
              rw [member, decide_eq_true_eq]
              exact fun ⟨below, hidden⟩ => hidden ⟨kept, below⟩
            exact if_neg fun gone => stays gone.2
          · have dropped : h.refreshed.cells level position = none := by
              simp [refreshed, cell, kept]
            have consumed : ordinal ≤ 2 * h.received (level + 1) := by omega
            have was_shown : ordinal ≤ h.shown level := by
              cases level with
              | zero =>
                  rw [Nat.zero_add, seen_one] at kept
                  omega
              | succ below =>
                  have next := seen_next h.received below
                  have some_live := live.1
                  change ¬ 2 * seen h.received (below + 1 + 1) < ordinal at kept
                  omega
            rw [dropped]
            refine if_pos ⟨if_pos consumed, by simp [was_shown], ?_⟩
            rw [member]
            exact fun showing => kept showing.1
      | building =>
          have hidden : shown = false := by
            rw [← Bool.not_eq_true, mark]
            rintro (impossible | ⟨_, impossible, -⟩) <;> cases impossible
          rw [refreshed_cells_of_kept cell (by rintro _ ⟨⟩), show slot = _ from renders, hidden]
          rfl
      | reserved =>
          have hidden : shown = false := by
            rw [← Bool.not_eq_true, mark]
            rintro (impossible | ⟨_, impossible, -⟩) <;> cases impossible
          obtain ⟨below, recipe, carrier, level_eq, job, slot_reserved⟩ := renders
          rw [refreshed_cells_of_kept cell (by rintro _ ⟨⟩), slot_reserved, hidden]
          exact ⟨below, recipe, carrier, level_eq, job, rfl⟩
      | ready =>
          have hidden : shown = false := by
            rw [← Bool.not_eq_true, mark]
            rintro (impossible | ⟨_, impossible, -⟩) <;> cases impossible
          obtain ⟨carrier, carries, slot_ready⟩ := renders
          rw [refreshed_cells_of_kept cell (by rintro _ ⟨⟩), slot_ready, hidden]
          exact ⟨carrier, carries, rfl⟩
      | root =>
          have visible_root : shown = true := mark.mpr (.inl rfl)
          obtain ⟨object, carrier, slot_root⟩ := renders
          rw [refreshed_cells_of_kept cell (by rintro _ ⟨⟩), slot_root, visible_root,
            Bool.or_true]
          refine ⟨object, ⟨carrier.level_eq, carrier.first_eq, carrier.last_eq, carrier.next_eq,
            carrier.size_eq, carrier.assembles⟩, ?_⟩
          have flag : decide (h.refreshed.received 1 ≤ h.refreshed.shown 1) = true :=
            decide_eq_true le_rfl
          rw [flag]
          rfl

/-- The refreshed levels are what the refreshed history demands. -/
theorem Shape.refreshed
    (targets : ∀ object ∈ objects, ∃ position,
      Execution.Standing e.levels height object position ∧
      ((e.levels object.level).slots position).object = some object) :
    h.refreshed.Shape composition (refreshedLevels e.levels objects visible) height
      nextIdentity := by
  have counts := shape.counts
  have live_of : ∀ {level ordinal}, h.refreshed.Live level ordinal ↔
      h.Live level ordinal ∧ 2 * seen h.received (level + 1) < ordinal := by
    intro level ordinal
    have later := shown_le_seen counts (level + 1)
    have same : h.refreshed.Live level ordinal ↔
        2 * seen h.received (level + 1) < ordinal ∧ ordinal ≤ h.received level := Iff.rfl
    have before : h.Live level ordinal ↔
        2 * h.shown (level + 1) < ordinal ∧ ordinal ≤ h.received level := Iff.rfl
    rw [same, before]
    omega
  have described_congr : ∀ {level ordinal object},
      h.Describes composition level ordinal object →
      h.refreshed.Describes composition level ordinal object :=
    fun described => described.congr rfl fun _ => rfl
  have held_before : ∀ {level position object},
      ((refreshedLevels e.levels objects visible level).slots position).object = some object →
      ((e.levels level).slots position).object = some object := by
    intro level position object held
    change (Execution.release visible level position _).object = some object at held
    unfold Execution.release at held
    split at held
    · cases held
    · exact held
  refine {
    counts := counts.refreshed
    valid := shape.valid
    height_pos := shape.height_pos
    height_le := shape.height_le
    beyond := ?_
    places := ?_
    renders := shape.renders_refreshed behind marks members
    described := fun level ordinal live =>
      described_congr (shape.described level ordinal (live_of.mp live).1)
    jobs := ?_
    identities := fun level position object held =>
      shape.identities level position object (held_before held)
    distinct := fun level position object other_level other_position other held other_held =>
      shape.distinct level position object other_level other_position other (held_before held)
        (held_before other_held)
    destinations := ?_ }
  · intro level above
    obtain ⟨fresh, none_received⟩ := shape.beyond level above
    refine ⟨?_, none_received⟩
    have elsewhere : ∀ object ∈ objects, object.level ≠ level := by
      intro object member same
      obtain ⟨position, standing, -⟩ := targets object member
      have := standing.1
      omega
    have nothing : (objects.any fun object => decide (object.level = level) &&
        decide ((e.levels level).lastDestination = object.identity)) = false := by
      rw [List.any_eq_false]
      intro object member
      simp [elsewhere object member]
    have unseen : ∀ position, Execution.showsIn e.levels objects level position = false := by
      intro position
      rw [Execution.showsIn, List.any_eq_false]
      intro object member
      simp [elsewhere object member]
    rw [fresh] at nothing
    simp only [refreshedLevels, Execution.markedLevels, unseen, Bool.or_false, fresh, nothing]
    rfl
  · intro level
    refine (shape.places level).filter _ fun role => ?_
    cases role with
    | object ordinal =>
        rw [decide_eq_true_eq]
        exact live_of
    | _ => simp [Wanted, History.refreshed]
  · intro level recipe job
    obtain ⟨full, below_next, inputs, destination, carrierSlot, newMain, destinationRoute,
      existingMain, stage⟩ := shape.jobs level recipe job
    refine ⟨full, below_next, fun newer => ?_, refreshed_cells_of_kept destination (by rintro _ ⟨⟩),
      refreshed_cells_of_kept carrierSlot (by rintro _ ⟨⟩), newMain, destinationRoute,
      existingMain, ?_⟩
    · refine refreshed_cells_of_kept (inputs newer) ?_
      rintro ordinal ⟨⟩
      have upper := (seen_le_received counts (level + 1)).1
      change 2 * seen h.received (level + 1) < 2 * h.received (level + 1) + 1 + newer.toNat
      omega
    · unfold Stage at stage ⊢
      cases recipe_stage : recipe.stage with
      | nativeMerge =>
          rw [recipe_stage] at stage
          exact stage
      | destinationIndex =>
          rw [recipe_stage] at stage
          exact stage
      | carrierIndex =>
          rw [recipe_stage] at stage
          exact ⟨stage.1, stage.2.1, described_congr stage.2.2.1, stage.2.2.2⟩
      | commit =>
          rw [recipe_stage] at stage
          exact ⟨⟨stage.1.1, described_congr stage.1.2.1, stage.1.2.2⟩, stage.2⟩
  · intro level
    rcases shape.destinations level with none_delivered | ⟨above, some_received, identity, flag⟩
    · exact .inl none_delivered
    · refine .inr ⟨above, some_received, identity, ?_⟩
      obtain ⟨below, rfl⟩ := Nat.exists_eq_add_one_of_ne_zero above
      have next := seen_next h.received below
      have later := shown_le_seen counts (below + 1 + 1)
      have seen_le := (seen_le_received counts (below + 1)).1
      have fresh := shown_le_seen counts (below + 1)
      obtain ⟨position, cell⟩ := @Places.complete _ _ _ _ (shape.places (below + 1))
        (.object (h.received (below + 1)))
        (show h.Live (below + 1) (h.received (below + 1)) from
          ⟨by omega, le_rfl⟩)
      have held := shape.object_eq cell
      have showing : (objects.any fun object => decide (object.level = below + 1) &&
          decide ((e.levels (below + 1)).lastDestination = object.identity)) = true ↔
          h.received (below + 1) ≤ seen h.received (below + 1) := by
        rw [List.any_eq_true]
        constructor
        · rintro ⟨object, member, matching⟩
          rw [Bool.and_eq_true, decide_eq_true_eq, decide_eq_true_eq] at matching
          obtain ⟨level_eq, same⟩ := matching
          obtain ⟨other, standing, other_held⟩ := targets object member
          rw [level_eq] at other_held
          obtain ⟨-, rfl⟩ := shape.distinct _ _ _ _ _ _ held other_held (identity ▸ same)
          have shows : Execution.showsIn e.levels objects (below + 1) position = true := by
            rw [Execution.showsIn, List.any_eq_true]
            exact ⟨object, member, by simp [level_eq, other_held]⟩
          rw [marks, cell] at shows
          rcases shows with impossible | ⟨ordinal, same_role, -, within⟩
          · cases impossible
          · cases same_role
            exact within
        · intro within
          have shows : Execution.showsIn e.levels objects (below + 1) position = true := by
            rw [marks, cell]
            refine .inr ⟨_, rfl, ?_, within⟩
            omega
          rw [Execution.showsIn, List.any_eq_true] at shows
          obtain ⟨object, member, matching⟩ := shows
          rw [Bool.and_eq_true, decide_eq_true_eq, decide_eq_true_eq] at matching
          obtain ⟨level_eq, same_address⟩ := matching
          obtain ⟨other, standing, other_held⟩ := targets object member
          rw [level_eq] at other_held
          rw [held, Option.map_some, Option.some_inj] at same_address
          obtain ⟨-, rfl⟩ := shape.address_eq held other_held same_address
          rw [held, Option.some_inj] at other_held
          exact ⟨object, member, by simp [level_eq, identity, other_held]⟩
      change ((e.levels (below + 1)).lastDestinationVisible || _) =
        decide (h.received (below + 1) ≤ seen h.received (below + 1))
      rw [flag, Bool.eq_iff_iff, Bool.or_eq_true, showing, decide_eq_true_eq, decide_eq_true_eq]
      omega

end

/-- The root stays what it is. -/
theorem Shape.rooted_refreshed (shape : h.Shape composition e.levels height nextIdentity)
    {root : Routes P} (rooted : h.Rooted e.levels root) {objects : List (RedundantObject P)}
    {visible : Finset (Nat × Fin 3)} :
    h.refreshed.Rooted (refreshedLevels e.levels objects visible) root := by
  unfold Rooted at rooted ⊢
  change if h.received 0 = 2 * h.received 1 then _ else root = h.targets 0 (h.received 0)
  split
  · rename_i balanced
    rw [if_pos balanced] at rooted
    change if h.received 0 = 0 then _ else _
    split
    · rename_i nothing
      rwa [if_pos nothing] at rooted
    · rename_i something
      rw [if_neg something] at rooted
      obtain ⟨position, object, cell, held, root_eq⟩ := rooted
      refine ⟨position, object, refreshed_cells_of_kept cell (by rintro _ ⟨⟩), ?_, root_eq⟩
      have renders := shape.renders 0 position
      rw [cell] at renders
      obtain ⟨carrier, -, slot_eq⟩ := renders
      change (Execution.release visible 0 position _).object = some object
      rw [Execution.release, if_neg]
      · exact held
      · rintro ⟨consumed, -⟩
        change ((e.levels 0).slots position).state = .consumed at consumed
        rw [slot_eq] at consumed
        cases consumed
  · rename_i active
    rwa [if_neg active] at rooted

/-- What stands at the root is small, and built where it has an index. -/
theorem Shape.root_built (shape : h.Shape composition e.levels height nextIdentity)
    {root : Routes P} (rooted : h.Rooted e.levels root) :
    MainPointer.Built root.mainPair ∧ (root.main ≠ none → root.mainPair ≠ []) ∧
      (root.main = none → root = .none) ∧ MainPointer.virtualSize root.mainPair ≤ 7 ∧
      ∀ leaf, root.secondaryNative = some leaf → leaf.value.size ≤ 1 := by
  unfold Rooted at rooted
  split at rooted
  · split at rooted
    · subst rooted
      exact ⟨.null, fun some_main => absurd rfl some_main, fun _ => rfl, Nat.zero_le _,
        fun leaf impossible => by cases impossible⟩
    · obtain ⟨position, object, cell, held, rfl⟩ := rooted
      have renders := shape.renders 0 position
      rw [cell] at renders
      obtain ⟨carrier, root_carrier, slot_eq⟩ := renders
      rw [slot_eq, Option.some_inj] at held
      subst held
      have assembles := root_carrier.assembles
      have extent := (shape.targetsDescribed (shape.counts.shown_le 1) le_rfl).extent_le
        carrier.native
      rw [← root_carrier.next_eq, ← assembles.virtualSize_eq, root_carrier.size_eq] at extent
      exact ⟨assembles.built, fun _ => assembles.ne_nil, fun none_main => (by cases none_main),
        by change MainPointer.virtualSize carrier.pair ≤ 7; omega,
        fun leaf impossible => by cases impossible⟩
  · rename_i active
    subst rooted
    have described := (shape.chain_seen_zero active 0 le_rfl).2
    rw [seen_zero] at described
    have some_made : h.received 0 ≠ 0 := by
      have lower : 2 * h.received 1 ≤ h.received 0 := shape.counts.lower 0
      omega
    refine ⟨described.main_built, fun _ => ?_, fun none_main => ?_, described.main_le,
      fun leaf secondary => described.secondary_le secondary⟩
    · rw [targets_of_ne_zero some_made]
      exact ((described some_made).1.main (by omega)).2.1.ne_nil
    · rw [targets_of_ne_zero some_made] at none_main
      cases none_main

/-- Refreshing what is visible brings the executor up to date with its root. -/
theorem Shape.visibility_ok (shape : h.Shape composition e.levels e.height e.nextIdentity)
    (rooted : h.Rooted e.levels e.root) (behind : 2 * h.received 1 ≤ h.shown 0)
    (bare : e.emptyNative.value.size = 0)
    (empty_pair : ∃ native, native.value.size = 0 ∧ e.emptyPair.Assembles native [] none) :
    ∃ levels allocated query, e.visibility =
        .ok { e with levels, allocated, query, changed := true } ∧
      h.refreshed.Shape composition levels e.height e.nextIdentity ∧
      h.refreshed.Rooted levels e.root ∧ Prepared query e.root ∧
      ∀ level, (levels level).job = (e.levels level).job := by
  obtain ⟨shown, marked, members⟩ := shape.marked_ok rooted
  have released : Execution.releaseSlots { e with
      levels := Execution.markedLevels (Execution.reachable e.root) e.levels } shown =
      { e with levels := refreshedLevels e.levels (Execution.reachable e.root) shown } := by
    rw [Execution.releaseSlots]
    congr 1
    funext level
    by_cases within : level < e.height
    · exact if_pos within
    · have fresh := (shape.beyond level (Nat.not_lt.mp within)).1
      have vacant : ∀ position, ((e.levels level).slots position) = .vacant P := by
        simp [fresh, RedundantLevel.fresh]
      refine (if_neg within).trans ?_
      have kept : ∀ position, Execution.release shown level position
          ((Execution.markedLevels (Execution.reachable e.root) e.levels level).slots position) =
          (Execution.markedLevels (Execution.reachable e.root) e.levels level).slots position := by
        intro position
        refine if_neg fun gone => ?_
        have state := gone.1
        change ((e.levels level).slots position).state = .consumed at state
        rw [vacant] at state
        cases state
      rw [refreshedLevels]
      simp only [kept]
  obtain ⟨built, indexed, bare_root, small, leaf_small⟩ := shape.root_built rooted
  have fits : e.root.mainPair.virtualSize + secondaryCount P e.root.secondaryNative ≤
      maximum64 := by
    have count : secondaryCount P e.root.secondaryNative ≤ 1 := by
      cases leaf : e.root.secondaryNative with
      | none => exact Nat.zero_le _
      | some leaf_native =>
          exact (ceilDiv_le_self P.groupSize_pos).trans (leaf_small _ leaf)
    have : 8 ≤ maximum64 := by decide
    omega
  obtain ⟨allocated, query, prepare, prepared⟩ := Execution.prepareRoot_ok
    (e := { e with levels := refreshedLevels e.levels (Execution.reachable e.root) shown })
    bare empty_pair built indexed bare_root fits
  refine ⟨_, allocated, query, ?_, shape.refreshed behind (shape.showsIn_iff rooted) members
    fun object member => shape.standing rooted member, shape.rooted_refreshed rooted, prepared,
    fun level => refreshedLevels_job ..⟩
  rw [Execution.visibility, marked, ok_bind]
  simp only [released]
  rw [prepare, ok_bind]
  simp only
  rw [prepared.adopt_ok, ok_bind]

end

end History

end Everett

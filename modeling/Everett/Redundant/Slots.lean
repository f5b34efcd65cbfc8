import Everett.Redundant.Objects

/-!
# Finding slots

The slots of a level serve the uses which the history demands, so a search for a state finds exactly
the slots of the corresponding use.
-/

namespace Everett

open Word Outcome

variable {P : StoragePolicy} {composition : Composition P}

namespace History

variable {h : History P} {levels : Nat → RedundantLevel P} {level : Nat}

/-- State of a slot which serves a use. -/
def roleState (h : History P) (level : Nat) : Option SlotRole → RedundantSlotState
  | none => .empty
  | some (.object ordinal) => if ordinal ≤ 2 * h.received (level + 1) then .consumed else .active
  | some .building => .carrierBuilding
  | some .reserved => .reserved
  | some .ready => .carrierReady
  | some .root => .rootCarrier

theorem Renders.state_eq {role : Option SlotRole} {slot : RedundantSlot P}
    (renders : h.Renders levels level role slot) : slot.state = h.roleState level role := by
  cases role with
  | none => rw [show slot = .vacant P from renders]; rfl
  | some role =>
      cases role with
      | object ordinal =>
          rw [show slot = _ from renders]
          rfl
      | building => rw [show slot = _ from renders]; rfl
      | reserved =>
          obtain ⟨_, _, _, -, -, rfl⟩ := renders
          rfl
      | ready =>
          obtain ⟨_, -, rfl⟩ := renders
          rfl
      | root =>
          obtain ⟨_, -, rfl⟩ := renders
          rfl

theorem roleState_active {role : Option SlotRole} : h.roleState level role = .active ↔
    ∃ ordinal, role = some (.object ordinal) ∧ 2 * h.received (level + 1) < ordinal := by
  cases role with
  | none => simp [roleState]
  | some role =>
      cases role <;> simp [roleState]

theorem roleState_empty {role : Option SlotRole} :
    h.roleState level role = .empty ↔ role = none := by
  cases role with
  | none => simp [roleState]
  | some role =>
      cases role <;> simp [roleState]
      split <;> simp_all

theorem roleState_ready {role : Option SlotRole} :
    h.roleState level role = .carrierReady ↔ role = some .ready := by
  cases role with
  | none => simp [roleState]
  | some role =>
      cases role <;> simp [roleState]
      split <;> simp_all

theorem roleState_root {role : Option SlotRole} :
    h.roleState level role = .rootCarrier ↔ role = some .root := by
  cases role with
  | none => simp [roleState]
  | some role =>
      cases role <;> simp [roleState]
      split <;> simp_all

theorem roleState_consumed {role : Option SlotRole} : h.roleState level role = .consumed ↔
    ∃ ordinal, role = some (.object ordinal) ∧ ordinal ≤ 2 * h.received (level + 1) := by
  cases role with
  | none => simp [roleState]
  | some role =>
      cases role <;> simp [roleState]

end History

namespace Execution

variable {e : Execution P} {level : Nat} {state : RedundantSlotState}

theorem mem_positions {position : Fin 3} : position ∈ e.positions level state ↔
    ((e.levels level).slots position).state = state := by
  fin_cases position <;> simp [positions]

theorem positions_eq_nil (absent : ∀ position, ((e.levels level).slots position).state ≠ state) :
    e.positions level state = [] :=
  List.eq_nil_iff_forall_not_mem.mpr fun position member =>
    absent position (Iff.mp mem_positions member)

theorem positions_eq_filter (chosen : Fin 3 → Bool)
    (same : ∀ position, ((e.levels level).slots position).state = state ↔ chosen position) :
    e.positions level state = [0, 1, 2].filter chosen := by
  unfold positions
  congr 1
  funext position
  exact Bool.eq_iff_iff.mpr (by simpa using same position)

theorem positions_eq_singleton {position : Fin 3}
    (unique : ∀ other, ((e.levels level).slots other).state = state ↔ other = position) :
    e.positions level state = [position] := by
  rw [positions_eq_filter (fun other => decide (other = position)) (by simpa using unique)]
  clear unique
  revert position
  decide

theorem positions_eq_pair {one two : Fin 3} (distinct : one ≠ two)
    (both : ∀ other, ((e.levels level).slots other).state = state ↔ other = one ∨ other = two) :
    e.positions level state = [one, two] ∨ e.positions level state = [two, one] := by
  rw [positions_eq_filter (fun other => decide (other = one ∨ other = two))
    (by simpa using both)]
  clear both
  revert one two
  decide

end Execution

namespace History.Shape

variable {h : History P} {height nextIdentity level : Nat} {e : Execution P}

section

variable (shape : h.Shape composition e.levels height nextIdentity)

include shape

theorem state_eq (level : Nat) (position : Fin 3) :
    ((e.levels level).slots position).state = h.roleState level (h.cells level position) :=
  (shape.renders level position).state_eq

/-- An object slot holds the object with its ordinal. -/
theorem object_eq {position : Fin 3} {ordinal : Nat}
    (placed : h.cells level position = some (.object ordinal)) :
    ((e.levels level).slots position).object = some (h.made level ordinal) := by
  have renders := shape.renders level position
  rw [placed] at renders
  rw [show (e.levels level).slots position = _ from renders]

/-- Two live objects of one level with the same ordinal share their slot. -/
theorem live_of_cells {position : Fin 3} {ordinal : Nat}
    (placed : h.cells level position = some (.object ordinal)) : h.Live level ordinal :=
  (shape.places level).sound placed

/-- The active slots of a level hold its objects which no merge has consumed, oldest first. -/
theorem active_ok (level : Nat) : ∃ entries, e.active level = .ok entries ∧
    entries.map (h.cells level) = (List.range' (2 * h.received (level + 1) + 1)
      (h.received level - 2 * h.received (level + 1))).map fun ordinal =>
        some (.object ordinal) := by
  have lower := shape.counts.lower level
  have upper := shape.counts.upper level
  have shown := shape.counts.shown_le (level + 1)
  have live : ∀ ordinal, 2 * h.received (level + 1) < ordinal → ordinal ≤ h.received level →
      ∃ position, h.cells level position = some (.object ordinal) := by
    intro ordinal above below
    exact (shape.places level).complete (show h.Live level ordinal from ⟨by omega, below⟩)
  have active_iff : ∀ position, ((e.levels level).slots position).state = .active ↔
      ∃ ordinal, h.cells level position = some (.object ordinal) ∧
        2 * h.received (level + 1) < ordinal := by
    intro position
    rw [shape.state_eq, roleState_active]
  have upto : ∀ position ordinal, h.cells level position = some (.object ordinal) →
      ordinal ≤ h.received level := fun position ordinal placed =>
    (shape.live_of_cells placed).2
  have number : h.received level - 2 * h.received (level + 1) = 0 ∨
      h.received level - 2 * h.received (level + 1) = 1 ∨
      h.received level - 2 * h.received (level + 1) = 2 := by omega
  rcases number with none_left | one_left | two_left
  · have nothing : e.positions level .active = [] := by
      apply Execution.positions_eq_nil
      intro position active
      obtain ⟨ordinal, placed, above⟩ := (active_iff position).mp active
      have := upto position ordinal placed
      omega
    exact ⟨[], by rw [Execution.active, nothing], by simp [none_left]⟩
  · obtain ⟨position, placed⟩ := live (2 * h.received (level + 1) + 1) (by omega) (by omega)
    have only : e.positions level .active = [position] := by
      apply Execution.positions_eq_singleton
      intro other
      rw [active_iff]
      constructor
      · rintro ⟨ordinal, other_placed, above⟩
        have := upto other ordinal other_placed
        have same : ordinal = 2 * h.received (level + 1) + 1 := by omega
        exact (shape.places level).injective (same ▸ other_placed) placed
      · rintro rfl
        exact ⟨_, placed, by omega⟩
    exact ⟨[position], by rw [Execution.active, only], by simp [one_left, placed]⟩
  · obtain ⟨one, one_placed⟩ := live (2 * h.received (level + 1) + 1) (by omega) (by omega)
    obtain ⟨two, two_placed⟩ := live (2 * h.received (level + 1) + 2) (by omega) (by omega)
    have distinct : one ≠ two := by
      rintro rfl
      rw [one_placed, Option.some_inj, SlotRole.object.injEq] at two_placed
      omega
    have both : ∀ other, ((e.levels level).slots other).state = .active ↔
        other = one ∨ other = two := by
      intro other
      rw [active_iff]
      constructor
      · rintro ⟨ordinal, other_placed, above⟩
        have := upto other ordinal other_placed
        have either : ordinal = 2 * h.received (level + 1) + 1 ∨
            ordinal = 2 * h.received (level + 1) + 2 := by omega
        rcases either with rfl | rfl
        · exact .inl ((shape.places level).injective other_placed one_placed)
        · exact .inr ((shape.places level).injective other_placed two_placed)
      · rintro (rfl | rfl)
        · exact ⟨_, one_placed, by omega⟩
        · exact ⟨_, two_placed, by omega⟩
    have one_first : e.firstOf level one = 2 * h.received (level + 1) * 2 ^ level := by
      rw [Execution.firstOf, shape.object_eq one_placed]
      exact (shape.described _ _ (shape.live_of_cells one_placed)).first_eq
    have two_first : e.firstOf level two = (2 * h.received (level + 1) + 1) * 2 ^ level := by
      rw [Execution.firstOf, shape.object_eq two_placed]
      exact (shape.described _ _ (shape.live_of_cells two_placed)).first_eq
    have older : e.firstOf level one < e.firstOf level two := by
      rw [one_first, two_first]
      exact Nat.mul_lt_mul_of_pos_right (Nat.lt_succ_self _) (Nat.two_pow_pos level)
    refine ⟨[one, two], ?_, by simp [two_left, one_placed, two_placed, List.range'_succ]⟩
    rcases Execution.positions_eq_pair distinct both with ordered | reversed
    · rw [Execution.active, ordered]
      simp only [if_neg older.not_gt]
    · rw [Execution.active, reversed]
      simp only [if_pos older]

theorem active_full (full : h.Full level) : ∃ older newer, e.active level = .ok [older, newer] ∧
    h.cells level older = some (.object (2 * h.received (level + 1) + 1)) ∧
    h.cells level newer = some (.object (2 * h.received (level + 1) + 2)) := by
  obtain ⟨entries, active, cells⟩ := shape.active_ok level
  have two : h.received level - 2 * h.received (level + 1) = 2 := by
    unfold Full at full
    omega
  rw [two] at cells
  simp only [List.range'_succ, List.range'_zero, List.map_cons, List.map_nil] at cells
  rcases entries with _ | ⟨older, _ | ⟨newer, _ | ⟨third, rest⟩⟩⟩
  · cases cells
  · simp at cells
  · simp only [List.map_cons, List.map_nil, List.cons.injEq, and_true] at cells
    exact ⟨older, newer, active, cells.1, cells.2⟩
  · simp at cells

theorem active_one (one : h.received level = 2 * h.received (level + 1) + 1) :
    ∃ position, e.active level = .ok [position] ∧
      h.cells level position = some (.object (h.received level)) := by
  obtain ⟨entries, active, cells⟩ := shape.active_ok level
  rw [show h.received level - 2 * h.received (level + 1) = 1 by omega] at cells
  simp only [List.range'_succ, List.range'_zero, List.map_cons, List.map_nil] at cells
  rcases entries with _ | ⟨position, _ | ⟨second, rest⟩⟩
  · cases cells
  · simp only [List.map_cons, List.map_nil, List.cons.injEq, and_true] at cells
    exact ⟨position, active, by rw [cells, one]⟩
  · simp at cells

theorem active_none (none_left : h.received level = 2 * h.received (level + 1)) :
    e.active level = .ok [] := by
  obtain ⟨entries, active, cells⟩ := shape.active_ok level
  rw [show h.received level - 2 * h.received (level + 1) = 0 by omega] at cells
  simp only [List.range'_zero, List.map_nil, List.map_eq_nil_iff] at cells
  rw [active, cells]

theorem positions_active_length (level : Nat) : (e.positions level .active).length =
    h.received level - 2 * h.received (level + 1) := by
  obtain ⟨entries, active, cells⟩ := shape.active_ok level
  have length := congrArg List.length cells
  rw [List.length_map, List.length_map, List.length_range'] at length
  rw [← length]
  unfold Execution.active at active
  split at active <;> cases active
  · simp [*]
  · simp [*]
  · split <;> simp [*]

/-- A search finds the slot of a use which has a state of its own. -/
theorem find_some {state : RedundantSlotState} {role : SlotRole} {position : Fin 3}
    (own : ∀ other : Option SlotRole, h.roleState level other = state ↔ other = some role)
    (placed : h.cells level position = some role) : e.find level state = some position := by
  have only : e.positions level state = [position] := by
    apply Execution.positions_eq_singleton
    intro other
    rw [shape.state_eq, own]
    exact ⟨fun other_placed => (shape.places level).injective other_placed placed,
      fun same => same ▸ placed⟩
  rw [Execution.find, only, List.head?_cons]

theorem find_none {state : RedundantSlotState} {role : SlotRole}
    (own : ∀ other : Option SlotRole, h.roleState level other = state ↔ other = some role)
    (unwanted : ¬ h.Wanted e.levels level role) : e.find level state = none := by
  have nothing : e.positions level state = [] := by
    apply Execution.positions_eq_nil
    intro position found
    rw [shape.state_eq, own] at found
    exact unwanted ((shape.places level).sound found)
  rw [Execution.find, nothing, List.head?_nil]

/-- A vacant slot exists while fewer than three uses are wanted. -/
theorem vacant_ok {bound : Finset SlotRole}
    (bounded : ∀ role, h.Wanted e.levels level role → role ∈ bound) (fewer : bound.card < 3) :
    ∃ position, e.vacant level = .ok position ∧ h.cells level position = none := by
  obtain ⟨cell, unused⟩ := (shape.places level).exists_vacant bounded fewer
  have some_empty : e.positions level .empty ≠ [] := by
    intro nothing
    have member : cell ∈ e.positions level .empty := by
      rw [Execution.mem_positions, shape.state_eq, roleState_empty]
      exact unused
    rw [nothing] at member
    cases member
  obtain ⟨position, rest, positions⟩ := List.exists_cons_of_ne_nil some_empty
  refine ⟨position, ?_, ?_⟩
  · rw [Execution.vacant, Execution.find, positions]
    rfl
  · have member : position ∈ e.positions level .empty := positions ▸ List.mem_cons_self
    rw [Execution.mem_positions, shape.state_eq, roleState_empty] at member
    exact member

/-- A level is refreshed to be unsafe exactly when it is full. -/
theorem refresh_ok (level : Nat) : e.refresh level = .ok { e with
    unsafeLevels := if h.Full level then insert level e.unsafeLevels
      else e.unsafeLevels.erase level } := by
  obtain ⟨entries, active, cells⟩ := shape.active_ok level
  have length := congrArg List.length cells
  rw [List.length_map, List.length_map, List.length_range'] at length
  have lower := shape.counts.lower level
  have full_iff : ((e.levels level).job.isSome = true ∨ entries.length = 2) ↔ h.Full level := by
    unfold Full
    constructor
    · rintro (busy | two)
      · obtain ⟨recipe, job⟩ := Option.isSome_iff_exists.mp busy
        exact (shape.jobs level recipe job).full
      · omega
    · intro full
      exact .inr (by omega)
  rw [Execution.refresh, active, ok_bind]
  simp only [full_iff]

end

end History.Shape

end Everett

import Everett.Redundant.Transition

/-!
# Reserving the slots of a merge

A full level has two active objects and a vacant slot, and the level above it can take one more
object: in the slot of its ready carrier, or in a vacant one.
-/

namespace Everett

open Outcome

variable {P : StoragePolicy} {composition : Composition P}

namespace History

variable {h : History P} {level : Nat}

/-- Where a merge of a full level delivers to, and what it starts from. -/
structure Reservation (h : History P) (levels : Nat → RedundantLevel P) (level : Nat)
    (recipe : RedundantJobRecipe P) : Prop where
  inputs : ∀ newer : Bool, h.cells level (recipe.inputs newer) =
    some (.object (2 * h.received (level + 1) + 1 + newer.toNat))
  destination : h.cells (level + 1) recipe.destination =
    if h.received (level + 1) = 2 * h.received (level + 1 + 1) ∧ h.received (level + 1) ≠ 0 then
      some .ready else none
  carrierSlot : h.cells level recipe.carrierSlot = none
  newMain : recipe.newMain = decide (h.received (level + 1) = 2 * h.received (level + 1 + 1))
  destinationRoute : recipe.destinationRoute =
    if recipe.newMain then h.targets (level + 1 + 1) (h.received (level + 1 + 1)) else .none
  slotRoute : recipe.destinationRoute = ((levels (level + 1)).slots recipe.destination).route
  existingMain : recipe.existingMain =
    if recipe.newMain then none else some (h.made (level + 1) (h.received (level + 1)))
  stage : recipe.stage = .nativeMerge
  output : recipe.output = none
  merged : recipe.merged = none
  carrier : recipe.carrier = []

/-- The reserved slot of a destination. -/
def reservedSlot (levels : Nat → RedundantLevel P) (level : Nat) (recipe : RedundantJobRecipe P) :
    RedundantSlot P :=
  { (levels (level + 1)).slots recipe.destination with state := .reserved }

/-- The history in which a merge of a level has begun. -/
def begun (h : History P) (level : Nat) (recipe : RedundantJobRecipe P) : History P :=
  { h with
    cells := Function.update
      (Function.update h.cells level
        (Function.update (h.cells level) recipe.carrierSlot (some .building)))
      (level + 1)
      (Function.update (h.cells (level + 1)) recipe.destination (some .reserved)) }

end History

namespace Execution

/-- The executor after it began a merge. -/
def begun (e : Execution P) (level : Nat) (recipe : RedundantJobRecipe P) : Execution P :=
  { ((({ e with height := if level + 1 = e.height then e.height + 1 else e.height }.setSlot level
      recipe.carrierSlot ⟨.carrierBuilding, none, .none, [], false⟩).setSlot (level + 1)
      recipe.destination (History.reservedSlot e.levels level recipe)).setJob level
      (some recipe)).setWorker level (some ⟨.nativeStart, none, none, 8⟩) with changed := true }

end Execution

namespace History.Shape

variable {h : History P} {level nextIdentity : Nat} {e : Execution P}

/-- The slot of the level above which a merge reserves. -/
theorem destination_ok (shape : h.Shape composition e.levels e.height nextIdentity)
    (current : h.Current) (full : h.Full level) (idle : (e.levels level).job = none) :
    ∃ position, e.destinationSlot (level + 1) = .ok position ∧
      (e.find (level + 1) .carrierReady).isSome = decide
        (h.received (level + 1) = 2 * h.received (level + 1 + 1) ∧ h.received (level + 1) ≠ 0) ∧
      h.cells (level + 1) position =
        if h.received (level + 1) = 2 * h.received (level + 1 + 1) ∧ h.received (level + 1) ≠ 0 then
          some .ready else none := by
  have counts := shape.counts
  have not_full := counts.not_full_succ full
  by_cases ready : h.received (level + 1) = 2 * h.received (level + 1 + 1) ∧
      h.received (level + 1) ≠ 0
  · have wanted : h.Wanted e.levels (level + 1) .ready := by
      refine ⟨ready.1, ready.2, nofun, ?_⟩
      rintro below ⟨⟩
      rw [idle]
      rfl
    obtain ⟨position, placed⟩ := (shape.places (level + 1)).complete wanted
    have found := shape.find_some (fun other => roleState_ready) placed
    refine ⟨position, ?_, ?_, ?_⟩
    · rw [Execution.destinationSlot, found]
    · rw [found, decide_eq_true ready]
      rfl
    · rw [if_pos ready, placed]
  · have absent : e.find (level + 1) .carrierReady = none := by
      refine shape.find_none (fun other => roleState_ready) ?_
      rintro ⟨balanced, some_received, -⟩
      exact ready ⟨balanced, some_received⟩
    have shown := counts.shown_of_full current full
    have shown_next := counts.shown_next level
    have lower := counts.lower (level + 1)
    have upper := counts.upper (level + 1)
    have wanted : ∀ role, h.Wanted e.levels (level + 1) role →
        role ∈ ({.object (h.received (level + 1))} : Finset SlotRole) := by
      intro role wants
      cases role with
      | object ordinal =>
          have above : 2 * h.shown (level + 1 + 1) < ordinal := wants.1
          have below : ordinal ≤ h.received (level + 1) := wants.2
          unfold Full at not_full
          rw [Finset.mem_singleton, SlotRole.object.injEq]
          omega
      | building =>
          obtain ⟨recipe, job⟩ := Option.isSome_iff_exists.mp wants
          exact absurd (shape.jobs _ _ job).full not_full
      | reserved =>
          obtain ⟨below, same, busy⟩ := wants
          obtain rfl := Nat.succ.inj same
          rw [idle] at busy
          cases busy
      | ready => exact absurd ⟨wants.1, wants.2.1⟩ ready
      | root => exact absurd wants.1 (Nat.succ_ne_zero level)
    obtain ⟨position, vacant, placed⟩ := shape.vacant_ok wanted (by simp)
    refine ⟨position, ?_, ?_, ?_⟩
    · rw [Execution.destinationSlot, absent]
      exact vacant
    · rw [absent, decide_eq_false ready]
      rfl
    · rw [if_neg ready, placed]

/-- A full level has a slot left for its carrier. -/
theorem carrierSlot_ok (shape : h.Shape composition e.levels e.height nextIdentity)
    (current : h.Current) (full : h.Full level) (idle : (e.levels level).job = none) :
    ∃ position, e.vacant level = .ok position ∧ h.cells level position = none := by
  have counts := shape.counts
  have shown := counts.shown_of_full current full
  have wanted : ∀ role, h.Wanted e.levels level role → role ∈
      ({.object (2 * h.received (level + 1) + 1),
        .object (2 * h.received (level + 1) + 2)} : Finset SlotRole) := by
    intro role wants
    unfold Full at full
    cases role with
    | object ordinal =>
        have above : 2 * h.shown (level + 1) < ordinal := wants.1
        have below : ordinal ≤ h.received level := wants.2
        rw [Finset.mem_insert, Finset.mem_singleton, SlotRole.object.injEq, SlotRole.object.injEq]
        omega
    | building =>
        have busy : (e.levels level).job.isSome = true := wants
        rw [idle] at busy
        cases busy
    | reserved =>
        obtain ⟨below, rfl, busy⟩ := wants
        obtain ⟨recipe, job⟩ := Option.isSome_iff_exists.mp busy
        exact absurd full (counts.not_full_succ (shape.jobs _ _ job).full)
    | ready =>
        have balanced := wants.1
        omega
    | root =>
        obtain ⟨rfl, balanced, -⟩ := wants
        simp only [Nat.zero_add] at full
        omega
  exact shape.vacant_ok wanted (Finset.card_le_two.trans_lt (by decide))

/-- The main object which a destination level already has. -/
theorem destinationMain_ok (shape : h.Shape composition e.levels e.height nextIdentity)
    (full : h.Full level) : ∃ present, e.active (level + 1) = .ok present ∧
      present.length ≤ 1 ∧
      (present = [] ↔ h.received (level + 1) = 2 * h.received (level + 1 + 1)) ∧
      e.destinationMain (level + 1) present =
        .ok (if h.received (level + 1) = 2 * h.received (level + 1 + 1) then none
          else some (h.made (level + 1) (h.received (level + 1)))) := by
  have counts := shape.counts
  have not_full := counts.not_full_succ full
  have lower := counts.lower (level + 1)
  have upper := counts.upper (level + 1)
  by_cases balanced : h.received (level + 1) = 2 * h.received (level + 1 + 1)
  · exact ⟨[], shape.active_none balanced, Nat.zero_le _, by simp [balanced],
      by rw [if_pos balanced]; rfl⟩
  · have one : h.received (level + 1) = 2 * h.received (level + 1 + 1) + 1 := by
      unfold Full at not_full
      omega
    obtain ⟨position, active, placed⟩ := shape.active_one one
    have described := shape.described _ _ (shape.live_of_cells placed)
    have main : (h.made (level + 1) (h.received (level + 1))).secondary = false := by
      rw [described.secondary_eq]
      exact decide_eq_false (by omega)
    refine ⟨[position], active, le_rfl, by simp [balanced], ?_⟩
    rw [if_neg balanced, Execution.destinationMain, shape.object_eq placed, demand_some, ok_bind,
      require_true main, ok_bind]

end History.Shape

/-- A full level begins its merge. -/
theorem Execution.begin_ok {h : History P} {level nextIdentity : Nat} {e : Execution P}
    (shape : h.Shape composition e.levels e.height nextIdentity) (current : h.Current)
    (full : h.Full level) (idle : (e.levels level).job = none) (deep : level + 1 < maximumLevels)
    (safe : level + 1 ∉ e.unsafeLevels) :
    ∃ recipe, e.begin level = .ok (e.begun level recipe) ∧
      h.Reservation e.levels level recipe := by
  have counts := shape.counts
  obtain ⟨older, newer, active, older_cell, newer_cell⟩ := shape.active_full full
  obtain ⟨position, destination, carrier, position_cell⟩ :=
    shape.destination_ok current full idle
  obtain ⟨present, present_active, few, none_present, existing⟩ := shape.destinationMain_ok full
  obtain ⟨carrierSlot, vacant, carrier_cell⟩ := shape.carrierSlot_ok current full idle
  have older_object := shape.object_eq older_cell
  have newer_object := shape.object_eq newer_cell
  have older_described := shape.described _ _ (shape.live_of_cells older_cell)
  have newer_described := shape.described _ _ (shape.live_of_cells newer_cell)
  have delivered : (e.levels (level + 1)).lastDestination = 0 ∨
      (e.levels (level + 1)).lastDestinationVisible = true := by
    rcases shape.destinations (level + 1) with none_delivered | ⟨-, -, -, visible⟩
    · exact .inl none_delivered
    · right
      rw [visible, counts.shown_of_full current full]
      exact decide_eq_true le_rfl
  have occupancy : present.length ≤ 1 ∧
      ((e.find (level + 1) .carrierReady).isSome = true → present = []) := by
    refine ⟨few, fun found => none_present.mpr ?_⟩
    rw [carrier, decide_eq_true_eq] at found
    exact found.1
  have adjacent : (h.made level (2 * h.received (level + 1) + 1)).last =
      (h.made level (2 * h.received (level + 1) + 2)).first ∧
        (h.made level (2 * h.received (level + 1) + 1)).mass = 2 ^ level ∧
        (h.made level (2 * h.received (level + 1) + 2)).mass = 2 ^ level := by
    refine ⟨?_, older_described.mass_eq (by omega), newer_described.mass_eq (by omega)⟩
    rw [older_described.last_eq, newer_described.first_eq]
    rfl
  have new_main : ((e.find (level + 1) .carrierReady).isSome || present.isEmpty) =
      decide (h.received (level + 1) = 2 * h.received (level + 1 + 1)) := by
    rw [carrier, Bool.eq_iff_iff, Bool.or_eq_true, decide_eq_true_eq, decide_eq_true_eq,
      List.isEmpty_iff, none_present]
    tauto
  have renders := shape.renders (level + 1) position
  rw [position_cell] at renders
  let recipe : RedundantJobRecipe P := {
    inputs := fun newer_input => [older, newer].getD newer_input.toNat 0
    destination := position
    carrierSlot
    newMain := (e.find (level + 1) .carrierReady).isSome || present.isEmpty
    destinationRoute := if (e.find (level + 1) .carrierReady).isSome then
      ((e.levels (level + 1)).slots position).route else .none
    existingMain := if h.received (level + 1) = 2 * h.received (level + 1 + 1) then none
      else some (h.made (level + 1) (h.received (level + 1)))
    output := none
    merged := none
    carrier := []
    stage := .nativeMerge }
  refine ⟨recipe, ?_, ?_⟩
  · refine bind_eq_ok.mpr ⟨_, active, bind_eq_ok.mpr ⟨_, require_true rfl,
      bind_eq_ok.mpr ⟨_, require_true deep, bind_eq_ok.mpr ⟨_, require_true safe,
      bind_eq_ok.mpr ⟨_, require_true delivered, bind_eq_ok.mpr ⟨_, destination,
      bind_eq_ok.mpr ⟨_, present_active, bind_eq_ok.mpr ⟨_, require_true occupancy, ?_⟩⟩⟩⟩⟩⟩⟩⟩
    have older_held := congrArg (demand · "null redundant object") older_object
    have newer_held := congrArg (demand · "null redundant object") newer_object
    exact bind_eq_ok.mpr ⟨_, older_held, bind_eq_ok.mpr ⟨_, newer_held,
      bind_eq_ok.mpr ⟨_, require_true adjacent, bind_eq_ok.mpr ⟨_, vacant,
      bind_eq_ok.mpr ⟨_, existing, rfl⟩⟩⟩⟩⟩
  · have empty_above : h.received (level + 1) = 0 → h.received (level + 1 + 1) = 0 := by
      have lower := counts.lower (level + 1)
      omega
    have slot_route : ((e.levels (level + 1)).slots position).route =
        if h.received (level + 1) = 2 * h.received (level + 1 + 1) then
          h.targets (level + 1 + 1) (h.received (level + 1 + 1)) else .none := by
      by_cases ready : h.received (level + 1) = 2 * h.received (level + 1 + 1) ∧
          h.received (level + 1) ≠ 0
      · rw [if_pos ready] at renders
        obtain ⟨_, -, slot_eq⟩ := renders
        rw [slot_eq, if_pos ready.1]
      · rw [if_neg ready] at renders
        rw [show (e.levels (level + 1)).slots position = .vacant P from renders]
        split_ifs with balanced
        · rw [empty_above (by tauto), History.targets_zero]
          rfl
        · rfl
    have route : recipe.destinationRoute = ((e.levels (level + 1)).slots position).route := by
      by_cases ready : h.received (level + 1) = 2 * h.received (level + 1 + 1) ∧
          h.received (level + 1) ≠ 0
      · exact if_pos (by rw [carrier, decide_eq_true ready])
      · rw [if_neg ready] at renders
        rw [show (e.levels (level + 1)).slots position = .vacant P from renders]
        exact if_neg (by rw [carrier, decide_eq_false ready]; exact Bool.false_ne_true)
    exact {
      inputs := fun newer_input => by cases newer_input <;> assumption
      destination := position_cell
      carrierSlot := carrier_cell
      newMain := new_main
      destinationRoute := by
        rw [route, slot_route, show recipe.newMain = _ from new_main]
        simp only [decide_eq_true_eq]
      slotRoute := route
      existingMain := by
        rw [show recipe.newMain = _ from new_main]
        simp only [decide_eq_true_eq]
        rfl
      stage := rfl
      output := rfl
      merged := rfl
      carrier := rfl }

end Everett

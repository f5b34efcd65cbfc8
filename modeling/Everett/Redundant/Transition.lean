import Everett.Redundant.Visibility

/-!
# Steps between frontiers

What the slots, jobs and workers are after an update, and which parts of a shape an update keeps.
-/

namespace Everett

variable {P : StoragePolicy}

namespace Execution

variable (e : Execution P) (level other : Nat) (position found : Fin 3)

/-! ## Updates -/

theorem setSlot_slots (slot : RedundantSlot P) :
    ((e.setSlot level position slot).levels other).slots found =
      if other = level ∧ found = position then slot else (e.levels other).slots found := by
  unfold setSlot
  by_cases same : other = level
  · subst same
    by_cases here : found = position
    · subst here
      simp
    · simp [here]
  · simp [same]

@[simp] theorem setSlot_job (slot : RedundantSlot P) :
    ((e.setSlot level position slot).levels other).job = (e.levels other).job := by
  unfold setSlot
  by_cases same : other = level
  · subst same
    simp
  · simp [same]

@[simp] theorem setSlot_lastDestination (slot : RedundantSlot P) :
    ((e.setSlot level position slot).levels other).lastDestination =
      (e.levels other).lastDestination := by
  unfold setSlot
  by_cases same : other = level
  · subst same
    simp
  · simp [same]

@[simp] theorem setSlot_lastDestinationVisible (slot : RedundantSlot P) :
    ((e.setSlot level position slot).levels other).lastDestinationVisible =
      (e.levels other).lastDestinationVisible := by
  unfold setSlot
  by_cases same : other = level
  · subst same
    simp
  · simp [same]

@[simp] theorem setJob_slots (job : Option (RedundantJobRecipe P)) :
    ((e.setJob level job).levels other).slots found = (e.levels other).slots found := by
  unfold setJob
  by_cases same : other = level
  · subst same
    simp
  · simp [same]

theorem setJob_job (job : Option (RedundantJobRecipe P)) :
    ((e.setJob level job).levels other).job = if other = level then job else (e.levels other).job := by
  unfold setJob
  by_cases same : other = level
  · subst same
    simp
  · simp [same]

@[simp] theorem setJob_lastDestination (job : Option (RedundantJobRecipe P)) :
    ((e.setJob level job).levels other).lastDestination = (e.levels other).lastDestination := by
  unfold setJob
  by_cases same : other = level
  · subst same
    simp
  · simp [same]

@[simp] theorem setJob_lastDestinationVisible (job : Option (RedundantJobRecipe P)) :
    ((e.setJob level job).levels other).lastDestinationVisible =
      (e.levels other).lastDestinationVisible := by
  unfold setJob
  by_cases same : other = level
  · subst same
    simp
  · simp [same]

@[simp] theorem setDestination_slots (identity : Nat) (visible : Bool) :
    ((e.setDestination level identity visible).levels other).slots found =
      (e.levels other).slots found := by
  unfold setDestination
  by_cases same : other = level
  · subst same
    simp
  · simp [same]

@[simp] theorem setDestination_job (identity : Nat) (visible : Bool) :
    ((e.setDestination level identity visible).levels other).job = (e.levels other).job := by
  unfold setDestination
  by_cases same : other = level
  · subst same
    simp
  · simp [same]

theorem setDestination_lastDestination (identity : Nat) (visible : Bool) :
    ((e.setDestination level identity visible).levels other).lastDestination =
      if other = level then identity else (e.levels other).lastDestination := by
  unfold setDestination
  by_cases same : other = level
  · subst same
    simp
  · simp [same]

theorem setDestination_lastDestinationVisible (identity : Nat) (visible : Bool) :
    ((e.setDestination level identity visible).levels other).lastDestinationVisible =
      if other = level then visible else (e.levels other).lastDestinationVisible := by
  unfold setDestination
  by_cases same : other = level
  · subst same
    simp
  · simp [same]

theorem setWorker_workers (worker : Option (RedundantWorker P)) :
    (e.setWorker level worker).workers other =
      if other = level then worker else e.workers other := by
  unfold setWorker
  by_cases same : other = level
  · subst same
    simp
  · simp [same]

end Execution

namespace History

/-! ## Identities -/

/-- The objects of the slots have positive, distinct identities, which are their addresses. -/
structure Identified (levels : Nat → RedundantLevel P) (nextIdentity : Nat) : Prop where
  identities : ∀ level position object, ((levels level).slots position).object = some object →
    0 < object.identity ∧ object.identity < nextIdentity ∧ object.address = object.identity
  distinct : ∀ level position object other_level other_position other,
    ((levels level).slots position).object = some object →
    ((levels other_level).slots other_position).object = some other →
    object.identity = other.identity → level = other_level ∧ position = other_position

namespace Identified

variable {levels levels' : Nat → RedundantLevel P} {nextIdentity : Nat}

/-- Slots which hold fewer objects. -/
theorem mono (identified : Identified levels nextIdentity)
    (held : ∀ level position object, ((levels' level).slots position).object = some object →
      ((levels level).slots position).object = some object) :
    Identified levels' nextIdentity where
  identities level position object holds :=
    identified.identities level position object (held _ _ _ holds)
  distinct level position object other_level other_position other holds other_holds :=
    identified.distinct level position object other_level other_position other (held _ _ _ holds)
      (held _ _ _ other_holds)

/-- A slot which receives an object under the next identity. -/
theorem insert (identified : Identified levels nextIdentity) (positive : 0 < nextIdentity)
    {level : Nat} {position : Fin 3} {object : RedundantObject P}
    (identity : object.identity = nextIdentity) (address : object.address = nextIdentity)
    (held : ∀ other found new, ((levels' other).slots found).object = some new →
      (other = level ∧ found = position ∧ new = object) ∨
        ((levels other).slots found).object = some new) :
    Identified levels' (nextIdentity + 1) where
  identities other found new holds := by
    rcases held other found new holds with ⟨-, -, rfl⟩ | old
    · omega
    · have known := identified.identities _ _ _ old
      omega
  distinct one first one_object two second two_object holds other_holds same := by
    rcases held one first one_object holds with ⟨rfl, rfl, rfl⟩ | old
    · rcases held two second two_object other_holds with ⟨rfl, rfl, -⟩ | other_old
      · exact ⟨rfl, rfl⟩
      · have known := identified.identities _ _ _ other_old
        omega
    · rcases held two second two_object other_holds with ⟨rfl, rfl, rfl⟩ | other_old
      · have known := identified.identities _ _ _ old
        omega
      · exact identified.distinct _ _ _ _ _ _ old other_old same

end Identified

variable {h h' : History P} {composition : Composition P} {levels levels' : Nat → RedundantLevel P}
  {height nextIdentity level : Nat}

theorem Shape.identified (shape : h.Shape composition levels height nextIdentity) :
    Identified levels nextIdentity := ⟨shape.identities, shape.distinct⟩

/-! ## Histories which continue each other -/

/-- A later history keeps the objects which were received. -/
structure Continues (h h' : History P) : Prop where
  made : ∀ level ordinal, ordinal ≤ h.received level → h'.made level ordinal = h.made level ordinal
  admitted : ∃ more, h'.admitted = h.admitted ++ more

namespace Continues

theorem refl (h : History P) : h.Continues h := ⟨fun _ _ _ => rfl, [], (List.append_nil _).symm⟩

theorem targets_eq (continues : h.Continues h') {level count : Nat}
    (received : count ≤ h.received level) : h'.targets level count = h.targets level count :=
  targets_congr fun ordinal within => continues.made level ordinal (within.trans received)

/-- An object which was received keeps its description. -/
theorem describes (continues : h.Continues h') (counts : h.Counts) {level ordinal : Nat}
    {object : RedundantObject P} (described : h.Describes composition level ordinal object)
    (positive : 0 < ordinal) (within : ordinal ≤ h.received level) :
    h'.Describes composition level ordinal object := by
  obtain ⟨more, admitted⟩ := continues.admitted
  have inside : ordinal * 2 ^ level ≤ h.admitted.length := by
    rw [← counts.total, Nat.mul_comm]
    exact (Nat.mul_le_mul_left _ within).trans (counts.received_mul level)
  have half : (ordinal - 1) / 2 ≤ h.received (level + 1) := by
    have upper := counts.upper level
    omega
  refine described.congr ?_ fun _ => continues.targets_eq half
  rw [admitted, content_append more positive inside]

end Continues

end History

end Everett

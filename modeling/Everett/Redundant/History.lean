import Everett.Cola.Assembly
import Everett.Library.Placement
import Everett.Library.SortedMerge

/-!
# The history of a frontier

What an executor has done so far determines its frontier: the records it admitted, how many objects
every level received, and which of them a snapshot has shown.  The objects of a level are numbered
from one in the order of their intervals.  An object with an odd ordinal is a main object; it is
joined by the secondary with the next ordinal, and both are merged into one object of the next
level.
-/

namespace Everett

variable {P : StoragePolicy}

/-- What a slot is used for. -/
inductive SlotRole
  | object (ordinal : Nat)
  | reserved
  | building
  | ready
  | root
  deriving DecidableEq, Repr

/-- The history of a frontier. -/
structure History (P : StoragePolicy) where
  /-- Admitted records in order. -/
  admitted : List ProfileRecord
  /-- Number of objects which a level received. -/
  received : Nat → Nat
  /-- Ordinal of the newest object of a level which a snapshot has shown. -/
  shown : Nat → Nat
  /-- Object of a level with an ordinal. -/
  made : Nat → Nat → RedundantObject P
  /-- Use of every slot. -/
  cells : Nat → Fin 3 → Option SlotRole
  /-- Whether the ready carrier of level zero stands at the root. -/
  rooted : Bool

/-- Keys and values which an object has to hold: the merge of those of its two inputs. -/
def content (composition : Composition P) (admitted : List ProfileRecord) :
    Nat → Nat → List (BitString × BitString)
  | 0, ordinal =>
      (admitted[ordinal - 1]?.map fun record => (record.key, record.value)).toList
  | level + 1, ordinal => mergeWith composition.compose.apply
      (content composition admitted level (2 * ordinal - 1))
      (content composition admitted level (2 * ordinal))

/-- A valid contribution of representable lengths. -/
def ProfileRecord.Valid (P : StoragePolicy) (record : ProfileRecord) : Prop :=
  P.Aligned record.key ∧ P.ValidValue record.value ∧ record.value.length ≤ maximum64

namespace History

/-- Routes to the newest pair of a level when it has received so many objects. -/
def targets (h : History P) (level count : Nat) : Routes P :=
  if count = 0 then .none
  else ⟨some (h.made level (2 * ((count - 1) / 2) + 1)),
    if count % 2 = 0 then some (h.made level count) else none⟩

/-- An object which a slot of its level still holds. -/
def Live (h : History P) (level ordinal : Nat) : Prop :=
  2 * h.shown (level + 1) < ordinal ∧ ordinal ≤ h.received level

/-- Admissions which have not yet been delivered to a level. -/
def lag (h : History P) (level : Nat) : Nat := h.received 0 - 2 ^ level * h.received level

/-- A level with two objects to merge. -/
def Full (h : History P) (level : Nat) : Prop :=
  h.received level = 2 * h.received (level + 1) + 2

instance (h : History P) (level : Nat) : Decidable (h.Full level) :=
  inferInstanceAs (Decidable (_ = _))

/-- The numbers of objects of consecutive levels fit together. -/
structure Counts (h : History P) : Prop where
  total : h.received 0 = h.admitted.length
  lower : ∀ level, 2 * h.received (level + 1) ≤ h.received level
  upper : ∀ level, h.received level ≤ 2 * h.received (level + 1) + 2
  shown_le : ∀ level, h.shown level ≤ h.received level
  shown_ge : ∀ level, h.received level ≤ h.shown level + 1
  shown_first : 2 * h.shown 1 ≤ h.shown 0
  shown_next : ∀ level, h.shown (level + 1 + 1) = (h.shown (level + 1) - 1) / 2
  /-- A full level was filled by the newest admissions. -/
  calm : ∀ level, h.Full level → h.received 0 < 2 ^ level * (h.received level + 1)

/-- Everything which the root shows has been marked. -/
structure Current (h : History P) : Prop where
  first : h.shown 0 = h.received 0
  second : h.shown 1 = h.received 1

namespace Counts

variable {h : History P}

theorem shown_succ (counts : h.Counts) (level : Nat) : 2 * h.shown (level + 1) ≤ h.shown level := by
  cases level with
  | zero => exact counts.shown_first
  | succ level =>
      have next := counts.shown_next level
      omega

/-- A full level has shown everything which the next level received. -/
theorem shown_of_full (counts : h.Counts) (current : h.Current) {level : Nat}
    (full : h.Full level) : h.shown (level + 1) = h.received (level + 1) := by
  cases level with
  | zero => exact current.second
  | succ level =>
      have next := counts.shown_next level
      have above := counts.shown_ge (level + 1)
      have below := counts.shown_le (level + 1 + 1)
      unfold Full at full
      omega

theorem received_mul (counts : h.Counts) (level : Nat) :
    2 ^ level * h.received level ≤ h.received 0 := by
  induction level with
  | zero => simp
  | succ level induction =>
      calc
        2 ^ (level + 1) * h.received (level + 1) = 2 ^ level * (2 * h.received (level + 1)) := by
          ring
        _ ≤ 2 ^ level * h.received level := Nat.mul_le_mul_left _ (counts.lower level)
        _ ≤ h.received 0 := induction

/-- Two adjacent levels are never full. -/
theorem not_full_succ (counts : h.Counts) {level : Nat} (full : h.Full level) :
    ¬ h.Full (level + 1) := by
  intro next_full
  have newest := counts.calm (level + 1) next_full
  have delivered := counts.received_mul level
  have pairs : 2 ^ (level + 1) * (h.received (level + 1) + 1) =
      2 ^ level * (2 * h.received (level + 1) + 2) := by ring
  rw [pairs, ← full] at newest
  omega

/-- The objects of the newest shown pair, and of later ones, are live. -/
theorem live_targets (counts : h.Counts) {level count : Nat} (shown : h.shown (level + 1) ≤ count)
    (received : count ≤ h.received (level + 1)) (some_made : count ≠ 0) :
    h.Live (level + 1) (2 * ((count - 1) / 2) + 1) ∧
      (count % 2 = 0 → h.Live (level + 1) count) := by
  have next := counts.shown_next level
  unfold Live
  constructor <;> omega

theorem lag_succ (counts : h.Counts) (level : Nat) : h.lag (level + 1) =
    h.lag level + 2 ^ level * (h.received level - 2 * h.received (level + 1)) := by
  have lower := counts.lower level
  have delivered := counts.received_mul level
  have next_delivered := counts.received_mul (level + 1)
  have pairs : 2 ^ (level + 1) * h.received (level + 1) =
      2 ^ level * (2 * h.received (level + 1)) := by ring
  unfold lag
  rw [Nat.mul_sub, pairs]
  have inside := Nat.mul_le_mul_left (2 ^ level) lower
  omega

end Counts

/-- The object has the place and the content which its level and ordinal demand. -/
structure Describes (h : History P) (composition : Composition P) (level ordinal : Nat)
    (object : RedundantObject P) : Prop where
  level_eq : object.level = level
  first_eq : object.first = (ordinal - 1) * 2 ^ level
  last_eq : object.last = ordinal * 2 ^ level
  records_eq : object.native.value.records = content composition h.admitted level ordinal
  valid : object.native.value.ValidValues
  main : ordinal % 2 = 1 → object.next = h.targets (level + 1) ((ordinal - 1) / 2) ∧
    object.pair.Assembles object.native object.next.mainPair object.next.secondaryNative ∧
    MainPointer.virtualSize object.pair ≤ 5 * 2 ^ level + 2
  side : ordinal % 2 = 0 → object.pair = [] ∧ object.next = .none

/-- A node which only routes to the targets. -/
def Carries (carrier : MainPointer P) (target : Routes P) : Prop :=
  ∃ native : Shared (NativeArray P), native.value.size = 0 ∧
    carrier.Assembles native target.mainPair target.secondaryNative

/-- The object which shows the next level where level zero has nothing to show. -/
structure RootCarrier (h : History P) (object : RedundantObject P) : Prop where
  level_eq : object.level = 0
  first_eq : object.first = 0
  last_eq : object.last = 0
  next_eq : object.next = h.targets 1 (h.received 1)
  size_eq : object.native.value.size = 0
  assembles : object.pair.Assembles object.native object.next.mainPair
    object.next.secondaryNative

/-- The uses which the slots of a level have to serve. -/
def Wanted (h : History P) (levels : Nat → RedundantLevel P) (level : Nat) : SlotRole → Prop
  | .object ordinal => h.Live level ordinal
  | .building => (levels level).job.isSome = true
  | .reserved => ∃ below, level = below + 1 ∧ (levels below).job.isSome = true
  | .ready => h.received level = 2 * h.received (level + 1) ∧ h.received level ≠ 0 ∧
      (level = 0 → h.rooted = false) ∧
      ∀ below, level = below + 1 → (levels below).job.isSome = false
  | .root => level = 0 ∧ h.received 0 = 2 * h.received 1 ∧ h.received 0 ≠ 0 ∧ h.rooted = true

/-- The slot serves its use. -/
def Renders (h : History P) (levels : Nat → RedundantLevel P) (level : Nat) :
    Option SlotRole → RedundantSlot P → Prop
  | none, slot => slot = .vacant P
  | some (.object ordinal), slot => slot =
      ⟨if ordinal ≤ 2 * h.received (level + 1) then .consumed else .active,
        some (h.made level ordinal), .none, [], decide (ordinal ≤ h.shown level)⟩
  | some .building, slot => slot = ⟨.carrierBuilding, none, .none, [], false⟩
  | some .reserved, slot => ∃ below recipe carrier, level = below + 1 ∧
      (levels below).job = some recipe ∧
      slot = ⟨.reserved, recipe.output, recipe.destinationRoute, carrier, false⟩
  | some .ready, slot => ∃ carrier, Carries carrier (h.targets (level + 1) (h.received (level + 1))) ∧
      slot = ⟨.carrierReady, none, h.targets (level + 1) (h.received (level + 1)), carrier, false⟩
  | some .root, slot => ∃ object, h.RootCarrier object ∧
      slot = ⟨.rootCarrier, some object, h.targets 1 (h.received 1), [],
        decide (h.received 1 ≤ h.shown 1)⟩

/-- The artifacts which a job has completed at its stage. -/
def Stage (h : History P) (composition : Composition P) (level : Nat)
    (recipe : RedundantJobRecipe P) : Prop :=
  let ordinal := h.received (level + 1) + 1
  let delivered := recipe.output = some (h.made (level + 1) ordinal) ∧
    h.Describes composition (level + 1) ordinal (h.made (level + 1) ordinal) ∧
    recipe.merged = some (h.made (level + 1) ordinal).native
  match recipe.stage with
  | .nativeMerge => recipe.merged = none ∧ recipe.output = none ∧ recipe.carrier = []
  | .destinationIndex => recipe.newMain = true ∧ recipe.output = none ∧ recipe.carrier = [] ∧
      ∃ native, recipe.merged = some native ∧ native.value.ValidValues ∧
        native.value.records = content composition h.admitted (level + 1) ordinal
  | .carrierIndex => recipe.carrier = [] ∧ delivered
  | .commit => delivered ∧ Carries recipe.carrier recipe.target

/-- The job of a full level, with its reservations. -/
structure Job (h : History P) (composition : Composition P) (levels : Nat → RedundantLevel P)
    (level : Nat) (recipe : RedundantJobRecipe P) : Prop where
  full : h.Full level
  below_next : (levels (level + 1)).job = none
  inputs : ∀ newer : Bool, h.cells level (recipe.inputs newer) =
    some (.object (2 * h.received (level + 1) + 1 + newer.toNat))
  destination : h.cells (level + 1) recipe.destination = some .reserved
  carrierSlot : h.cells level recipe.carrierSlot = some .building
  newMain : recipe.newMain = decide (h.received (level + 1) = 2 * h.received (level + 1 + 1))
  destinationRoute : recipe.destinationRoute =
    if recipe.newMain then h.targets (level + 1 + 1) (h.received (level + 1 + 1)) else .none
  existingMain : recipe.existingMain =
    if recipe.newMain then none else some (h.made (level + 1) (h.received (level + 1)))
  stage : h.Stage composition level recipe

/-- The levels of a frontier are what its history demands. -/
structure Shape (h : History P) (composition : Composition P)
    (levels : Nat → RedundantLevel P) (height nextIdentity : Nat) : Prop where
  counts : h.Counts
  valid : ∀ record ∈ h.admitted, record.Valid P
  height_pos : 0 < height
  height_le : height = 1 ∨ 2 ^ (height - 1) ≤ h.received 0
  beyond : ∀ level, height ≤ level → levels level = .fresh P ∧ h.received level = 0
  places : ∀ level, Places (h.cells level) (h.Wanted levels level)
  renders : ∀ level position,
    h.Renders levels level (h.cells level position) ((levels level).slots position)
  described : ∀ level ordinal, h.Live level ordinal →
    h.Describes composition level ordinal (h.made level ordinal)
  jobs : ∀ level recipe, (levels level).job = some recipe → h.Job composition levels level recipe
  identities : ∀ level position object, ((levels level).slots position).object = some object →
    0 < object.identity ∧ object.identity < nextIdentity ∧ object.address = object.identity
  distinct : ∀ level position object other_level other_position other,
    ((levels level).slots position).object = some object →
    ((levels other_level).slots other_position).object = some other →
    object.identity = other.identity → level = other_level ∧ position = other_position
  destinations : ∀ level, (levels level).lastDestination = 0 ∨ level ≠ 0 ∧ h.received level ≠ 0 ∧
    (levels level).lastDestination = (h.made level (h.received level)).identity ∧
    (levels level).lastDestinationVisible = decide (h.received level ≤ h.shown level)

/-- The root shows the newest objects, or the next level through a carrier. -/
def Rooted (h : History P) (levels : Nat → RedundantLevel P) (root : Routes P) : Prop :=
  if h.received 0 = 2 * h.received 1 then
    if h.received 0 = 0 then root = .none
    else ∃ position object, h.cells 0 position = some .root ∧
      ((levels 0).slots position).object = some object ∧ root = ⟨some object, none⟩
  else root = h.targets 0 (h.received 0)

end History

end Everett

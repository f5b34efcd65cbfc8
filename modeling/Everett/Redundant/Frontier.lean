import Everett.Cola.Query
import Everett.Native.Merge

/-!
# Redundant frontiers

The immutable objects which the executor schedules, and the slots, jobs and levels of a frontier.
An object is a value together with the address of its allocation; pointers are compared by address.
-/

namespace Everett

variable (P : StoragePolicy)

/-- `redundant_routes`: targets on the next level. -/
structure RedundantRoutes (Object : Type) where
  main : Option Object
  secondary : Option Object

/-- No targets. -/
def RedundantRoutes.none {Object : Type} : RedundantRoutes Object := ⟨.none, .none⟩

/-- `redundant_object`: a native array covering an interval of admissions. -/
structure RedundantObject (P : StoragePolicy) where
  /-- Where the object lives. -/
  address : Nat
  identity : Nat
  /-- First admission of the interval. -/
  first : Nat
  /-- End of the interval. -/
  last : Nat
  level : Nat
  native : Shared (NativeArray P)
  /-- Index of the object, absent only for a terminal secondary. -/
  pair : MainPointer P
  next : RedundantRoutes (RedundantObject P)

namespace RedundantObject

variable {P}

/-- `secondary()`. -/
def secondary (object : RedundantObject P) : Bool := object.pair.isEmpty

/-- `mass()`. -/
def mass (object : RedundantObject P) : Nat := object.last - object.first

/-- `augmented()`. -/
def augmented (object : RedundantObject P) : Nat :=
  if object.pair.isEmpty then object.native.value.size else object.pair.virtualSize

mutual

/-- `visit`: an object and everything reachable from it, nearest first. -/
def visit : RedundantObject P → List (RedundantObject P)
  | object@⟨_, _, _, _, _, _, _, ⟨main, side⟩⟩ =>
      object :: (visitPointer main ++ visitPointer side)

/-- `visit` along a pointer. -/
def visitPointer : Option (RedundantObject P) → List (RedundantObject P)
  | .none => []
  | some object => visit object

end

mutual

/-- `walk`: what is reachable from an object and the object itself, oldest first. -/
def walk : RedundantObject P → List (RedundantObject P)
  | object@⟨_, _, _, _, _, _, _, ⟨main, side⟩⟩ => walkPointer main ++ walkPointer side ++ [object]

/-- `walk` along a pointer. -/
def walkPointer : Option (RedundantObject P) → List (RedundantObject P)
  | .none => []
  | some object => walk object

end

@[simp]
theorem visitPointer_none : visitPointer (.none : Option (RedundantObject P)) = [] := rfl

@[simp]
theorem visitPointer_some (object : RedundantObject P) :
    visitPointer (some object) = object.visit := by
  rw [visitPointer]

theorem visit_eq (object : RedundantObject P) : object.visit =
    object :: (visitPointer object.next.main ++ visitPointer object.next.secondary) := by
  rcases object with ⟨_, _, _, _, _, _, _, ⟨main, side⟩⟩
  rw [visit]

@[simp]
theorem walkPointer_none : walkPointer (.none : Option (RedundantObject P)) = [] := rfl

@[simp]
theorem walkPointer_some (object : RedundantObject P) :
    walkPointer (some object) = object.walk := by
  rw [walkPointer]

theorem walk_eq (object : RedundantObject P) : object.walk =
    walkPointer object.next.main ++ walkPointer object.next.secondary ++ [object] := by
  rcases object with ⟨_, _, _, _, _, _, _, ⟨main, side⟩⟩
  rw [walk]

end RedundantObject

/-- Routes between objects. -/
abbrev Routes := RedundantRoutes (RedundantObject P)

/-- `redundant_slot_state`. -/
inductive RedundantSlotState
  | empty
  | active
  | consumed
  | reserved
  | carrierBuilding
  | carrierReady
  | rootCarrier
  deriving DecidableEq, Repr

/-- `redundant_stage`. -/
inductive RedundantStage
  | nativeMerge
  | destinationIndex
  | carrierIndex
  | commit
  deriving DecidableEq, Repr

/-- `redundant_slot`. -/
structure RedundantSlot where
  state : RedundantSlotState
  object : Option (RedundantObject P)
  route : Routes P
  carrier : MainPointer P
  everVisible : Bool

/-- A vacant slot. -/
def RedundantSlot.vacant : RedundantSlot P := ⟨.empty, none, .none, [], false⟩

/-- A slot of an object which no snapshot shows yet. -/
def RedundantSlot.holding (object : RedundantObject P) : RedundantSlot P :=
  ⟨.active, some object, .none, [], false⟩

/-- `redundant_job_recipe`: the completed artifacts and exact targets of a merge. -/
structure RedundantJobRecipe where
  /-- Slots of the older and the newer input. -/
  inputs : Bool → Fin 3
  destination : Fin 3
  carrierSlot : Fin 3
  newMain : Bool
  destinationRoute : Routes P
  existingMain : Option (RedundantObject P)
  output : Option (RedundantObject P)
  merged : Option (Shared (NativeArray P))
  carrier : MainPointer P
  stage : RedundantStage

/-- `redundant_level`. -/
structure RedundantLevel where
  slots : Fin 3 → RedundantSlot P
  job : Option (RedundantJobRecipe P)
  /-- Identity of the last object which a merge delivered, or zero. -/
  lastDestination : Nat
  lastDestinationVisible : Bool

/-- A level which nothing reached yet. -/
def RedundantLevel.fresh : RedundantLevel P := ⟨fun _ => .vacant P, none, 0, false⟩

/-- `redundant_frontier`. -/
structure RedundantFrontier where
  admissions : Nat
  nextIdentity : Nat
  serviceDue : Nat
  root : Routes P
  levels : List (RedundantLevel P)

/-- `redundant_snapshot`: a frontier, its query head and its runs, oldest first. -/
structure RedundantSnapshot where
  frontier : RedundantFrontier P
  query : MainPointer P
  runs : List (RedundantObject P)

end Everett

import Everett.Redundant.Frontier

/-!
# The redundant executor

Every admission adds an object of mass one to level zero.  Two active objects of a level are merged
into one on the next level, in charged steps, the lowest level first; the merge leaves a carrier
which routes the level's later objects to what it delivered.  Of the
64-bit counters the two totals of the work are checked, which bound all others.
-/

namespace Everett

open Outcome

variable (P : StoragePolicy)

/-- `maximum_levels`. -/
def maximumLevels : Nat := 64

/-- `local_charge_bound`. -/
def localChargeBound : Nat := 32 * (P.groupSize + 6) + 2048

/-- `service_budget`: what one of so many admissions funds. -/
def serviceBudget (admissions : Nat) : Nat := localChargeBound P * 8 * (admissions.size + 2)

/-- `index_price`. -/
def indexPrice (native main secondary : Nat) : Nat :=
  let a := ceilDiv main P.groupSize
  let b := ceilDiv secondary P.groupSize
  10 + (native + a + b) * (P.groupSize + 6) +
    (ceilDiv a P.codecBlockSize + ceilDiv b P.codecBlockSize)

/-- The loop of `root_price`; a main target of several groups shrinks in every round. -/
def rootPriceLoop : Nat → Nat → Nat → Nat
  | 0, _, _ => 0
  | fuel + 1, main, secondary =>
      let next := ceilDiv main P.groupSize + ceilDiv secondary P.groupSize
      indexPrice P 0 main secondary + if P.groupSize < next then rootPriceLoop fuel next 0 else 0

/-- `root_price`. -/
def rootPrice (main secondary : Nat) : Nat :=
  if secondary = 0 ∧ main ≤ P.groupSize then 0
  else rootPriceLoop P (main + secondary + 1) main secondary

/-- `action` of a worker. -/
inductive RedundantAction
  | nativeStart
  | nativeStep
  | nativeFinish
  | indexStart
  | indexStep
  | indexFinish
  | commit
  deriving DecidableEq, Repr

/-- `worker`: the mutable part of a job. -/
structure RedundantWorker where
  next : RedundantAction
  merge : Option (NativeMerge P)
  index : Option (ColaIndexBuilder P)
  charged : Nat

/-- The totals of `redundant_work` which other code reads. -/
structure RedundantWork where
  granted : Nat
  charged : Nat
  admissions : Nat
  deriving DecidableEq, Repr

/-- `execution`. -/
structure Execution where
  composition : Composition P
  /-- Addresses handed out to arrays and nodes. -/
  allocated : Nat
  emptyNative : Shared (NativeArray P)
  emptyPair : MainPointer P
  levels : Nat → RedundantLevel P
  workers : Nat → Option (RedundantWorker P)
  height : Nat
  admissions : Nat
  nextIdentity : Nat
  /-- Levels with a job or with two active objects. -/
  unsafeLevels : Finset Nat
  credit : Nat
  serviceDue : Nat
  root : Routes P
  query : MainPointer P
  published : RedundantSnapshot P
  work : RedundantWork
  failed : Bool
  recovery : Bool
  checkpointPending : Bool
  changed : Bool

/-- `storage.singleton`. -/
def nativeSingleton (record : ProfileRecord) : Result (NativeArray P) := do
  let writer ← NativeWriter.start P
  let writer ← writer.append P record
  let (_, frames) ← writer.finish
  NativeArray.fromOwned P frames

variable {P}

/-- `augmented` of a pointer. -/
def augmentedPointer (object : Option (RedundantObject P)) : Nat :=
  (object.map RedundantObject.augmented).getD 0

/-- `target.main->pair`, absent without a main target. -/
def RedundantRoutes.mainPair (routes : Routes P) : MainPointer P :=
  (routes.main.map RedundantObject.pair).getD []

/-- `target.secondary->native`, absent without a secondary target. -/
def RedundantRoutes.secondaryNative (routes : Routes P) : Option (Shared (NativeArray P)) :=
  routes.secondary.map RedundantObject.native

namespace RedundantJobRecipe

/-- Routes from the level of a job once its output is active. -/
def target (recipe : RedundantJobRecipe P) : Routes P :=
  if recipe.newMain then ⟨recipe.output, none⟩ else ⟨recipe.existingMain, recipe.output⟩

/-- `index_targets`. -/
def indexTargets (recipe : RedundantJobRecipe P) : Routes P :=
  if recipe.stage = .destinationIndex then recipe.destinationRoute
  else recipe.target

end RedundantJobRecipe

namespace ColaIndexBuilder

/-- Step a builder by single occurrences until it is done. -/
def stepToEnd : Nat → ColaIndexBuilder P → Result (ColaIndexBuilder P)
  | 0, builder => .ok builder
  | fuel + 1, builder =>
      if builder.done then .ok builder
      else do
        let (builder, _) ← builder.step 1
        stepToEnd fuel builder

/-- Occurrences which a builder over some sources has to account for. -/
def extent (native : Shared (NativeArray P)) (main : MainPointer P)
    (secondary : Option (Shared (NativeArray P))) : Nat :=
  native.value.size + main.groupCount + secondaryCount P secondary

end ColaIndexBuilder

namespace Execution

/-! ## Slots -/

/-- Replace one slot. -/
def setSlot (e : Execution P) (level : Nat) (position : Fin 3) (slot : RedundantSlot P) :
    Execution P :=
  { e with
    levels := Function.update e.levels level
      { e.levels level with slots := Function.update (e.levels level).slots position slot } }

/-- Replace the job of a level. -/
def setJob (e : Execution P) (level : Nat) (job : Option (RedundantJobRecipe P)) : Execution P :=
  { e with levels := Function.update e.levels level { e.levels level with job } }

/-- Replace the worker of a level. -/
def setWorker (e : Execution P) (level : Nat) (worker : Option (RedundantWorker P)) :
    Execution P :=
  { e with workers := Function.update e.workers level worker }

/-- Record what a level received last. -/
def setDestination (e : Execution P) (level identity : Nat) (visible : Bool) : Execution P :=
  { e with
    levels := Function.update e.levels level
      { e.levels level with lastDestination := identity, lastDestinationVisible := visible } }

/-- Positions of the slots in some state. -/
def positions (e : Execution P) (level : Nat) (state : RedundantSlotState) : List (Fin 3) :=
  [0, 1, 2].filter fun position => ((e.levels level).slots position).state = state

/-- First admission of the object in a slot. -/
def firstOf (e : Execution P) (level : Nat) (position : Fin 3) : Nat :=
  (((e.levels level).slots position).object.map RedundantObject.first).getD 0

/-- `active`: positions of the active slots, the older object first. -/
def active (e : Execution P) (level : Nat) : Result (List (Fin 3)) :=
  match e.positions level .active with
  | [] => .ok []
  | [position] => .ok [position]
  | [one, two] =>
      .ok (if e.firstOf level two < e.firstOf level one then [two, one] else [one, two])
  | _ => .error "too many active redundant slots"

/-- `find`. -/
def find (e : Execution P) (level : Nat) (state : RedundantSlotState) : Option (Fin 3) :=
  (e.positions level state).head?

/-- `vacant`. -/
def vacant (e : Execution P) (level : Nat) : Result (Fin 3) :=
  demand (e.find level .empty) "no redundant shadow slot"

/-- Whether no job and at most one active object keep level zero from admitting. -/
def entryOpen (e : Execution P) : Bool :=
  (e.levels 0).job.isNone && decide ((e.positions 0 .active).length < 2)

/-- `ready`. -/
def ready (e : Execution P) : Bool :=
  ! (e.failed || e.recovery || e.checkpointPending || e.serviceDue ≠ 0) && e.entryOpen

/-- `refresh`: decide whether a level is unsafe. -/
def refresh (e : Execution P) (level : Nat) : Result (Execution P) := do
  let entries ← e.active level
  .ok { e with
    unsafeLevels :=
      if (e.levels level).job.isSome = true ∨ entries.length = 2 then insert level e.unsafeLevels
      else e.unsafeLevels.erase level }

/-! ## Charges -/

/-- `checkpoint_price`. -/
def checkpointPrice (e : Execution P) : Nat := 8 * e.height + 16

/-- `visibility_price`. -/
def visibilityPrice (e : Execution P) : Nat := 6 * e.height + 8

/-- `tally`. -/
def tally (e : Execution P) (amount : Nat) : Result (Execution P) := do
  let charged ← ProfileDetail.add e.work.charged amount
  .ok { e with work := { e.work with charged } }

/-- `direct`: grant and charge at once. -/
def direct (e : Execution P) (amount : Nat) : Result (Execution P) := do
  let granted ← ProfileDetail.add e.work.granted amount
  let e ← e.tally amount
  .ok { e with work := { e.work with granted } }

/-- `grant`. -/
def grant (e : Execution P) (amount : Nat) : Result (Execution P) := do
  let credit ← ProfileDetail.add e.credit amount
  let granted ← ProfileDetail.add e.work.granted amount
  .ok { e with credit, work := { e.work with granted } }

/-! ## Objects and indexes -/

/-- Give an array an address. -/
def shareNative (e : Execution P) (native : NativeArray P) :
    Execution P × Shared (NativeArray P) :=
  ({ e with allocated := e.allocated + 1 }, ⟨e.allocated, native⟩)

/-- `from_built`: give an index an address and hang it before its main target. -/
def shareNode (e : Execution P) (index : ColaIndex P) (main : MainPointer P) :
    Execution P × MainPointer P :=
  ({ e with allocated := e.allocated + 1 }, ⟨e.allocated, index⟩ :: main)

/-- `object`: allocate an object under the next identity, which is its address as well. -/
def object (e : Execution P) (native : Shared (NativeArray P)) (pair : MainPointer P)
    (next : Routes P) (level first last : Nat) : Execution P × RedundantObject P :=
  ({ e with nextIdentity := e.nextIdentity + 1 },
    ⟨e.nextIdentity, e.nextIdentity, first, last, level, native, pair, next⟩)

/-- Build the node of an index at once. -/
def buildNode (e : Execution P) (native : Shared (NativeArray P)) (main : MainPointer P)
    (secondary : Option (Shared (NativeArray P))) : Result (Execution P × MainPointer P) := do
  let builder ← ColaIndexBuilder.start native main secondary
  let builder ← builder.stepToEnd (ColaIndexBuilder.extent native main secondary + 1)
  let (_, index) ← builder.finish
  .ok (e.shareNode index main)

/-- `build_index`. -/
def buildIndex (e : Execution P) (native : Shared (NativeArray P)) (target : Routes P) :
    Result (Execution P × MainPointer P) :=
  e.buildNode native target.mainPair target.secondaryNative

/-- The loop of `prepare_root`: index the root until it has one group. -/
def prepareRootLoop : Nat → Execution P → MainPointer P → Option (Shared (NativeArray P)) →
    Result (Execution P × MainPointer P)
  | 0, e, main, _ => .ok (e, main)
  | fuel + 1, e, main, secondary => do
      let (e, main) ← e.buildNode e.emptyNative main secondary
      if P.groupSize < main.virtualSize then prepareRootLoop fuel e main none
      else .ok (e, main)

/-- `prepare_root`. -/
def prepareRoot (e : Execution P) (main : MainPointer P)
    (secondary : Option (Shared (NativeArray P))) : Result (Execution P × MainPointer P) :=
  if main.isEmpty = true then .ok (e, e.emptyPair)
  else if secondary.isNone = true ∧ main.virtualSize ≤ P.groupSize then .ok (e, main)
  else prepareRootLoop
    (main.virtualSize + ((secondary.map fun leaf => leaf.value.size).getD 0) + 1) e main secondary

/-! ## Publication -/

/-- Positions where a level holds an object. -/
def holders (e : Execution P) (object : RedundantObject P) : List (Fin 3) :=
  [0, 1, 2].filter fun position =>
    ((e.levels object.level).slots position).object.map RedundantObject.address =
      some object.address

/-- `mark` of `visibility`, with the slots which were seen before. -/
def mark (state : Execution P × Finset (Nat × Fin 3)) (object : RedundantObject P) :
    Result (Execution P × Finset (Nat × Fin 3)) := do
  let (e, visible) := state
  require (object.level < e.height) "visible redundant level out of range"
  let holders := e.holders object
  require (∀ position ∈ holders, (object.level, position) ∉ visible)
    "repeated visible redundant object"
  require (holders ≠ []) "visible redundant object escaped slots"
  let level := e.levels object.level
  let marked : RedundantLevel P := { level with
    slots := fun position =>
      if position ∈ holders then { level.slots position with everVisible := true }
      else level.slots position
    lastDestinationVisible :=
      level.lastDestinationVisible || level.lastDestination = object.identity }
  .ok ({ e with levels := Function.update e.levels object.level marked },
    visible ∪ (holders.map fun position => (object.level, position)).toFinset)

/-- What a slot becomes when the snapshot in preparation shows some slots. -/
def release (visible : Finset (Nat × Fin 3)) (level : Nat) (position : Fin 3)
    (slot : RedundantSlot P) : RedundantSlot P :=
  if slot.state = .consumed ∧ slot.everVisible = true ∧ (level, position) ∉ visible then
    .vacant P
  else slot

/-- Release the consumed slots which the snapshot in preparation does not show. -/
def releaseSlots (e : Execution P) (visible : Finset (Nat × Fin 3)) : Execution P :=
  { e with
    levels := fun level =>
      let slots := fun position =>
        release visible level position ((e.levels level).slots position)
      if level < e.height then { e.levels level with slots } else e.levels level }

/-- Objects reachable from the root, main target first. -/
def reachable (root : Routes P) : List (RedundantObject P) :=
  RedundantObject.visitPointer root.main ++ RedundantObject.visitPointer root.secondary

/-- `visibility`: release what the root no longer shows, and prepare the query root. -/
def visibility (e : Execution P) : Result (Execution P) := do
  let (e, visible) ← (reachable e.root).foldlM mark (e, ∅)
  let e := e.releaseSlots visible
  let (e, prepared) ← e.prepareRoot e.root.mainPair e.root.secondaryNative
  let query ← adoptPrepared prepared
  .ok { e with query, changed := true }

/-- The frontier which a checkpoint captures. -/
def frontier (e : Execution P) : RedundantFrontier P where
  admissions := e.admissions
  nextIdentity := e.nextIdentity
  serviceDue := e.serviceDue
  root := e.root
  levels := (List.range e.height).map e.levels

/-- Objects reachable from the root which cover admissions, oldest first. -/
def history (root : Routes P) : List (RedundantObject P) :=
  (RedundantObject.walkPointer root.main ++ RedundantObject.walkPointer root.secondary).filter
    fun object => object.mass ≠ 0

/-- Chronological runs without gaps, from one admission to the end of the last run. -/
def chronology (error : String) : Nat → List (RedundantObject P) → Result Nat
  | next, [] => .ok next
  | next, run :: runs => do
      require (run.first = next) error
      chronology error run.last runs

/-- `checkpoint`: publish the current frontier. -/
def checkpoint (e : Execution P) : Result (Execution P) := do
  let settled : Bool := e.unsafeLevels = ∅
  let e := { e with serviceDue := if settled then 0 else e.serviceDue }
  let runs := history e.root
  let next ← chronology "redundant history gap or overlap" 0 runs
  require (next = e.admissions) "redundant checkpoint omits admissions"
  .ok { e with
    published := ⟨e.frontier, e.query, runs⟩
    checkpointPending := false
    changed := false
    recovery := e.recovery && ! settled
    credit := if settled then 0 else e.credit }

/-! ## Admission -/

/-- The slot for an admission to a level without active objects, and the route found there. -/
def entrySlot (e : Execution P) : Result (Fin 3 × Routes P) :=
  match e.find 0 .rootCarrier with
  | some position => .ok (position, ((e.levels 0).slots position).route)
  | none => do
      let position ← e.vacant 0
      .ok (position, .none)

/-- The route which the next main object of level zero will have. -/
def entryRoute (e : Execution P) : Routes P :=
  match e.find 0 .rootCarrier with
  | some position => ((e.levels 0).slots position).route
  | none => .none

/-- `admission_price`. -/
def admissionPrice (e : Execution P) : Result Nat := do
  let entries ← e.active 0
  let base := 12 + (e.checkpointPrice + e.visibilityPrice)
  match entries with
  | position :: _ =>
      .ok (base + rootPrice P (augmentedPointer ((e.levels 0).slots position).object) 1)
  | [] =>
      let main := augmentedPointer e.entryRoute.main
      let secondary := augmentedPointer e.entryRoute.secondary
      .ok (base + indexPrice P 1 main secondary +
        rootPrice P (1 + (ceilDiv main P.groupSize + ceilDiv secondary P.groupSize)) 0)

/-- Allocate the object of an admission and where it goes. -/
def admitObject (e : Execution P) (native : Shared (NativeArray P)) (entries : List (Fin 3)) :
    Result (Execution P × RedundantObject P × Fin 3) :=
  match entries with
  | _ :: _ => do
      let position ← e.vacant 0
      let (e, value) := e.object native [] .none 0 e.admissions (e.admissions + 1)
      .ok (e, value, position)
  | [] => do
      let (position, route) ← e.entrySlot
      let (e, pair) ← e.buildIndex native route
      let (e, value) := e.object native pair route 0 e.admissions (e.admissions + 1)
      .ok (e, value, position)

/-- `admit`. -/
def admitRecord (e : Execution P) (record : ProfileRecord) : Result (Execution P) := do
  require (e.ready = true) "redundant admission is not ready"
  let price ← e.admissionPrice
  let e ← e.direct price
  let native ← nativeSingleton P record
  let (e, native) := e.shareNative native
  let entries ← e.active 0
  let (e, value, position) ← e.admitObject native entries
  let e := e.setSlot 0 position (.holding P value)
  let e := { e with
    root := if entries.isEmpty then ⟨some value, none⟩ else ⟨e.root.main, some value⟩
    admissions := e.admissions + 1
    work := { e.work with admissions := e.work.admissions + 1 } }
  let e ← e.refresh 0
  let e := { e with
    serviceDue := if e.unsafeLevels = ∅ then 0 else serviceBudget P e.admissions }
  let e ← e.visibility
  e.checkpoint

/-! ## Jobs -/

/-- `selected`: the lowest unsafe level. -/
def selected (e : Execution P) : Result Nat :=
  if unsafe_levels : e.unsafeLevels.Nonempty then .ok (e.unsafeLevels.min' unsafe_levels)
  else .error "no unsafe redundant level"

/-- Object of an input of a job. -/
def source (e : Execution P) (level : Nat) (recipe : RedundantJobRecipe P) (newer : Bool) :
    Result (RedundantObject P) :=
  demand ((e.levels level).slots (recipe.inputs newer)).object "null redundant object"

/-- Price of the next action of a worker. -/
def actionPrice (e : Execution P) (level : Nat) (recipe : RedundantJobRecipe P)
    (worker : RedundantWorker P) : Result Nat :=
  match worker.next with
  | .nativeStart => .ok 3
  | .nativeStep => .ok 3
  | .nativeFinish => do
      let merge ← demand worker.merge "null redundant merge"
      .ok (ceilDiv merge.progress.keys P.codecBlockSize + 2)
  | .indexStart => .ok 5
  | .indexStep => .ok (P.groupSize + 6)
  | .indexFinish =>
      let target := recipe.indexTargets
      .ok (5 + (ceilDiv (ceilDiv (augmentedPointer target.main) P.groupSize) P.codecBlockSize +
        ceilDiv (ceilDiv (augmentedPointer target.secondary) P.groupSize) P.codecBlockSize))
  | .commit =>
      if level ≠ 0 then .ok 8
      else .ok (8 + (e.visibilityPrice + rootPrice P recipe.carrier.virtualSize 0))

/-- Price of the next step on a level. -/
def levelPrice (e : Execution P) (level : Nat) : Result Nat :=
  match (e.levels level).job with
  | none => .ok 8
  | some recipe => do
      let worker ← demand (e.workers level) "null redundant worker"
      e.actionPrice level recipe worker

/-- `price`. -/
def price (e : Execution P) : Result Nat :=
  if e.checkpointPending = true then .ok e.checkpointPrice
  else if e.unsafeLevels = ∅ then .ok 0
  else do
    let level ← e.selected
    e.levelPrice level

/-- Main object of a destination level with one active object. -/
def destinationMain (e : Execution P) (level : Nat) (present : List (Fin 3)) :
    Result (Option (RedundantObject P)) :=
  match present with
  | [] => .ok none
  | position :: _ => do
      let main ← demand ((e.levels level).slots position).object "null redundant object"
      require (main.secondary = false) "single destination is secondary"
      .ok (some main)

/-- Slot which a job delivers to: the ready carrier, or a vacant one. -/
def destinationSlot (e : Execution P) (level : Nat) : Result (Fin 3) :=
  match e.find level .carrierReady with
  | some position => .ok position
  | none => e.vacant level

/-- `begin`: reserve the slots of a merge of two active objects. -/
def begin (e : Execution P) (level : Nat) : Result (Execution P) := do
  let input ← e.active level
  require (input.length = 2) "redundant merge needs two active inputs"
  require (level + 1 < maximumLevels) "redundant admission mass overflow"
  let e := { e with height := if level + 1 = e.height then e.height + 1 else e.height }
  require (level + 1 ∉ e.unsafeLevels) "adjacent unsafe redundant levels"
  let destination := e.levels (level + 1)
  require (destination.lastDestination = 0 ∨ destination.lastDestinationVisible = true)
    "destination reused before visibility"
  let carrier := e.find (level + 1) .carrierReady
  let position ← e.destinationSlot (level + 1)
  let present ← e.active (level + 1)
  require (present.length ≤ 1 ∧ (carrier.isSome = true → present = []))
    "invalid destination occupancy"
  let inputs := fun newer : Bool => input.getD newer.toNat 0
  let older ← demand ((e.levels level).slots (inputs false)).object "null redundant object"
  let newer ← demand ((e.levels level).slots (inputs true)).object "null redundant object"
  require (older.last = newer.first ∧ older.mass = 2 ^ level ∧ newer.mass = 2 ^ level)
    "nonadjacent redundant merge history"
  let carrierSlot ← e.vacant level
  let existingMain ← e.destinationMain (level + 1) present
  let recipe : RedundantJobRecipe P := {
    inputs
    destination := position
    carrierSlot
    newMain := carrier.isSome || present.isEmpty
    destinationRoute := if carrier.isSome then (destination.slots position).route else .none
    existingMain
    output := none
    merged := none
    carrier := []
    stage := .nativeMerge }
  let e := e.setSlot level carrierSlot ⟨.carrierBuilding, none, .none, [], false⟩
  let e := e.setSlot (level + 1) position { destination.slots position with state := .reserved }
  let e := e.setJob level (some recipe)
  let e := e.setWorker level (some ⟨.nativeStart, none, none, 8⟩)
  .ok { e with changed := true }

/-- `complete_native`: a secondary output is complete, a main one needs its index. -/
def completeNative (e : Execution P) (level : Nat) (recipe : RedundantJobRecipe P)
    (worker : RedundantWorker P) (native : Shared (NativeArray P)) : Result (Execution P) := do
  let worker := { worker with next := .indexStart }
  if recipe.newMain = true then
    let e := e.setJob level (some { recipe with merged := some native, stage := .destinationIndex })
    .ok { e.setWorker level (some worker) with changed := true }
  else do
    let older ← e.source level recipe false
    let newer ← e.source level recipe true
    let (e, output) := e.object native [] .none (level + 1) older.first newer.last
    let slot := (e.levels (level + 1)).slots recipe.destination
    let e := e.setSlot (level + 1) recipe.destination { slot with object := some output }
    let e := e.setJob level
      (some { recipe with merged := some native, output := some output, stage := .carrierIndex })
    .ok { e.setWorker level (some worker) with changed := true }

/-- `native_start`. -/
def nativeStart (e : Execution P) (level : Nat) (recipe : RedundantJobRecipe P)
    (worker : RedundantWorker P) : Result (Execution P) := do
  let older ← e.source level recipe false
  let newer ← e.source level recipe true
  let merge ← NativeMerge.start e.composition older.native.value newer.native.value
  let next := if merge.done then .nativeFinish else .nativeStep
  .ok (e.setWorker level (some { worker with merge := some merge, next }))

/-- `native_step`. -/
def nativeStep (e : Execution P) (level : Nat) (worker : RedundantWorker P) :
    Result (Execution P) := do
  let merge ← demand worker.merge "null redundant merge"
  let (merge, _) ← merge.step 1
  let next := if merge.done then .nativeFinish else worker.next
  .ok (e.setWorker level (some { worker with merge := some merge, next }))

/-- `native_finish`. -/
def nativeFinish (e : Execution P) (level : Nat) (recipe : RedundantJobRecipe P)
    (worker : RedundantWorker P) : Result (Execution P) := do
  let merge ← demand worker.merge "null redundant merge"
  let (_, frames) ← merge.finish
  let native ← NativeArray.fromOwned P frames
  let (e, native) := e.shareNative native
  e.completeNative level recipe { worker with merge := none } native

/-- Native array of the index which a job builds next. -/
def indexNative (e : Execution P) (recipe : RedundantJobRecipe P) :
    Result (Shared (NativeArray P)) :=
  if recipe.stage = .destinationIndex then demand recipe.merged "null native array"
  else .ok e.emptyNative

/-- `index_start`. -/
def indexStart (e : Execution P) (level : Nat) (recipe : RedundantJobRecipe P)
    (worker : RedundantWorker P) : Result (Execution P) := do
  let target := recipe.indexTargets
  let native ← e.indexNative recipe
  let index ← ColaIndexBuilder.start native target.mainPair target.secondaryNative
  let next := if index.done then .indexFinish else .indexStep
  .ok (e.setWorker level (some { worker with index := some index, next }))

/-- `index_step`. -/
def indexStep (e : Execution P) (level : Nat) (worker : RedundantWorker P) :
    Result (Execution P) := do
  let index ← demand worker.index "null redundant index"
  let (index, _) ← index.step 1
  let next := if index.done then .indexFinish else worker.next
  .ok (e.setWorker level (some { worker with index := some index, next }))

/-- Deliver a main output once its index is complete. -/
def completeDestination (e : Execution P) (level : Nat) (recipe : RedundantJobRecipe P)
    (worker : RedundantWorker P) (pair : MainPointer P) : Result (Execution P) := do
  let merged ← demand recipe.merged "null native array"
  let older ← e.source level recipe false
  let newer ← e.source level recipe true
  let (e, output) :=
    e.object merged pair recipe.destinationRoute (level + 1) older.first newer.last
  let slot := (e.levels (level + 1)).slots recipe.destination
  let e := e.setSlot (level + 1) recipe.destination { slot with object := some output }
  let e := e.setJob level (some { recipe with output := some output, stage := .carrierIndex })
  .ok { e.setWorker level (some { worker with index := none, next := .indexStart }) with
    changed := true }

/-- `index_finish`. -/
def indexFinish (e : Execution P) (level : Nat) (recipe : RedundantJobRecipe P)
    (worker : RedundantWorker P) : Result (Execution P) := do
  let index ← demand worker.index "null redundant index"
  let (closed, built) ← index.finish
  let (e, pair) := e.shareNode built closed.main
  if recipe.stage = .destinationIndex then e.completeDestination level recipe worker pair
  else
    let e := e.setJob level (some { recipe with carrier := pair, stage := .commit })
    .ok { e.setWorker level (some { worker with index := none, next := .commit }) with
      changed := true }

/-- Show the output of a merge on level zero through a root carrier. -/
def commitRoot (e : Execution P) (recipe : RedundantJobRecipe P) : Result (Execution P) := do
  let target := recipe.target
  let (e, value) := e.object e.emptyNative recipe.carrier target 0 0 0
  let e := e.setSlot 0 recipe.carrierSlot ⟨.rootCarrier, some value, target, [], false⟩
  let e ← { e with root := ⟨some value, none⟩ }.visibility
  .ok { e with checkpointPending := true }

/-- `commit`: consume the inputs and activate the output and its carrier. -/
def commit (e : Execution P) (level : Nat) (recipe : RedundantJobRecipe P)
    (worker : RedundantWorker P) : Result (Execution P) := do
  require (ceilDiv worker.charged (2 ^ level) ≤ localChargeBound P)
    "redundant local structural bound exceeded"
  let output ← demand recipe.output "null redundant object"
  let consume := fun (e : Execution P) (position : Fin 3) =>
    e.setSlot level position { (e.levels level).slots position with state := .consumed }
  let e := consume (consume e (recipe.inputs false)) (recipe.inputs true)
  let target := recipe.target
  let e := e.setSlot level recipe.carrierSlot ⟨.carrierReady, none, target, recipe.carrier, false⟩
  let e := e.setSlot (level + 1) recipe.destination (.holding P output)
  let e := e.setDestination (level + 1) output.identity false
  let e := (e.setJob level none).setWorker level none
  let e ← e.refresh level
  let e ← e.refresh (level + 1)
  let e := { e with changed := true }
  if level = 0 then e.commitRoot recipe
  else .ok { e with checkpointPending := e.checkpointPending || e.unsafeLevels = ∅ }

/-- `perform`: the next action of a level. -/
def perform (e : Execution P) (level : Nat) : Result (Execution P) :=
  match (e.levels level).job with
  | none => e.begin level
  | some recipe => do
      let worker ← demand (e.workers level) "null redundant worker"
      match worker.next with
      | .nativeStart => e.nativeStart level recipe worker
      | .nativeStep => e.nativeStep level worker
      | .nativeFinish => e.nativeFinish level recipe worker
      | .indexStart => e.indexStart level recipe worker
      | .indexStep => e.indexStep level worker
      | .indexFinish => e.indexFinish level recipe worker
      | .commit => e.commit level recipe worker

/-- Charge the worker of a level, if it has one. -/
def chargeWorker (e : Execution P) (level amount : Nat) : Execution P :=
  match e.workers level with
  | none => e
  | some worker => e.setWorker level (some { worker with charged := worker.charged + amount })

/-- Spend credit. -/
def spend (e : Execution P) (amount : Nat) : Result (Execution P) := do
  let e ← e.tally amount
  .ok { e with credit := e.credit - amount }

/-- One iteration of the loop of `serve`, for a price which the credit covers. -/
def serveOne (e : Execution P) (amount : Nat) : Result (Execution P) :=
  if e.checkpointPending = true then do
    let e ← e.spend amount
    e.checkpoint
  else do
    let level ← e.selected
    let e ← e.spend amount
    (e.chargeWorker level amount).perform level

/-- The loop of `serve`; every iteration spends credit. -/
def serveLoop : Nat → Execution P → Result (Execution P)
  | 0, e => .ok e
  | fuel + 1, e =>
      if e.unsafeLevels = ∅ ∧ e.checkpointPending = false then .ok e
      else do
        let amount ← e.price
        if e.credit < amount then .ok e
        else do
          let e ← e.serveOne amount
          serveLoop fuel e

/-- Forget credit and obligations once everything is settled. -/
def settle (e : Execution P) : Execution P :=
  if e.unsafeLevels = ∅ ∧ e.checkpointPending = false then
    { e with recovery := false, credit := 0, serviceDue := 0 }
  else e

/-- `serve`: work as far as the credit goes. -/
def serve (e : Execution P) : Result (Execution P) := do
  let e ← serveLoop (e.credit + 1) e
  .ok e.settle

end Execution

end Everett

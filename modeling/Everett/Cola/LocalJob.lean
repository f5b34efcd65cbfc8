import Everett.Cola.Assembly
import Everett.Native.Union

/-!
# Local merge jobs

A local job merges two native arrays, indexes the merged one over its destination and builds a
carrier on top, in stages which the caller steps and finishes one by one.  A rejected call leaves
the job as it is; a stage which throws poisons it.
-/

namespace Everett

open Outcome

variable (P : StoragePolicy)

/-- `cola_destination_kind`. -/
inductive ColaDestinationKind
  | main
  | secondary
  deriving DecidableEq, Repr

/-- `cola_merge_phase` of a job which was not moved from. -/
inductive ColaMergePhase
  | nativeMerge
  | destinationIndex
  | carrierIndex
  | ready
  | taken
  deriving DecidableEq, Repr

/-- `cola_destination_plan`: a secondary target stands beside a main one, and a new secondary array
joins an existing main chain. -/
structure ColaDestinationPlan where
  kind : ColaDestinationKind
  mainTarget : MainPointer P
  secondaryTarget : Option (Shared (NativeArray P))
  beside : mainTarget = [] → secondaryTarget = none
  joins : kind = .secondary → mainTarget ≠ [] ∧ secondaryTarget = none

namespace ColaDestinationPlan

variable {P}

/-- `for_main`. -/
def forMain (main : MainPointer P) (secondary : Option (Shared (NativeArray P))) :
    Result (ColaDestinationPlan P) :=
  if beside : main = [] → secondary = none then
    .ok ⟨.main, main, secondary, beside, fun other => ColaDestinationKind.noConfusion other⟩
  else .error "COLA destination secondary requires a main"

/-- `for_secondary`. -/
def forSecondary (main : MainPointer P) : Result (ColaDestinationPlan P) :=
  if some_main : main ≠ [] then
    .ok ⟨.secondary, main, none, fun _ => rfl, fun _ => ⟨some_main, rfl⟩⟩
  else .error "COLA secondary destination requires an existing main"

end ColaDestinationPlan

/-- `cola_local_merge_result`. -/
structure ColaLocalMergeResult where
  mergedNative : Option (Shared (NativeArray P))
  main : MainPointer P
  secondary : Option (Shared (NativeArray P))
  carrier : MainPointer P

/-- `cola_local_merge_job`. -/
structure ColaLocalMergeJob where
  plan : ColaDestinationPlan P
  merge : Option (NativeMerge P)
  index : Option (ColaIndexBuilder P)
  merged : Option (Shared (NativeArray P))
  main : MainPointer P
  secondary : Option (Shared (NativeArray P))
  carrier : MainPointer P
  phase : ColaMergePhase
  failed : Bool
  /-- Address of the next allocation. -/
  allocated : Nat

namespace ColaLocalMergeJob

variable {P}

/-- Open a job over two inputs, the older one first. -/
def start (composition : Composition P) (older newer : NativeArray P)
    (plan : ColaDestinationPlan P) (allocated : Nat) : Result (ColaLocalMergeJob P) := do
  let merge ← NativeMerge.start composition older newer
  .ok ⟨plan, some merge, none, none, [], none, [], .nativeMerge, false, allocated⟩

/-- `finished()`. -/
def finished (job : ColaLocalMergeJob P) : Bool := job.phase = .taken

/-- `done()`. -/
def done (job : ColaLocalMergeJob P) : Bool := ! job.failed && job.phase = .ready

/-- `stage_done()`. -/
def stageDone (job : ColaLocalMergeJob P) : Bool :=
  if job.failed || job.finished then false
  else match job.phase with
    | .nativeMerge => job.merge.any NativeMerge.done
    | .destinationIndex => job.index.any ColaIndexBuilder.done
    | .carrierIndex => job.index.any ColaIndexBuilder.done
    | .ready => true
    | .taken => false

/-- Run a part of a job; an error poisons it. -/
def attempt {α : Type} (job : ColaLocalMergeJob P) (part : Result (ColaLocalMergeJob P × α)) :
    ColaLocalMergeJob P × Result α :=
  match part with
  | .ok (next, answer) => (next, .ok answer)
  | .error text => ({ job with failed := true }, .error text)

/-- `require_active`, and what follows it. -/
def whenActive {α : Type} (job : ColaLocalMergeJob P) (call : ColaLocalMergeJob P × Result α) :
    ColaLocalMergeJob P × Result α :=
  if job.failed || job.finished then (job, .error "COLA local merge is no longer active") else call

/-- Step the builder of the current stage. -/
def stepStage (job : ColaLocalMergeJob P) (budget : Nat) : Result (ColaLocalMergeJob P × Nat) :=
  match job.phase with
  | .nativeMerge => do
      let merge ← demand job.merge "null native merge"
      let (merge, work) ← merge.step budget
      .ok ({ job with merge := some merge }, work.keys)
  | .destinationIndex => do
      let index ← demand job.index "null COLA builder"
      let (index, consumed) ← index.step budget
      .ok ({ job with index := some index }, consumed)
  | .carrierIndex => do
      let index ← demand job.index "null COLA builder"
      let (index, consumed) ← index.step budget
      .ok ({ job with index := some index }, consumed)
  | .ready => .ok (job, 0)
  | .taken => .ok (job, 0)

/-- `step`: spend a budget on the current stage only. -/
def step (job : ColaLocalMergeJob P) (budget : Nat) : ColaLocalMergeJob P × Result Nat :=
  job.whenActive (job.attempt (job.stepStage budget))

/-- `start_carrier`: open the builder of an empty array over the destination. -/
def startCarrier (job : ColaLocalMergeJob P) : Result (ColaLocalMergeJob P × Unit) := do
  let empty : Shared (NativeArray P) := ⟨job.allocated, .empty⟩
  let index ← ColaIndexBuilder.start empty job.main job.secondary
  .ok ({ job with index := some index, phase := .carrierIndex, allocated := job.allocated + 1 }, ())

/-- Finish the native merge and open the index of its destination. -/
def finishMerge (job : ColaLocalMergeJob P) : Result (ColaLocalMergeJob P × Unit) := do
  let merge ← demand job.merge "null native merge"
  let (_, frames) ← merge.finish
  let native ← NativeArray.fromOwned P frames
  let merged : Shared (NativeArray P) := ⟨job.allocated, native⟩
  let job := { job with merged := some merged, merge := none, allocated := job.allocated + 1 }
  match job.plan.kind with
  | .main => do
      let index ← ColaIndexBuilder.start merged job.plan.mainTarget job.plan.secondaryTarget
      .ok ({ job with index := some index, phase := .destinationIndex }, ())
  | .secondary => startCarrier { job with main := job.plan.mainTarget, secondary := some merged }

/-- Finish the open index into a node before its main target. -/
def finishIndex (job : ColaLocalMergeJob P) :
    Result (ColaLocalMergeJob P × MainPointer P) := do
  let index ← demand job.index "null COLA builder"
  let (closed, built) ← index.finish
  .ok ({ job with index := none, allocated := job.allocated + 1 },
    ⟨job.allocated, built⟩ :: closed.main)

/-- Finish the current stage and open the next one. -/
def completeStage (job : ColaLocalMergeJob P) : Result (ColaLocalMergeJob P × Unit) :=
  match job.phase with
  | .nativeMerge => job.finishMerge
  | .destinationIndex => do
      let (job, main) ← job.finishIndex
      startCarrier { job with main }
  | .carrierIndex => do
      let (job, carrier) ← job.finishIndex
      .ok ({ job with carrier, phase := .ready }, ())
  | .ready => .ok (job, ())
  | .taken => .ok (job, ())

/-- `finish_stage`. -/
def finishStage (job : ColaLocalMergeJob P) : ColaLocalMergeJob P × Result Unit :=
  job.whenActive
    (if job.phase = .ready ∨ job.stageDone = false then
      (job, .error "COLA local stage is not ready for finalization")
    else job.attempt job.completeStage)

/-- `finish`: hand out what the job has built. -/
def finish (job : ColaLocalMergeJob P) : ColaLocalMergeJob P × Result (ColaLocalMergeResult P) :=
  job.whenActive
    (if job.done = false then (job, .error "COLA local merge is not ready")
    else ({ job with phase := .taken, merged := none, main := [], secondary := none, carrier := [] },
      .ok ⟨job.merged, job.main, job.secondary, job.carrier⟩))

end ColaLocalMergeJob

/-- A call of a job. -/
inductive ColaLocalMergeCall
  | step (budget : Nat)
  | finishStage
  | finish

namespace ColaLocalMergeJob

variable {P}

/-- The job after a call, whatever the call answers. -/
def after (job : ColaLocalMergeJob P) : ColaLocalMergeCall → ColaLocalMergeJob P
  | .step budget => (job.step budget).1
  | .finishStage => job.finishStage.1
  | .finish => job.finish.1

/-- The job after some calls in order. -/
def afterAll (job : ColaLocalMergeJob P) (calls : List ColaLocalMergeCall) : ColaLocalMergeJob P :=
  calls.foldl after job

end ColaLocalMergeJob

end Everett

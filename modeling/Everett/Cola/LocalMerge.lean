import Everett.Cola.LocalJob
import Everett.Redundant.Preparation

/-!
# Local merges preserve history

However a local job is stepped, it goes through its stages without failing.  Queries through the
carrier which it delivers find the composed value of its inputs and everything which the targets of
its plan held before.
-/

namespace Everett

open Word Outcome

variable {P : StoragePolicy}

namespace ColaDestinationPlan

variable (plan : ColaDestinationPlan P)

/-- Occurrences of the index of a new main destination. -/
def destinationSize (records : Nat) : Nat :=
  records + plan.mainTarget.groupCount + secondaryCount P plan.secondaryTarget

/-- Occurrences of the carrier over the destination. -/
def carrierSize (records : Nat) : Nat :=
  match plan.kind with
  | .main => ceilDiv (plan.destinationSize records) P.groupSize
  | .secondary => plan.mainTarget.groupCount + ceilDiv records P.groupSize

/-- Keys, occurrences and stages of a whole job. -/
def jobSize (records : Nat) : Nat :=
  records + 1 + (match plan.kind with
    | .main => plan.destinationSize records + 1
    | .secondary => 0) + plan.carrierSize records + 1

/-- Where a job puts what it merged: into a new main node, or beside the main target. -/
inductive Places (target : List (BitString × BitString)) : Option (Shared (NativeArray P)) →
    MainPointer P → Option (Shared (NativeArray P)) → Prop
  | main {merged : Shared (NativeArray P)} {main : MainPointer P} (kind : plan.kind = .main)
      (records : merged.value.records = target)
      (assembles : main.Assembles merged plan.mainTarget plan.secondaryTarget) :
      Places target (some merged) main none
  | secondary {merged : Shared (NativeArray P)} (kind : plan.kind = .secondary)
      (records : merged.value.records = target) (built : plan.mainTarget.Built) :
      Places target (some merged) plan.mainTarget (some merged)

variable {plan} {target : List (BitString × BitString)} {merged : Option (Shared (NativeArray P))}
  {main : MainPointer P} {secondary : Option (Shared (NativeArray P))}

theorem size_of_records {native : NativeArray P} (records : native.records = target) :
    native.size = target.length := by
  rw [← records, ProfileArray.length_records]

theorem Places.built (places : plan.Places target merged main secondary) : main.Built := by
  cases places with
  | main _ _ assembles => exact assembles.built
  | secondary _ _ built => exact built

/-- The size of the carrier is known from the plan and the number of merged records. -/
theorem Places.extent_eq (places : plan.Places target merged main secondary)
    {empty : Shared (NativeArray P)} (bare : empty.value.size = 0) :
    ColaIndexBuilder.extent empty main secondary = plan.carrierSize target.length := by
  cases places with
  | main kind records assembles =>
      rw [ColaIndexBuilder.extent, bare, MainPointer.groupCount_eq, assembles.virtualSize_eq,
        ColaIndexBuilder.extent, size_of_records records, carrierSize, kind, destinationSize]
      exact Nat.zero_add _
  | secondary kind records built =>
      rw [ColaIndexBuilder.extent, bare, carrierSize, kind, secondaryCount,
        size_of_records records, Nat.zero_add]

/-- The value of a key in an array is the one of its records. -/
theorem find_value {native : NativeArray P} (records : native.records = target)
    (query : BitString) : (native.find? query).map Prod.snd = valueAt query target := by
  have sorted := native.records_sorted
  rw [records] at sorted
  cases found : native.find? query with
  | none =>
      have absent := ProfileArray.find?_eq_none.mp found
      rw [Option.map_none, eq_comm, valueAt_eq_none, ← records, native.keys_records]
      exact absent
  | some hit =>
      obtain ⟨ordinal, value⟩ := hit
      obtain ⟨entry, here, same, rfl⟩ := ProfileArray.find?_eq_some.mp found
      rw [Option.map_some, eq_comm, valueAt_eq_some sorted, ← records]
      exact List.mem_map.mpr ⟨entry, List.mem_of_getElem? here, by rw [Entry.record, same]⟩

/-- Whether a match was found in an array, as the native or the secondary one of its node. -/
def FoundIn (array : Option (Shared (NativeArray P))) (hit : QueryMatch P) : Prop :=
  ∃ node rest, hit.source = node :: rest ∧
    (if hit.secondary then node.value.secondary else some node.value.native) = array

/-- The match of one array of a node, if it has one. -/
def matchIn (source : MainPointer P) (secondary : Bool) (found : Option (Nat × BitString)) :
    List (QueryMatch P) :=
  (found.map fun hit => ⟨source, secondary, hit.1, hit.2⟩).toList

section Matches

variable (node : Shared (ColaIndex P)) (rest : MainPointer P) (side : Bool)
  (found : Option (Nat × BitString)) (query : BitString)

theorem allMatches_cons : MainPointer.allMatches query (node :: rest) =
    matchIn (node :: rest) false (node.value.native.value.find? query) ++
      matchIn (node :: rest) true (node.value.secondary.bind fun leaf => leaf.value.find? query) ++
      MainPointer.allMatches query rest := rfl

theorem matchIn_none : matchIn (node :: rest) side none = [] := rfl

theorem matchIn_values : (matchIn (node :: rest) side found).map QueryMatch.value =
    (found.map Prod.snd).toList := by
  cases found <;> rfl

theorem matchIn_hits : (matchIn (node :: rest) side found).map
    (fun hit => (hit.ordinal, hit.value)) = found.toList := by
  cases found <;> rfl

theorem foundIn_matchIn {hit : QueryMatch P} (member : hit ∈ matchIn (node :: rest) side found) :
    FoundIn (if side then node.value.secondary else some node.value.native) hit := by
  rw [matchIn, Option.mem_toList, Option.map_eq_some_iff] at member
  obtain ⟨_, -, rfl⟩ := member
  exact ⟨node, rest, rfl, rfl⟩

end Matches

/-- The matches through a carrier: the composed value, and what the targets of the plan held. -/
theorem Places.allMatches (places : plan.Places target merged main secondary)
    {empty : Shared (NativeArray P)} (bare : empty.value.size = 0) {carrier : MainPointer P}
    (assembles : carrier.Assembles empty main secondary) (query : BitString) :
    ∃ own side, MainPointer.allMatches query carrier =
        own ++ side ++ MainPointer.allMatches query plan.mainTarget ∧
      own.map QueryMatch.value = (valueAt query target).toList ∧
      (∀ hit ∈ own, FoundIn merged hit) ∧
      side.map (fun hit => (hit.ordinal, hit.value)) =
        (plan.secondaryTarget.bind fun leaf => leaf.value.find? query).toList ∧
      ∀ hit ∈ side, FoundIn plan.secondaryTarget hit := by
  have none_empty : empty.value.find? query = none := by
    rw [ProfileArray.find?_eq_none, ProfileArray.keys, List.length_eq_zero_iff.mp bare]
    exact List.not_mem_nil
  obtain ⟨address, index, rfl, native_eq, secondary_eq, -⟩ := assembles.shape
  cases places with
  | @main merged _ kind records destination =>
      obtain ⟨below_address, below, rfl, below_native, below_secondary, -⟩ := destination.shape
      refine ⟨matchIn (⟨below_address, below⟩ :: plan.mainTarget) false
          (merged.value.find? query),
        matchIn (⟨below_address, below⟩ :: plan.mainTarget) true
          (plan.secondaryTarget.bind fun leaf => leaf.value.find? query), ?_, ?_, ?_, ?_, ?_⟩
      · rw [allMatches_cons, allMatches_cons, native_eq, secondary_eq, none_empty, Option.bind_none,
          below_native, below_secondary]
        rfl
      · rw [matchIn_values, find_value records]
      · intro hit member
        rw [← below_native]
        exact foundIn_matchIn _ _ _ _ member
      · exact matchIn_hits _ _ _ _
      · intro hit member
        rw [← below_secondary]
        exact foundIn_matchIn _ _ _ _ member
  | @secondary merged kind records built =>
      refine ⟨matchIn (⟨address, index⟩ :: plan.mainTarget) true (merged.value.find? query), [],
        ?_, ?_, ?_, ?_, by simp⟩
      · rw [allMatches_cons, native_eq, secondary_eq, none_empty, Option.bind_some, List.append_nil]
        rfl
      · rw [matchIn_values, find_value records]
      · intro hit member
        rw [← secondary_eq]
        exact foundIn_matchIn _ _ _ _ member
      · rw [(plan.joins kind).2]
        rfl

end ColaDestinationPlan

namespace ColaLocalMergeJob

/-! ## States -/

/-- What the current stage of a job has still to take, when the merge has some records. -/
def left (job : ColaLocalMergeJob P) (records : Nat) : Nat :=
  match job.phase with
  | .nativeMerge => records - (job.merge.map fun merge => merge.progress.keys).getD 0
  | .destinationIndex =>
      job.plan.destinationSize records - (job.index.map ColaIndexBuilder.count).getD 0
  | .carrierIndex => job.plan.carrierSize records - (job.index.map ColaIndexBuilder.count).getD 0
  | .ready => 0
  | .taken => 0

/-- What a job has still to take and to finish. -/
def load (job : ColaLocalMergeJob P) (records : Nat) : Nat :=
  match job.phase with
  | .nativeMerge => job.left records + 1 + (match job.plan.kind with
      | .main => job.plan.destinationSize records + 1
      | .secondary => 0) + job.plan.carrierSize records + 1
  | .destinationIndex => job.left records + 1 + job.plan.carrierSize records + 1
  | .carrierIndex => job.left records + 1
  | .ready => 0
  | .taken => 0

/-- Where a job stands in its stages. -/
inductive Stands (job : ColaLocalMergeJob P) (target : List (BitString × BitString)) : Prop
  | merging {merge : NativeMerge P} {written olderRest newerRest : List Entry}
      (phase : job.phase = .nativeMerge) (opened : job.merge = some merge)
      (merges : merge.Merging written olderRest newerRest target)
      (none_beside : job.secondary = none)
  | indexing {merged : Shared (NativeArray P)} {builder : ColaIndexBuilder P} {count : Nat}
      (phase : job.phase = .destinationIndex) (kind : job.plan.kind = .main)
      (merged_eq : job.merged = some merged) (records : merged.value.records = target)
      (none_beside : job.secondary = none) (opened : job.index = some builder)
      (ongoing : builder.Ongoing merged job.plan.mainTarget job.plan.secondaryTarget count)
  | carrying {empty : Shared (NativeArray P)} {builder : ColaIndexBuilder P} {count : Nat}
      (phase : job.phase = .carrierIndex) (bare : empty.value.size = 0)
      (places : job.plan.Places target job.merged job.main job.secondary)
      (opened : job.index = some builder)
      (ongoing : builder.Ongoing empty job.main job.secondary count)
  | ready {empty : Shared (NativeArray P)} (phase : job.phase = .ready)
      (bare : empty.value.size = 0)
      (places : job.plan.Places target job.merged job.main job.secondary)
      (assembles : job.carrier.Assembles empty job.main job.secondary)
  | taken (phase : job.phase = .taken)

/-- A job over built targets which was never poisoned. -/
structure Sound (job : ColaLocalMergeJob P) (target : List (BitString × BitString)) : Prop where
  active : job.failed = false
  built : job.plan.mainTarget.Built
  room : job.plan.kind = .main → job.plan.destinationSize target.length ≤ maximum64
  stands : job.Stands target

variable {job : ColaLocalMergeJob P} {target : List (BitString × BitString)}

theorem step_of_taken (taken : job.phase = .taken) (budget : Nat) :
    job.step budget = (job, .error "COLA local merge is no longer active") := by
  rw [step, whenActive, if_pos (by simp [finished, taken])]

/-- A step takes from the current stage what its budget and the stage allow. -/
theorem Sound.step_ok (sound : job.Sound target) (untaken : job.phase ≠ .taken) (budget : Nat) :
    ∃ next, job.step budget = (next, .ok (min budget (job.left target.length))) ∧
      next.Sound target ∧ next.phase = job.phase ∧ next.plan = job.plan ∧
      next.left target.length = job.left target.length - min budget (job.left target.length) := by
  obtain ⟨active, built, room, stands⟩ := sound
  have running : ¬ (job.failed || job.finished) = true := by simp [active, finished, untaken]
  rw [step, whenActive, if_neg running]
  cases stands with
  | @merging merge written olderRest newerRest phase opened merges none_beside =>
      obtain ⟨next, work, written', olderRest', newerRest', stepped, after, progress, keys, -⟩ :=
        merges.stepKeys_ok budget
      have within := merges.left_eq
      have ran : merge.step budget = .ok (next, work) := by
        rw [NativeMerge.step, NativeMerge.requireActive, require_true merges.writes.active, ok_bind,
          stepped]
      have consumed : work.keys = min budget (target.length - merge.progress.keys) := by
        rw [progress] at keys
        dsimp only at keys
        omega
      have left_eq : job.left target.length = target.length - merge.progress.keys := by
        rw [left, phase, opened]
        rfl
      refine ⟨{ job with merge := some next }, ?_, ⟨active, built, room,
        .merging phase rfl after none_beside⟩, rfl, rfl, ?_⟩
      · rw [left_eq, stepStage, phase, opened]
        dsimp only
        rw [demand_some, ok_bind, ran, ok_bind, ← consumed]
        rfl
      · rw [left_eq, left, phase]
        dsimp only
        rw [Option.map_some, Option.getD_some, progress]
        dsimp only
        omega
  | @indexing merged builder count phase kind merged_eq records none_beside opened ongoing =>
      have size := ColaDestinationPlan.size_of_records records
      have extent : ColaIndexBuilder.extent merged job.plan.mainTarget job.plan.secondaryTarget =
          job.plan.destinationSize target.length := by
        rw [ColaIndexBuilder.extent, size, ColaDestinationPlan.destinationSize]
      have left_eq : job.left target.length = job.plan.destinationSize target.length - count := by
        rw [left, phase, opened]
        dsimp only
        rw [Option.map_some, Option.getD_some, ongoing.count_eq]
      obtain ⟨next, stepped, after⟩ := ongoing.step_budget_ok budget
      rw [extent] at stepped after
      refine ⟨{ job with index := some next }, ?_, ⟨active, built, room,
        .indexing phase kind merged_eq records none_beside rfl after⟩, rfl, rfl, ?_⟩
      · rw [left_eq, stepStage, phase, opened]
        dsimp only
        rw [demand_some, ok_bind, stepped, ok_bind]
        rfl
      · rw [left_eq, left, phase]
        dsimp only
        rw [Option.map_some, Option.getD_some, after.count_eq, Nat.sub_sub]
  | @carrying empty builder count phase bare places opened ongoing =>
      have extent := places.extent_eq bare
      have left_eq : job.left target.length = job.plan.carrierSize target.length - count := by
        rw [left, phase, opened]
        dsimp only
        rw [Option.map_some, Option.getD_some, ongoing.count_eq]
      obtain ⟨next, stepped, after⟩ := ongoing.step_budget_ok budget
      rw [extent] at stepped after
      refine ⟨{ job with index := some next }, ?_, ⟨active, built, room,
        .carrying phase bare places rfl after⟩, rfl, rfl, ?_⟩
      · rw [left_eq, stepStage, phase, opened]
        dsimp only
        rw [demand_some, ok_bind, stepped, ok_bind]
        rfl
      · rw [left_eq, left, phase]
        dsimp only
        rw [Option.map_some, Option.getD_some, after.count_eq, Nat.sub_sub]
  | @ready empty phase bare places assembles =>
      have none_left : job.left target.length = 0 := by rw [left, phase]
      refine ⟨job, ?_, ⟨active, built, room, .ready phase bare places assembles⟩, rfl, rfl, ?_⟩
      · rw [none_left, Nat.min_zero, stepStage, phase]
        rfl
      · rw [none_left, Nat.zero_sub]
  | taken phase => exact absurd phase untaken

/-- A stage is done when nothing of it is left. -/
theorem Sound.stageDone_iff (sound : job.Sound target) :
    job.stageDone = true ↔ job.phase ≠ .taken ∧ job.left target.length = 0 := by
  obtain ⟨active, built, room, stands⟩ := sound
  cases stands with
  | @merging merge written olderRest newerRest phase opened merges none_beside =>
      have left_eq := merges.left_eq
      have done := merges.done_iff_keys
      rw [stageDone, if_neg (by simp [active, finished, phase]), left, phase, opened]
      dsimp only
      rw [Option.any_some, done, Option.map_some, Option.getD_some, Nat.sub_eq_zero_iff_le]
      simp only [ne_eq, reduceCtorEq, not_false_eq_true, true_and]
      omega
  | @indexing merged builder count phase kind merged_eq records none_beside opened ongoing =>
      have size := ColaDestinationPlan.size_of_records records
      have bound := ongoing.count_le
      have done := ongoing.done_iff
      rw [ColaIndexBuilder.extent, size] at bound done
      rw [stageDone, if_neg (by simp [active, finished, phase]), left, phase, opened]
      dsimp only
      rw [Option.any_some, done, Option.map_some, Option.getD_some, ongoing.count_eq,
        Nat.sub_eq_zero_iff_le, ColaDestinationPlan.destinationSize]
      simp only [ne_eq, reduceCtorEq, not_false_eq_true, true_and]
      omega
  | @carrying empty builder count phase bare places opened ongoing =>
      have bound := ongoing.count_le
      have done := ongoing.done_iff
      rw [places.extent_eq bare] at bound done
      rw [stageDone, if_neg (by simp [active, finished, phase]), left, phase, opened]
      dsimp only
      rw [Option.any_some, done, Option.map_some, Option.getD_some, ongoing.count_eq,
        Nat.sub_eq_zero_iff_le]
      simp only [ne_eq, reduceCtorEq, not_false_eq_true, true_and]
      omega
  | ready phase bare places assembles =>
      rw [stageDone, if_neg (by simp [active, finished, phase]), left, phase]
      simp
  | taken phase => simp [stageDone, finished, phase]

/-! ## Finishing stages -/

/-- The carrier opens over whatever the job has delivered. -/
theorem startCarrier_ok (active : job.failed = false) (built : job.plan.mainTarget.Built)
    (room : job.plan.kind = .main → job.plan.destinationSize target.length ≤ maximum64)
    (places : job.plan.Places target job.merged job.main job.secondary) :
    ∃ next, job.startCarrier = .ok (next, ()) ∧ next.Sound target ∧ next.phase = .carrierIndex ∧
      next.plan = job.plan ∧ next.left target.length = job.plan.carrierSize target.length := by
  have bare : (⟨job.allocated, .empty⟩ : Shared (NativeArray P)).value.size = 0 := rfl
  have extent := places.extent_eq bare
  obtain ⟨builder, started, ongoing⟩ :=
    ColaIndexBuilder.start_ongoing places.built (places.built.extent_le bare job.secondary)
  refine ⟨{ job with
      index := some builder
      phase := .carrierIndex
      allocated := job.allocated + 1 }, ?_,
    ⟨active, built, room, .carrying rfl bare places rfl ongoing⟩, rfl, rfl, ?_⟩
  · rw [startCarrier, started, ok_bind]
  · rw [left]
    dsimp only
    rw [Option.map_some, Option.getD_some, ongoing.count_eq, Nat.sub_zero]

/-- Finishing a stage which is done opens the next one. -/
theorem Sound.finishStage_ok (sound : job.Sound target) (done : job.stageDone = true)
    (unready : job.phase ≠ .ready) :
    ∃ next, job.finishStage = (next, .ok ()) ∧ next.Sound target ∧ next.plan = job.plan ∧
      next.load target.length < job.load target.length := by
  obtain ⟨untaken, none_left⟩ := sound.stageDone_iff.mp done
  obtain ⟨active, built, room, stands⟩ := sound
  have running : ¬ (job.failed || job.finished) = true := by simp [active, finished, untaken]
  have allowed : ¬ (job.phase = .ready ∨ job.stageDone = false) := by simp [unready, done]
  rw [finishStage, whenActive, if_neg running, if_neg allowed]
  cases stands with
  | @merging merge written olderRest newerRest phase opened merges none_beside =>
      have whole : merge.done = true := by
        rw [stageDone, if_neg running, phase, opened] at done
        exact done
      obtain ⟨rfl, rfl⟩ := merges.done_iff.mp whole
      obtain ⟨closed, frames, array, finished_ok, adopted, records, -, -⟩ := merges.finish_ok
      have load_eq : job.load target.length = 0 + 1 + (match job.plan.kind with
          | .main => job.plan.destinationSize target.length + 1
          | .secondary => 0) + job.plan.carrierSize target.length + 1 := by
        rw [load, phase]
        dsimp only
        rw [none_left]
      have completes : job.completeStage = job.finishMerge := by rw [completeStage, phase]
      cases kind : job.plan.kind with
      | main =>
          have fits : ColaIndexBuilder.extent (⟨job.allocated, array⟩ : Shared (NativeArray P))
              job.plan.mainTarget job.plan.secondaryTarget ≤ maximum64 := by
            rw [ColaIndexBuilder.extent, ColaDestinationPlan.size_of_records records]
            exact room kind
          obtain ⟨builder, started, ongoing⟩ := ColaIndexBuilder.start_ongoing built fits
          refine ⟨{ job with
              merged := some ⟨job.allocated, array⟩
              merge := none
              index := some builder
              phase := .destinationIndex
              allocated := job.allocated + 1 }, ?_,
            ⟨active, built, room, .indexing rfl kind rfl records none_beside rfl ongoing⟩, rfl, ?_⟩
          · rw [completes, finishMerge, opened, demand_some, ok_bind, finished_ok, ok_bind]
            dsimp only
            rw [adopted, ok_bind, kind]
            dsimp only
            rw [started, ok_bind]
            rfl
          · rw [load_eq, kind, load]
            dsimp only
            rw [left]
            dsimp only
            rw [Option.map_some, Option.getD_some, ongoing.count_eq]
            omega
      | secondary =>
          have places : job.plan.Places target (some ⟨job.allocated, array⟩) job.plan.mainTarget
              (some ⟨job.allocated, array⟩) := .secondary kind records built
          obtain ⟨next, started, next_sound, next_phase, next_plan, next_left⟩ :=
            @startCarrier_ok P { job with
                merged := some ⟨job.allocated, array⟩
                merge := none
                main := job.plan.mainTarget
                secondary := some ⟨job.allocated, array⟩
                allocated := job.allocated + 1 } target active built room places
          refine ⟨next, ?_, next_sound, next_plan, ?_⟩
          · rw [completes, finishMerge, opened, demand_some, ok_bind, finished_ok, ok_bind]
            dsimp only
            rw [adopted, ok_bind, kind]
            dsimp only
            rw [started]
            rfl
          · rw [load_eq, kind, load, next_phase]
            dsimp only
            rw [next_left]
            change job.plan.carrierSize target.length + 1 <
              0 + 1 + 0 + job.plan.carrierSize target.length + 1
            omega
  | @indexing merged builder count phase kind merged_eq records none_beside opened ongoing =>
      have whole : count = ColaIndexBuilder.extent merged job.plan.mainTarget
          job.plan.secondaryTarget := by
        rw [stageDone, if_neg running, phase, opened] at done
        exact ongoing.done_iff.mp done
      obtain ⟨closed, index, finished_ok, closed_main, assembles⟩ := ongoing.finish_ok whole
      have places : job.plan.Places target job.merged
          (⟨job.allocated, index⟩ :: job.plan.mainTarget) job.secondary := by
        rw [merged_eq, none_beside]
        exact .main kind records (assembles job.allocated)
      obtain ⟨next, started, next_sound, next_phase, next_plan, next_left⟩ :=
        @startCarrier_ok P { job with
            index := none
            main := ⟨job.allocated, index⟩ :: job.plan.mainTarget
            allocated := job.allocated + 1 } target active built room places
      refine ⟨next, ?_, next_sound, next_plan, ?_⟩
      · rw [completeStage, phase]
        dsimp only
        rw [finishIndex, opened, demand_some, ok_bind, finished_ok, ok_bind]
        dsimp only
        rw [ok_bind, closed_main]
        dsimp only
        rw [started]
        rfl
      · rw [load, next_phase, load, phase]
        dsimp only
        rw [next_left]
        dsimp only
        omega
  | @carrying empty builder count phase bare places opened ongoing =>
      have whole : count = ColaIndexBuilder.extent empty job.main job.secondary := by
        rw [stageDone, if_neg running, phase, opened] at done
        exact ongoing.done_iff.mp done
      obtain ⟨closed, index, finished_ok, closed_main, assembles⟩ := ongoing.finish_ok whole
      refine ⟨{ job with
          index := none
          allocated := job.allocated + 1
          carrier := ⟨job.allocated, index⟩ :: job.main
          phase := .ready }, ?_,
        ⟨active, built, room, .ready rfl bare places (assembles job.allocated)⟩, rfl, ?_⟩
      · rw [completeStage, phase]
        dsimp only
        rw [finishIndex, opened, demand_some, ok_bind, finished_ok, ok_bind]
        dsimp only
        rw [ok_bind, closed_main]
        rfl
      · rw [load, load, phase]
        dsimp only
        omega
  | ready phase bare places assembles => exact absurd phase unready
  | taken phase => exact absurd phase untaken

/-- A stage is not finished out of order. -/
theorem finishStage_rejected (early : ¬ (job.stageDone = true ∧ job.phase ≠ .ready)) :
    ∃ text, job.finishStage = (job, .error text) := by
  rw [finishStage, whenActive]
  split
  · exact ⟨_, rfl⟩
  · have refused : job.phase = .ready ∨ job.stageDone = false := by
      by_contra allowed
      rw [not_or, Bool.not_eq_false] at allowed
      exact early ⟨allowed.2, allowed.1⟩
    rw [if_pos refused]
    exact ⟨_, rfl⟩

/-- Results are not handed out before the job is ready, nor twice. -/
theorem finish_rejected (early : job.phase ≠ .ready) :
    ∃ text, job.finish = (job, .error text) := by
  rw [finish, whenActive]
  split
  · exact ⟨_, rfl⟩
  · rw [if_pos (by simp [ColaLocalMergeJob.done, early])]
    exact ⟨_, rfl⟩

/-- A ready job hands out what it has built. -/
theorem Sound.finish_ok (sound : job.Sound target) (ready : job.phase = .ready) :
    ∃ next, job.finish =
        (next, .ok ⟨job.merged, job.main, job.secondary, job.carrier⟩) ∧
      next.Sound target ∧ next.phase = .taken ∧ next.plan = job.plan := by
  obtain ⟨active, built, room, -⟩ := sound
  refine ⟨{ job with
      phase := .taken
      merged := none
      main := []
      secondary := none
      carrier := [] }, ?_, ⟨active, built, room, .taken rfl⟩, rfl, rfl⟩
  rw [finish, whenActive, if_neg (by simp [active, finished, ready]),
    if_neg (by simp [ColaLocalMergeJob.done, active, ready])]

/-! ## Runs -/

/-- Whether a call brings a job forward, as a budget for a stage which is not done and the end of one
which is, or comes when the job has nothing left to do. -/
def uses (job : ColaLocalMergeJob P) (call : ColaLocalMergeCall) : Bool :=
  job.phase = .ready || job.phase = .taken || match call with
    | .step budget => ! job.stageDone && decide (0 < budget)
    | .finishStage => job.stageDone
    | .finish => false

/-- Calls of a run which bring its job forward, or come when it has nothing left to do. -/
def useful (job : ColaLocalMergeJob P) : List ColaLocalMergeCall → Nat
  | [] => 0
  | call :: calls => (if job.uses call then 1 else 0) + (job.after call).useful calls

theorem load_of_phase {next : ColaLocalMergeJob P} (records : Nat) (same : next.phase = job.phase)
    (plan : next.plan = job.plan) :
    job.load records + next.left records = next.load records + job.left records := by
  rw [load, load, same, plan]
  cases phase : job.phase <;> simp only [left, same, phase] <;> omega

/-- Nothing is left to a job which is ready or taken, and something to every other. -/
theorem load_eq_zero (job : ColaLocalMergeJob P) (records : Nat) :
    job.load records = 0 ↔ job.phase = .ready ∨ job.phase = .taken := by
  rw [load]
  cases job.phase <;> simp

/-- Every call keeps a job sound; the load never rises, and it falls in every useful call. -/
theorem Sound.after (sound : job.Sound target) (call : ColaLocalMergeCall) :
    (job.after call).Sound target ∧ (job.after call).plan = job.plan ∧
      (job.after call).load target.length ≤
        job.load target.length - (if job.uses call then 1 else 0) := by
  by_cases closed : job.phase = .ready ∨ job.phase = .taken
  · have nothing := (load_eq_zero job target.length).mpr closed
    suffices kept : (job.after call).Sound target ∧ (job.after call).plan = job.plan ∧
        ((job.after call).phase = .ready ∨ (job.after call).phase = .taken) by
      refine ⟨kept.1, kept.2.1, ?_⟩
      rw [(load_eq_zero _ _).mpr kept.2.2]
      exact Nat.zero_le _
    cases call with
    | step budget =>
        rw [ColaLocalMergeJob.after]
        by_cases taken : job.phase = .taken
        · rw [step_of_taken taken]
          exact ⟨sound, rfl, closed⟩
        · obtain ⟨next, stepped, next_sound, phase, plan, -⟩ := sound.step_ok taken budget
          rw [stepped]
          refine ⟨next_sound, plan, ?_⟩
          dsimp only
          rw [phase]
          exact closed
    | finishStage =>
        have early : ¬ (job.stageDone = true ∧ job.phase ≠ .ready) := by
          rintro ⟨done, unready⟩
          exact (sound.stageDone_iff.mp done).1 (closed.resolve_left unready)
        obtain ⟨text, refused⟩ := finishStage_rejected early
        rw [ColaLocalMergeJob.after, refused]
        exact ⟨sound, rfl, closed⟩
    | finish =>
        rw [ColaLocalMergeJob.after]
        by_cases ready : job.phase = .ready
        · obtain ⟨next, finished, next_sound, phase, plan⟩ := sound.finish_ok ready
          rw [finished]
          exact ⟨next_sound, plan, .inr phase⟩
        · obtain ⟨text, refused⟩ := finish_rejected ready
          rw [refused]
          exact ⟨sound, rfl, closed⟩
  · rw [not_or] at closed
    obtain ⟨unready, untaken⟩ := closed
    cases call with
    | step budget =>
        obtain ⟨next, stepped, next_sound, phase, plan, left_eq⟩ := sound.step_ok untaken budget
        have loads := load_of_phase target.length phase plan
        have within := Nat.min_le_right budget (job.left target.length)
        have some_left : job.stageDone = false → job.left target.length ≠ 0 := by
          intro live none_left
          rw [sound.stageDone_iff.mpr ⟨untaken, none_left⟩] at live
          cases live
        rw [ColaLocalMergeJob.after, stepped]
        refine ⟨next_sound, plan, ?_⟩
        dsimp only
        split
        · rename_i useful
          simp only [uses, unready, untaken, decide_false, Bool.false_or, Bool.and_eq_true,
            Bool.not_eq_true', decide_eq_true_eq] at useful
          have positive := some_left useful.1
          omega
        · omega
    | finishStage =>
        rw [ColaLocalMergeJob.after]
        by_cases done : job.stageDone = true
        · obtain ⟨next, finished, next_sound, plan, less⟩ := sound.finishStage_ok done unready
          rw [finished]
          refine ⟨next_sound, plan, ?_⟩
          dsimp only
          split <;> omega
        · obtain ⟨text, refused⟩ := finishStage_rejected fun both => done both.1
          rw [refused, if_neg (by simp [uses, unready, untaken, done])]
          exact ⟨sound, rfl, le_rfl⟩
    | finish =>
        obtain ⟨text, refused⟩ := finish_rejected unready
        rw [ColaLocalMergeJob.after, refused, if_neg (by simp [uses, unready, untaken])]
        exact ⟨sound, rfl, le_rfl⟩

/-- Any calls in any order keep a job sound, and every useful one takes from its load. -/
theorem Sound.afterAll (calls : List ColaLocalMergeCall) (sound : job.Sound target) :
    (job.afterAll calls).Sound target ∧ (job.afterAll calls).plan = job.plan ∧
      (job.afterAll calls).load target.length ≤ job.load target.length - job.useful calls := by
  induction calls generalizing job with
  | nil => exact ⟨sound, rfl, le_rfl⟩
  | cons call calls induction =>
      obtain ⟨middle, middle_plan, falls⟩ := sound.after call
      obtain ⟨last, plan, below⟩ := induction middle
      refine ⟨last, plan.trans middle_plan, ?_⟩
      change ((job.after call).afterAll calls).load target.length ≤ _
      rw [useful]
      omega

/-- A job opens with its whole size to do. -/
theorem start_ok (composition : Composition P) {older newer : NativeArray P}
    (plan : ColaDestinationPlan P) (allocated : Nat)
    (width : P.valueWidth.getD 0 * P.bitsPerUnit ≤ maximum64) (older_valid : older.ValidValues)
    (newer_valid : newer.ValidValues) (counted : older.size + newer.size ≤ maximum64)
    (built : plan.mainTarget.Built)
    (room : plan.kind = .main → plan.destinationSize (older.size + newer.size) ≤ maximum64) :
    ∃ target opened, IsUnion composition older newer target ∧
      start composition older newer plan allocated = .ok opened ∧ opened.plan = plan ∧
      opened.Sound target ∧ opened.load target.length = plan.jobSize target.length := by
  obtain ⟨merge, started, policy, merging⟩ :=
    NativeMerge.start_ok composition width older_valid newer_valid counted
  have fewer : (mergeWith composition.compose.apply older.records newer.records).length ≤
      older.size + newer.size := by
    refine length_mergeWith_le.trans ?_
    rw [older.length_records, newer.length_records]
  refine ⟨_, ⟨plan, some merge, none, none, [], none, [], .nativeMerge, false, allocated⟩,
    isUnion_mergeWith composition older newer, ?_, rfl,
    ⟨rfl, built, fun kind => ?_, .merging rfl rfl merging rfl⟩, ?_⟩
  · rw [start, started, ok_bind]
  · refine le_trans ?_ (room kind)
    dsimp only
    rw [ColaDestinationPlan.destinationSize, ColaDestinationPlan.destinationSize]
    omega
  · rw [load, ColaDestinationPlan.jobSize, left]
    dsimp only
    rw [Option.map_some, Option.getD_some, NativeMerge.progress_start started]
    rfl

end ColaLocalMergeJob

/-! ## Queries through a carrier -/

/-- Queries through a root prepared from a carrier find the value of a key among the merged records
and what the targets of the plan hold, each match once, whatever the budgets of their steps are. -/
def ColaDestinationPlan.Preserves (plan : ColaDestinationPlan P)
    (target : List (BitString × BitString)) (merged : Option (Shared (NativeArray P)))
    (carrier : MainPointer P) : Prop :=
  ∀ address, ∃ head, carrier.prepareRoot address none = .ok head ∧ adoptPrepared head = .ok head ∧
    ∀ query, P.Aligned query → ∃ cursor own side, QueryCursor.start head query = .ok cursor ∧
      own.map QueryMatch.value = (valueAt query target).toList ∧
      (∀ hit ∈ own, ColaDestinationPlan.FoundIn merged hit) ∧
      side.map (fun hit => (hit.ordinal, hit.value)) =
        (plan.secondaryTarget.bind fun leaf => leaf.value.find? query).toList ∧
      (∀ hit ∈ side, ColaDestinationPlan.FoundIn plan.secondaryTarget hit) ∧
      ∀ budgets, ∃ following found, cursor.drain budgets = .ok (following, found) ∧
        found <+: own ++ side ++ MainPointer.allMatches query plan.mainTarget ∧
        (following.done = true →
          found = own ++ side ++ MainPointer.allMatches query plan.mainTarget) ∧
        (head.length ≤ budgets.countP (0 < ·) → following.done = true)

theorem ColaDestinationPlan.Places.preserves {plan : ColaDestinationPlan P}
    {target : List (BitString × BitString)} {merged : Option (Shared (NativeArray P))}
    {main : MainPointer P} {secondary : Option (Shared (NativeArray P))}
    (places : plan.Places target merged main secondary) {empty : Shared (NativeArray P)}
    (bare : empty.value.size = 0) {carrier : MainPointer P}
    (assembles : carrier.Assembles empty main secondary) :
    plan.Preserves target merged carrier := by
  intro address
  obtain ⟨nodes, prepared, some_head, built, bounded, routes, -⟩ :=
    MainPointer.prepareRoot_ok address assembles.built none
  have delivers := routes.delivers some_head built bounded
  have empty_aligned : P.Aligned [] := ⟨0, rfl⟩
  obtain ⟨_, _, adopted, -⟩ := delivers [] empty_aligned
  refine ⟨nodes ++ carrier, prepared, adopted, fun query aligned => ?_⟩
  obtain ⟨cursor, more, -, started, found, -, drains⟩ := delivers query aligned
  have no_more : more = [] := List.map_eq_nil_iff.mp found
  obtain ⟨own, side, matches_eq, own_values, own_source, side_hits, side_source⟩ :=
    places.allMatches bare assembles query
  refine ⟨cursor, own, side, started, own_values, own_source, side_hits, side_source,
    fun budgets => ?_⟩
  obtain ⟨following, hits, ran, initial, complete, enough⟩ := drains budgets
  rw [no_more, List.nil_append, matches_eq] at initial complete
  exact ⟨following, hits, ran, initial, complete, enough⟩

/-- What a job answers to its next call: calls out of order are refused and leave it as it is, and a
ready job hands out a carrier which preserves the merged records and the history below them. -/
structure ColaLocalMergeJob.Answers (job : ColaLocalMergeJob P)
    (target : List (BitString × BitString)) : Prop where
  active : job.failed = false
  steps : job.phase ≠ .taken → ∀ budget, ∃ next consumed,
    job.step budget = (next, .ok consumed) ∧ consumed ≤ budget
  finishes_stage : job.stageDone = true → job.phase ≠ .ready → ∃ next,
    job.finishStage = (next, .ok ())
  refuses_stage : ¬ (job.stageDone = true ∧ job.phase ≠ .ready) → ∃ text,
    job.finishStage = (job, .error text)
  finishes : job.phase = .ready → job.plan.Preserves target job.merged job.carrier ∧
    ∃ next, next.phase = .taken ∧
      job.finish = (next, .ok ⟨job.merged, job.main, job.secondary, job.carrier⟩)
  refuses : job.phase ≠ .ready → ∃ text, job.finish = (job, .error text)

theorem ColaLocalMergeJob.Sound.answers {job : ColaLocalMergeJob P}
    {target : List (BitString × BitString)} (sound : job.Sound target) : job.Answers target := by
  refine ⟨sound.active, fun untaken budget => ?_, fun done unready => ?_,
    finishStage_rejected, fun ready => ?_, finish_rejected⟩
  · obtain ⟨next, stepped, -⟩ := sound.step_ok untaken budget
    exact ⟨next, _, stepped, Nat.min_le_left _ _⟩
  · obtain ⟨next, finished, -⟩ := sound.finishStage_ok done unready
    exact ⟨next, finished⟩
  · obtain ⟨next, finished, -, taken, -⟩ := sound.finish_ok ready
    refine ⟨?_, next, taken, finished⟩
    cases sound.stands with
    | merging phase => cases ready.symm.trans phase
    | indexing phase => cases ready.symm.trans phase
    | carrying phase => cases ready.symm.trans phase
    | ready _ bare places assembles => exact places.preserves bare assembles
    | taken phase => cases ready.symm.trans phase

/-- A local job never fails, whatever its calls are, and enough useful ones make it ready. -/
theorem local_merge_preserves_history (composition : Composition P) {older newer : NativeArray P}
    (plan : ColaDestinationPlan P) (allocated : Nat)
    (width : P.valueWidth.getD 0 * P.bitsPerUnit ≤ maximum64) (older_valid : older.ValidValues)
    (newer_valid : newer.ValidValues) (counted : older.size + newer.size ≤ maximum64)
    (built : plan.mainTarget.Built)
    (room : plan.kind = .main → plan.destinationSize (older.size + newer.size) ≤ maximum64) :
    ∃ target opened, IsUnion composition older newer target ∧
      ColaLocalMergeJob.start composition older newer plan allocated = .ok opened ∧
      ∀ calls : List ColaLocalMergeCall, (opened.afterAll calls).plan = plan ∧
        (opened.afterAll calls).Answers target ∧
        (plan.jobSize target.length ≤ opened.useful calls →
          (opened.afterAll calls).phase = .ready ∨ (opened.afterAll calls).phase = .taken) := by
  obtain ⟨target, opened, union, started, plan_eq, sound, load_eq⟩ :=
    ColaLocalMergeJob.start_ok composition plan allocated width older_valid newer_valid counted
      built room
  refine ⟨target, opened, union, started, fun calls => ?_⟩
  obtain ⟨reached, same_plan, falls⟩ := sound.afterAll calls
  refine ⟨same_plan.trans plan_eq, reached.answers, fun enough => ?_⟩
  rw [← ColaLocalMergeJob.load_eq_zero _ target.length]
  omega

/-- A merge of two arrays with one key into a main target which has this key as well, and a secondary
one beside it. -/
theorem local_merge_preserves_history_shared_key :
    let array : NativeArray .bytes3 := .singleton (List.replicate 8 true) [] (by decide)
    ∃ index plan, adoptNative ⟨2, array⟩ [] none = .ok index ∧
      ColaDestinationPlan.forMain [⟨3, index⟩] (some ⟨4, array⟩) = .ok plan ∧
      ∃ target opened, IsUnion (replaceNativeValue .bytes3) array array target ∧
        ColaLocalMergeJob.start (replaceNativeValue .bytes3) array array plan 5 = .ok opened ∧
        ∀ calls : List ColaLocalMergeCall, (opened.afterAll calls).plan = plan ∧
          (opened.afterAll calls).Answers target ∧
          (plan.jobSize target.length ≤ opened.useful calls →
            (opened.afterAll calls).phase = .ready ∨
              (opened.afterAll calls).phase = .taken) := by
  intro array
  have valid : array.ValidValues := by
    intro record member
    rw [List.mem_singleton.mp member]
    decide
  obtain ⟨index, adopted, built, -, -, count⟩ :=
    MainPointer.Built.null.adoptNative_ok 3 ⟨2, array⟩ none (by decide)
  have one : index.virtualSize = 1 := count
  refine ⟨index, ⟨.main, [⟨3, index⟩], some ⟨4, array⟩, nofun, nofun⟩, adopted, ?_, ?_⟩
  · exact dif_pos nofun
  · refine local_merge_preserves_history (replaceNativeValue .bytes3) _ 5 (by decide) valid valid
      (by decide) built fun _ => ?_
    rw [ColaDestinationPlan.destinationSize, MainPointer.groupCount_eq, MainPointer.virtualSize,
      one]
    change _ + ceilDiv 1 3 + secondaryCount .bytes3 (some ⟨4, array⟩) ≤ maximum64
    decide

end Everett

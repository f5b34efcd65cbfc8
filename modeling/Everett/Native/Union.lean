import Everett.Native.Merge

/-!
# Merges as unions

However the work of a merge is divided into steps, and whether or not it reads its keys, the merge
of two native arrays is the sorted union of their keys, with composed values on common keys.
-/

namespace Everett

open Outcome

variable {P : StoragePolicy}

namespace NativeMerge

/-- Steps with some budgets in order, and the work which they report together. -/
def runSteps : List Nat → NativeMerge P → Result (NativeMerge P × NativeMergeProgress)
  | [], merge => .ok (merge, ⟨0, 0⟩)
  | budget :: budgets, merge => do
      let (merge, work) ← merge.step budget
      let (merge, rest) ← runSteps budgets merge
      .ok (merge, ⟨work.keys + rest.keys, work.inputRecords + rest.inputRecords⟩)

variable {merge : NativeMerge P} {written olderRest newerRest : List Entry}
  {target : List (BitString × BitString)}

/-- Keys which a merge has still to write. -/
theorem Merging.left_eq (merging : merge.Merging written olderRest newerRest target) :
    target.length = merge.progress.keys + (mergeWith merge.composition.compose.apply
      (olderRest.map Entry.record) (newerRest.map Entry.record)).length := by
  rw [← merging.target_eq, List.length_append, List.length_map, merging.keys]

/-- A merge is done when it has written as many keys as its target has. -/
theorem Merging.done_iff_keys (merging : merge.Merging written olderRest newerRest target) :
    merge.done = true ↔ merge.progress.keys = target.length := by
  have left := merging.left_eq
  rw [merging.done_iff]
  constructor
  · rintro ⟨rfl, rfl⟩
    simpa using left.symm
  · intro whole
    by_contra live
    obtain ⟨next, consumed, entry, olderRest', newerRest', -, -, -, after, -, progress, -⟩ :=
      merging.mergeOne_ok live
    have after_left := after.left_eq
    rw [progress] at after_left
    simp only at after_left
    omega

/-- The loop of a step writes as many keys as its budget and the target allow. -/
theorem Merging.stepKeys_ok (budget : Nat)
    (merging : merge.Merging written olderRest newerRest target) :
    ∃ next work written' olderRest' newerRest', stepKeys budget merge = .ok (next, work) ∧
      next.Merging written' olderRest' newerRest' target ∧
      next.progress =
        ⟨merge.progress.keys + work.keys, merge.progress.inputRecords + work.inputRecords⟩ ∧
      next.progress.keys = min (merge.progress.keys + budget) target.length ∧
      olderRest'.length + newerRest'.length + work.inputRecords =
        olderRest.length + newerRest.length := by
  have within : merge.progress.keys ≤ target.length := by
    rw [merging.left_eq]
    exact Nat.le_add_right _ _
  induction budget generalizing merge written olderRest newerRest with
  | zero =>
      exact ⟨merge, ⟨0, 0⟩, written, olderRest, newerRest, rfl, merging, rfl,
        (Nat.min_eq_left within).symm, rfl⟩
  | succ budget induction =>
      rw [stepKeys]
      by_cases finished : merge.done = true
      · have whole := merging.done_iff_keys.mp finished
        rw [if_pos finished]
        exact ⟨merge, ⟨0, 0⟩, written, olderRest, newerRest, rfl, merging, rfl, by omega, rfl⟩
      · rw [if_neg finished]
        obtain ⟨middle, consumed, entry, olderMiddle, newerMiddle, merged, -, -, middle_merging, -,
          progress, lengths⟩ := merging.mergeOne_ok (mt merging.done_iff.mpr finished)
        have middle_within : middle.progress.keys ≤ target.length := by
          rw [middle_merging.left_eq]
          exact Nat.le_add_right _ _
        obtain ⟨next, work, written', olderRest', newerRest', stepped, after, after_progress, keys,
          after_lengths⟩ := induction middle_merging middle_within
        refine ⟨next, ⟨work.keys + 1, work.inputRecords + consumed⟩, written', olderRest',
          newerRest', ?_, after, ?_, ?_, ?_⟩
        · rw [merged, ok_bind]
          simp only
          rw [stepped, ok_bind]
        · rw [after_progress, progress]
          simp only [NativeMergeProgress.mk.injEq]
          omega
        · rw [keys, progress]
          simp only
          congr 1
          omega
        · simp only
          omega

/-- Any sequence of steps succeeds, and its reports add up to the progress. -/
theorem Merging.runSteps_ok (budgets : List Nat)
    (merging : merge.Merging written olderRest newerRest target) :
    ∃ next work written' olderRest' newerRest', runSteps budgets merge = .ok (next, work) ∧
      next.Merging written' olderRest' newerRest' target ∧
      next.progress =
        ⟨merge.progress.keys + work.keys, merge.progress.inputRecords + work.inputRecords⟩ ∧
      next.progress.keys = min (merge.progress.keys + budgets.sum) target.length ∧
      olderRest'.length + newerRest'.length + work.inputRecords =
        olderRest.length + newerRest.length := by
  induction budgets generalizing merge written olderRest newerRest with
  | nil =>
      have left := merging.left_eq
      exact ⟨merge, ⟨0, 0⟩, written, olderRest, newerRest, rfl, merging, rfl,
        by rw [List.sum_nil]; omega, rfl⟩
  | cons budget budgets induction =>
      obtain ⟨middle, work, _, _, _, stepped, middle_merging, progress, keys, lengths⟩ :=
        merging.stepKeys_ok budget
      obtain ⟨next, rest, written', olderRest', newerRest', ran, after, after_progress, after_keys,
        after_lengths⟩ := induction middle_merging
      refine ⟨next, ⟨work.keys + rest.keys, work.inputRecords + rest.inputRecords⟩, written',
        olderRest', newerRest', ?_, after, ?_, ?_, ?_⟩
      · rw [runSteps, step, requireActive, require_true merging.writes.active, ok_bind, stepped,
          ok_bind]
        simp only
        rw [ran, ok_bind]
      · rw [after_progress, progress]
        simp only [Nat.add_assoc]
      · rw [after_keys, keys, List.sum_cons]
        omega
      · simp only
        omega

end NativeMerge

/-- A merge with some budgets reports its progress at every time; it is done when the budgets cover
the target, and then it closes into an array of the target. -/
def MergesTo (composition : Composition P) (older newer : NativeArray P) (budgets : List Nat)
    (target : List (BitString × BitString)) : Prop :=
  ∃ opened merge reported, NativeMerge.start composition older newer = .ok opened ∧
    NativeMerge.runSteps budgets opened = .ok (merge, reported) ∧ merge.progress = reported ∧
    reported.keys = min budgets.sum target.length ∧
    (merge.done = true ↔ target.length ≤ budgets.sum) ∧
    (merge.done = true → ∃ closed frames array, merge.finish = .ok (closed, frames) ∧
      NativeArray.fromOwned P frames = .ok array ∧ array.records = target ∧
      reported = ⟨target.length, older.size + newer.size⟩)

/-- The records of two arrays by key: single ones as they are, common ones composed. -/
structure IsUnion (composition : Composition P) (older newer : NativeArray P)
    (target : List (BitString × BitString)) : Prop where
  sorted : (target.map Prod.fst).Pairwise (· < ·)
  keys : ∀ key, key ∈ target.map Prod.fst ↔
    key ∈ older.records.map Prod.fst ∨ key ∈ newer.records.map Prod.fst
  only_older : ∀ key value, (key, value) ∈ older.records → key ∉ newer.records.map Prod.fst →
    (key, value) ∈ target
  only_newer : ∀ key value, (key, value) ∈ newer.records → key ∉ older.records.map Prod.fst →
    (key, value) ∈ target
  both : ∀ key older_value newer_value, (key, older_value) ∈ older.records →
    (key, newer_value) ∈ newer.records →
    (key, composition.compose.apply key older_value newer_value) ∈ target

/-- The target of a merge is the union of the arrays. -/
theorem isUnion_mergeWith (composition : Composition P) (older newer : NativeArray P) :
    IsUnion composition older newer
      (mergeWith composition.compose.apply older.records newer.records) := by
  have values := fun key => @valueAt_mergeWith _ _ _ composition.compose.apply key _ _
    older.records_sorted newer.records_sorted
  have sorted := @sorted_mergeWith _ _ _ composition.compose.apply _ _ older.records_sorted
    newer.records_sorted
  refine ⟨sorted, fun key => mem_keys_mergeWith, ?_, ?_, ?_⟩
  · intro key value member absent
    rw [← valueAt_eq_some sorted, values, (valueAt_eq_some older.records_sorted).mpr member,
      valueAt_eq_none.mpr absent]
    rfl
  · intro key value member absent
    rw [← valueAt_eq_some sorted, values, (valueAt_eq_some newer.records_sorted).mpr member,
      valueAt_eq_none.mpr absent]
    rfl
  · intro key older_value newer_value older_member newer_member
    rw [← valueAt_eq_some sorted, values, (valueAt_eq_some older.records_sorted).mpr older_member,
      (valueAt_eq_some newer.records_sorted).mpr newer_member]
    rfl

/-- Two native arrays have one union to which every merge leads that composes values in the same
way, with any budgets, reading its keys or not. -/
theorem native_merge_exact (composition : Composition P) {older newer : NativeArray P}
    (width : P.valueWidth.getD 0 * P.bitsPerUnit ≤ maximum64) (older_valid : older.ValidValues)
    (newer_valid : newer.ValidValues) (counted : older.size + newer.size ≤ maximum64) :
    ∃ target, IsUnion composition older newer target ∧
      ∀ agreeing : Composition P, agreeing.compose.apply = composition.compose.apply →
        ∀ budgets, MergesTo agreeing older newer budgets target := by
  refine ⟨_, isUnion_mergeWith composition older newer, fun agreeing agrees budgets => ?_⟩
  obtain ⟨opened, started, policy, merging⟩ :=
    NativeMerge.start_ok agreeing width older_valid newer_valid counted
  rw [← agrees]
  obtain ⟨merge, reported, written, olderRest, newerRest, ran, after, progress, keys, lengths⟩ :=
    merging.runSteps_ok budgets
  have none_yet : opened.progress = ⟨0, 0⟩ := NativeMerge.progress_start started
  rw [none_yet] at progress keys
  simp only [Nat.zero_add] at progress keys
  have reported_keys : reported.keys = merge.progress.keys := by rw [progress]
  refine ⟨opened, merge, reported, started, ran, progress, ?_, ?_, fun done => ?_⟩
  · rw [reported_keys, keys]
  · rw [after.done_iff_keys, keys]
    omega
  · obtain ⟨rfl, rfl⟩ := after.done_iff.mp done
    obtain ⟨closed, frames, array, finished, adopted, records, -, -⟩ := after.finish_ok
    refine ⟨closed, frames, array, finished, adopted, records, ?_⟩
    have whole := after.done_iff_keys.mp done
    have records_eq : reported.inputRecords = older.size + newer.size := by
      simpa [ProfileArray.size] using lengths
    rw [← whole, ← reported_keys, ← records_eq]

/-- A key in both arrays is composed whether or not the merge reads it. -/
theorem native_merge_exact_common_key :
    let array : NativeArray .bytes3 := .singleton (List.replicate 8 true) [] (by decide)
    ∃ target, IsUnion (replaceNativeValue .bytes3) array array target ∧
      ∀ agreeing : Composition .bytes3,
        agreeing.compose.apply = (replaceNativeValue .bytes3).compose.apply →
        ∀ budgets, MergesTo agreeing array array budgets target := by
  intro array
  have valid : array.ValidValues := by
    intro record member
    rw [List.mem_singleton.mp member]
    decide
  exact native_merge_exact (replaceNativeValue .bytes3) (by decide) valid valid (by decide)

end Everett

import Everett.Cola.Lookup

/-!
# Structural work of the index builder

A builder takes one augmented occurrence after another, and each of them moves one cursor past at
most one group of records.  The structural events of a node are its occurrences, the records which
were passed for them, the sections of its groups and the offset samples of what it borrowed.
-/

namespace Everett

open Word Outcome Occurrences

variable {P : StoragePolicy}

/-! ## Cursors -/

namespace ProfileCursor

theorem ordinal_start {frames : List Frame} {cursor : ProfileCursor}
    (started : start P frames = .ok cursor) : cursor.ordinal = 0 := by
  unfold start seek at started
  split at started
  · cases started
  · split at started
    · cases started
      rfl
    · split at started
      · cases started
      · obtain ⟨_, -, result⟩ := bind_eq_ok.mp started
        cases result
        rfl

theorem ordinal_advance {cursor following : ProfileCursor} {comparison : Option BitComparison}
    (advanced : cursor.advanceComparison P = .ok (following, comparison)) :
    following.ordinal = cursor.ordinal + 1 := by
  unfold advanceComparison at advanced
  split at advanced
  · cases advanced
  · cases advanced
    rfl
  · split at advanced
    · cases advanced
    · obtain ⟨_, -, result⟩ := bind_eq_ok.mp advanced
      cases result
      rfl

end ProfileCursor

namespace SampleCursor

theorem ordinal_pass {cursor following : SampleCursor} {selection : FrontierSelection}
    (passed : cursor.pass P selection = .ok following) :
    following.ordinal = cursor.ordinal + 1 := by
  obtain ⟨_, -, rest⟩ := bind_eq_ok.mp passed
  obtain ⟨_, -, result⟩ := bind_eq_ok.mp rest
  cases result
  rfl

theorem ordinal_passAll (width : Nat) {cursor following : SampleCursor}
    {selection selected : FrontierSelection} {common shared : Nat}
    (passed : cursor.passAll P width selection common = .ok (following, selected, shared)) :
    following.ordinal = cursor.ordinal + width := by
  induction width generalizing cursor selection common with
  | zero =>
      cases passed
      rfl
  | succ width induction =>
      obtain ⟨next, first, rest⟩ := bind_eq_ok.mp passed
      have one := ordinal_pass first
      split at rest
      · have later := induction rest
        omega
      · obtain ⟨_, -, rest⟩ := bind_eq_ok.mp rest
        have later := induction rest
        omega

/-- A sampler passes at most one group. -/
theorem ordinal_advance {cursor following : SampleCursor} {comparison : Option BitComparison}
    (advanced : cursor.advanceComparison P = .ok (following, comparison)) :
    following.ordinal ≤ cursor.ordinal + P.groupSize := by
  unfold advanceComparison at advanced
  split at advanced
  · cases advanced
  · obtain ⟨_, -, rest⟩ := bind_eq_ok.mp advanced
    obtain ⟨⟨next, selected, common⟩, passed, result⟩ := bind_eq_ok.mp rest
    have moved := ordinal_passAll _ passed
    have bound := Nat.min_le_left P.groupSize (cursor.count - cursor.ordinal)
    dsimp only at result
    split at result
    · cases result
      omega
    · cases result
      omega

end SampleCursor

/-! ## Builders -/

namespace ColaIndexBuilder

/-- Records of the sources which the cursors of a builder have passed. -/
def passed (builder : ColaIndexBuilder P) : Nat :=
  (builder.nativeCursor.map ProfileCursor.ordinal).getD 0 +
    (builder.primaryCursor.map SampleCursor.ordinal).getD 0 +
    (builder.secondaryCursor.map ProfileCursor.ordinal).getD 0

/-- Structural events of a node: its setup and completion, the occurrences and the records passed
for them, the class and the cut of either route and the flush of every group, and the offset
samples of both borrowed arrays. -/
def events (builder : ColaIndexBuilder P) : Nat :=
  10 + builder.count + builder.passed + 5 * (builder.ranks .main).classes.length +
    (ceilDiv (builder.borrowed .main).length P.codecBlockSize +
      ceilDiv (builder.borrowed .secondary).length P.codecBlockSize)

/-- At most one group was passed for each occurrence. -/
def Paced (builder : ColaIndexBuilder P) : Prop :=
  builder.passed ≤ P.groupSize * builder.count

variable {builder following : ColaIndexBuilder P}

theorem ordinal_advanceNative {cursor next : ProfileCursor} {common : Nat}
    (advanced : advanceNative P cursor = .ok (next, common)) :
    next.ordinal = cursor.ordinal + 1 := by
  obtain ⟨_, first, rest⟩ := bind_eq_ok.mp advanced
  obtain ⟨_, -, result⟩ := bind_eq_ok.mp rest
  cases result
  exact ProfileCursor.ordinal_advance first

theorem ordinal_advanceSecondary (stride : Nat) {cursor next : ProfileCursor} {common shared : Nat}
    (advanced : advanceSecondary P stride cursor common = .ok (next, shared)) :
    next.ordinal ≤ cursor.ordinal + stride := by
  induction stride generalizing cursor common with
  | zero =>
      cases advanced
      exact le_rfl
  | succ stride induction =>
      rw [advanceSecondary] at advanced
      split at advanced
      · cases advanced
        exact Nat.le_add_right _ _
      · obtain ⟨⟨middle, _⟩, first, rest⟩ := bind_eq_ok.mp advanced
        have one := ordinal_advanceNative first
        have later := induction rest
        omega

/-- Taking an occurrence moves one cursor past at most one group. -/
theorem passed_advanceSource {origin : ColaOrigin} {key : BitString}
    (advanced : builder.advanceSource origin key = .ok following) :
    following.passed ≤ builder.passed + P.groupSize ∧ following.count = builder.count := by
  have some_group := P.groupSize_pos
  cases origin with
  | native =>
      obtain ⟨cursor, found, rest⟩ := bind_eq_ok.mp advanced
      obtain ⟨⟨next, _⟩, moved, result⟩ := bind_eq_ok.mp rest
      have is_cursor := demand_eq_ok.mp found
      have one := ordinal_advanceNative moved
      cases result
      simp only [passed, is_cursor, Option.map_some, Option.getD_some, and_true]
      omega
  | main =>
      obtain ⟨cursor, found, rest⟩ := bind_eq_ok.mp advanced
      obtain ⟨⟨next, _⟩, moved, result⟩ := bind_eq_ok.mp rest
      have is_cursor := demand_eq_ok.mp found
      have group := SampleCursor.ordinal_advance moved
      cases result
      simp only [passed, is_cursor, Option.map_some, Option.getD_some, and_true]
      omega
  | secondary =>
      obtain ⟨cursor, found, rest⟩ := bind_eq_ok.mp advanced
      obtain ⟨⟨next, _⟩, moved, result⟩ := bind_eq_ok.mp rest
      have is_cursor := demand_eq_ok.mp found
      have group := ordinal_advanceSecondary P.groupSize moved
      cases result
      simp only [passed, is_cursor, Option.map_some, Option.getD_some, and_true]
      omega

theorem passed_record {origin : ColaOrigin} {key : BitString}
    (recorded : builder.record origin key = .ok following) :
    following.passed = builder.passed ∧ following.count = builder.count := by
  cases origin with
  | native =>
      cases recorded
      exact ⟨rfl, rfl⟩
  | main =>
      obtain ⟨_, -, result⟩ := bind_eq_ok.mp recorded
      cases result
      exact ⟨rfl, rfl⟩
  | secondary =>
      obtain ⟨_, -, result⟩ := bind_eq_ok.mp recorded
      cases result
      exact ⟨rfl, rfl⟩

theorem passed_flushGroup (flushed : builder.flushGroup = .ok following) :
    following.passed = builder.passed ∧ following.count = builder.count := by
  obtain ⟨_, -, rest⟩ := bind_eq_ok.mp flushed
  obtain ⟨_, -, result⟩ := bind_eq_ok.mp rest
  cases result
  exact ⟨rfl, rfl⟩

theorem passed_closeGroup (closed : builder.closeGroup = .ok following) :
    following.passed = builder.passed ∧ following.count = builder.count := by
  unfold closeGroup at closed
  split at closed
  · exact passed_flushGroup closed
  · cases closed
    exact ⟨rfl, rfl⟩

theorem Paced.mergeOne (paced : builder.Paced) (merged : builder.mergeOne = .ok following) :
    following.Paced := by
  obtain ⟨heads, -, rest⟩ := bind_eq_ok.mp merged
  obtain ⟨selected, -, rest⟩ := bind_eq_ok.mp rest
  obtain ⟨_, -, rest⟩ := bind_eq_ok.mp rest
  obtain ⟨recorded, record_ok, rest⟩ := bind_eq_ok.mp rest
  obtain ⟨advanced, advance_ok, close_ok⟩ := bind_eq_ok.mp rest
  have at_record := passed_record record_ok
  have at_advance := passed_advanceSource advance_ok
  have at_close := passed_closeGroup close_ok
  have moved : following.passed ≤ builder.passed + P.groupSize := by
    have first : following.passed = advanced.passed := at_close.1
    have second : advanced.passed ≤ recorded.passed + P.groupSize := at_advance.1
    have third : recorded.passed = builder.passed := at_record.1
    omega
  have one_more : following.count = builder.count + 1 := by
    have first : following.count = advanced.count + 1 := at_close.2
    have second : advanced.count = recorded.count := at_advance.2
    have third : recorded.count = builder.count := at_record.2
    omega
  unfold Paced at paced ⊢
  rw [one_more, Nat.mul_succ]
  exact moved.trans (Nat.add_le_add_right paced _)

theorem Paced.stepMerge (budget : Nat) {consumed : Nat} (paced : builder.Paced)
    (stepped : builder.stepMerge budget = .ok (following, consumed)) : following.Paced := by
  induction budget generalizing builder consumed with
  | zero =>
      cases stepped
      exact paced
  | succ budget induction =>
      rw [ColaIndexBuilder.stepMerge] at stepped
      split at stepped
      · cases stepped
        exact paced
      · obtain ⟨next, merged, rest⟩ := bind_eq_ok.mp stepped
        obtain ⟨⟨last, taken⟩, later, result⟩ := bind_eq_ok.mp rest
        cases result
        exact induction (paced.mergeOne merged) later

theorem Paced.stepTerminal (fuel : Nat) {budget consumed : Nat} (paced : builder.Paced)
    (stepped : builder.stepTerminal fuel budget = .ok (following, consumed)) :
    following.Paced := by
  induction fuel generalizing builder budget consumed with
  | zero =>
      cases stepped
      exact paced
  | succ fuel induction =>
      rw [ColaIndexBuilder.stepTerminal] at stepped
      split at stepped
      · cases stepped
        exact paced
      · obtain ⟨flushed, closed, rest⟩ := bind_eq_ok.mp stepped
        obtain ⟨⟨last, taken⟩, later, result⟩ := bind_eq_ok.mp rest
        cases result
        have at_close := passed_closeGroup closed
        refine induction ?_ later
        have same : flushed.passed = builder.passed := at_close.1
        unfold Paced at paced ⊢
        rw [same, at_close.2]
        exact paced.trans (Nat.mul_le_mul_left _ (Nat.le_add_right _ _))

/-- A step with any budget passes at most one group for each occurrence. -/
theorem Paced.step {budget consumed : Nat} (paced : builder.Paced)
    (stepped : builder.step budget = .ok (following, consumed)) : following.Paced := by
  unfold ColaIndexBuilder.step at stepped
  split at stepped
  · cases stepped
  · split at stepped
    · exact paced.stepTerminal _ stepped
    · exact paced.stepMerge budget stepped

theorem Paced.runSteps (budgets : List Nat) (paced : builder.Paced)
    (ran : builder.runSteps budgets = .ok following) : following.Paced := by
  induction budgets generalizing builder with
  | nil =>
      cases ran
      exact paced
  | cons budget budgets induction =>
      obtain ⟨⟨next, _⟩, stepped, rest⟩ := bind_eq_ok.mp ran
      exact induction (paced.step stepped) rest

/-- Nothing was passed when a builder opens. -/
theorem start_paced {native : Shared (NativeArray P)} {main : MainPointer P}
    {secondary : Option (Shared (NativeArray P))}
    (started : ColaIndexBuilder.start native main secondary = .ok builder) : builder.Paced := by
  obtain ⟨_, -, rest⟩ := bind_eq_ok.mp started
  obtain ⟨nativeCursor, native_ok, rest⟩ := bind_eq_ok.mp rest
  obtain ⟨primaryCursor, primary_ok, rest⟩ := bind_eq_ok.mp rest
  obtain ⟨secondaryCursor, secondary_ok, result⟩ := bind_eq_ok.mp rest
  have at_native : (nativeCursor.map ProfileCursor.ordinal).getD 0 = 0 := by
    unfold openNative at native_ok
    split at native_ok
    · cases native_ok
      rfl
    · obtain ⟨cursor, opened, rfl⟩ := map_eq_ok.mp native_ok
      exact ProfileCursor.ordinal_start opened
  have at_primary : (primaryCursor.map SampleCursor.ordinal).getD 0 = 0 := by
    cases main with
    | nil =>
        cases primary_ok
        rfl
    | cons node rest =>
        obtain ⟨cursor, opened, rfl⟩ := map_eq_ok.mp primary_ok
        obtain ⟨_, -, opened⟩ := bind_eq_ok.mp opened
        obtain ⟨_, -, opened⟩ := bind_eq_ok.mp opened
        obtain ⟨_, -, opened⟩ := bind_eq_ok.mp opened
        obtain ⟨_, -, opened⟩ := bind_eq_ok.mp opened
        cases opened
        rfl
  have at_secondary : (secondaryCursor.map ProfileCursor.ordinal).getD 0 = 0 := by
    cases secondary with
    | none =>
        cases secondary_ok
        rfl
    | some leaf =>
        obtain ⟨cursor, opened, rfl⟩ := map_eq_ok.mp secondary_ok
        exact ProfileCursor.ordinal_start opened
  cases result
  unfold Paced passed
  rw [at_native, at_primary, at_secondary]
  exact Nat.zero_le _

/-- A finished builder keeps what it passed, and its index has the sections it counts. -/
theorem finish_sections {closed : ColaIndexBuilder P} {index : ColaIndex P}
    (finished : builder.finish = .ok (closed, index)) :
    closed.passed = builder.passed ∧ closed.count = builder.count ∧ index.count = closed.count ∧
      index.ranks = closed.ranks ∧ index.borrowed = closed.borrowed := by
  unfold finish at finished
  split at finished
  · cases finished
  · split at finished
    · cases finished
    · obtain ⟨last, close, result⟩ := bind_eq_ok.mp finished
      have kept : last.passed = builder.passed ∧ last.count = builder.count := by
        unfold closeLast at close
        split at close
        · exact passed_flushGroup close
        · cases close
          exact ⟨rfl, rfl⟩
      cases result
      exact ⟨kept.1, kept.2, rfl, rfl, rfl⟩

end ColaIndexBuilder

end Everett

import Everett.Native.Tombstones

/-!
# Trees of merges

Arrays of contributions are merged in chronological order, in any tree.  Admission limits change
what the frames of a tombstone retain, and nothing else.
-/

namespace Everett

open Word Outcome

variable {P : StoragePolicy}

/-! ## Leaves -/

/-- The key and the value of a contribution. -/
def ProfileRecord.record (record : ProfileRecord) : BitString × BitString := (record.key, record.value)

/-- The same contribution without its limit. -/
def ProfileRecord.unlimited (record : ProfileRecord) : ProfileRecord :=
  { record with retainedLimitBits := none }

variable (P) in
/-- The entry which is written for a contribution after a preceding key. -/
def ProfileRecord.entry (record : ProfileRecord) (previous : BitString) : Entry :=
  ⟨record.key, min (lcp previous record.key)
    (record.retainedLimitBits.getD (lcp previous record.key)) / P.bitsPerUnit, record.value⟩

variable (P) in
/-- Write contributions in order and adopt the array. -/
def NativeArray.ofRecords (records : List ProfileRecord) : Result (NativeArray P) := do
  let writer ← NativeWriter.start P
  let writer ← writer.appendAll P records
  let (_, frames) ← writer.finish
  NativeArray.fromOwned P frames

variable (P) in
/-- The entries of contributions after a preceding key. -/
def entriesOf : BitString → List ProfileRecord → List Entry
  | _, [] => []
  | previous, record :: records => record.entry P previous :: entriesOf record.key records

theorem records_entriesOf (previous : BitString) (records : List ProfileRecord) :
    (entriesOf P previous records).map Entry.record = records.map ProfileRecord.record := by
  induction records generalizing previous with
  | nil => rfl
  | cons record records induction =>
      rw [entriesOf, List.map_cons, induction, List.map_cons]
      rfl

/-- Every entry keeps within the limit of its contribution. -/
theorem exists_of_mem_entriesOf {previous : BitString} {records : List ProfileRecord}
    {entry : Entry} (member : entry ∈ entriesOf P previous records) :
    ∃ record ∈ records, record.record = entry.record ∧
      ∀ limit ∈ record.retainedLimitBits, entry.retained * P.bitsPerUnit ≤ limit := by
  induction records generalizing previous with
  | nil => cases member
  | cons record records induction =>
      rcases List.mem_cons.mp member with rfl | later
      · refine ⟨record, List.mem_cons_self, rfl, fun limit limited => ?_⟩
        rw [ProfileRecord.entry, Option.mem_def.mp limited]
        exact (Nat.div_mul_le_self _ _).trans (Nat.min_le_right _ _)
      · obtain ⟨other, other_member, same, bounded⟩ := induction later
        exact ⟨other, List.mem_cons_of_mem _ other_member, same, bounded⟩

namespace NativeWriter

/-- What an accepted contribution adds to the output. -/
theorem append_writes {writer next : NativeWriter} {record : ProfileRecord} {written : List Entry}
    (writes : writer.output.Writes (P := P) written) (previous : writer.previous = lastWritten written)
    (appended : writer.append P record = .ok next) :
    next.output.Writes (P := P) (written ++ [record.entry P (lastWritten written)]) ∧
      next.previous = record.key ∧ P.ValidValue record.value := by
  obtain ⟨_, -, appended⟩ := bind_eq_ok.mp appended
  obtain ⟨_, aligned, appended⟩ := bind_eq_ok.mp appended
  obtain ⟨_, width, appended⟩ := bind_eq_ok.mp appended
  obtain ⟨_, ordered, appended⟩ := bind_eq_ok.mp appended
  obtain ⟨output, framed, same⟩ := bind_eq_ok.mp appended
  cases same
  have aligned := require_eq_ok.mp aligned
  have width := require_eq_ok.mp width
  have ordered := require_eq_ok.mp ordered
  rw [previous] at ordered framed
  have valid : P.ValidValue record.value := ⟨aligned.2, by rw [← writes.common]; exact width⟩
  have later : written = [] ∨ lastWritten written < record.key := by
    rcases ordered with none | less
    · rw [writes.frames] at none
      exact .inl (List.map_eq_nil_iff.mp none)
    · exact .inr (order_eq_lt.mp less)
  have shares : (record.entry P (lastWritten written)).retained * P.bitsPerUnit ≤
      lcp (lastWritten written) record.key :=
    (Nat.div_mul_le_self _ _).trans (Nat.min_le_left _ _)
  have room : written.length < maximum64 := by
    obtain ⟨_, -, framed⟩ := bind_eq_ok.mp framed
    obtain ⟨_, -, framed⟩ := bind_eq_ok.mp framed
    obtain ⟨_, -, framed⟩ := bind_eq_ok.mp framed
    obtain ⟨_, -, framed⟩ := bind_eq_ok.mp framed
    obtain ⟨_, added, -⟩ := bind_eq_ok.mp framed
    rw [ProfileDetail.add] at added
    split at added
    · rename_i fits
      rw [writes.frames, List.length_map] at fits
      exact fits
    · cases added
  obtain ⟨expected, framed', writes'⟩ := @NativeOutput.Writes.append_ok P _ _ writes
    (record.entry P (lastWritten written)) shares later aligned.1 valid room
  have same : output = expected := by
    have both := framed.symm.trans framed'
    cases both
    rfl
  exact ⟨same ▸ writes', rfl, valid⟩

/-- What accepted contributions add to the output. -/
theorem appendAll_writes {writer next : NativeWriter} {records : List ProfileRecord}
    {written : List Entry} (writes : writer.output.Writes (P := P) written)
    (previous : writer.previous = lastWritten written)
    (appended : writer.appendAll P records = .ok next) :
    next.output.Writes (P := P) (written ++ entriesOf P (lastWritten written) records) ∧
      ∀ record ∈ records, P.ValidValue record.value := by
  induction records generalizing writer written with
  | nil =>
      cases appended
      simpa [entriesOf] using writes
  | cons record records induction =>
      rw [appendAll, List.foldlM_cons] at appended
      obtain ⟨middle, first, rest⟩ := bind_eq_ok.mp appended
      obtain ⟨middle_writes, middle_previous, valid⟩ := append_writes writes previous first
      obtain ⟨after, rest_valid⟩ := induction middle_writes
        (by rw [lastWritten_append, middle_previous]; rfl) rest
      refine ⟨?_, ?_⟩
      · rw [lastWritten_append, List.append_assoc] at after
        exact after
      · intro other member
        rcases List.mem_cons.mp member with rfl | later
        · exact valid
        · exact rest_valid other later

end NativeWriter

theorem NativeArray.entries_fromOwned {frames : List Frame} {array : NativeArray P}
    (adopted : NativeArray.fromOwned P frames = .ok array) :
    array.entries = entriesFrom P [] frames := by
  unfold NativeArray.fromOwned at adopted
  simp only at adopted
  split at adopted
  · cases adopted
    rfl
  · cases adopted

/-- An array of contributions stands for them, each within its limit. -/
theorem NativeArray.ofRecords_ok {records : List ProfileRecord} {array : NativeArray P}
    (written : NativeArray.ofRecords P records = .ok array) :
    array.entries = entriesOf P [] records ∧ array.ValidValues ∧
      P.valueWidth.getD 0 * P.bitsPerUnit ≤ maximum64 := by
  obtain ⟨writer, opened, written⟩ := bind_eq_ok.mp written
  obtain ⟨output, started, same⟩ := bind_eq_ok.mp opened
  cases same
  have fits : P.valueWidth.getD 0 * P.bitsPerUnit ≤ maximum64 := by
    obtain ⟨_, -, started⟩ := bind_eq_ok.mp started
    obtain ⟨_, product, -⟩ := bind_eq_ok.mp started
    rw [ProfileDetail.multiply] at product
    split at product
    · assumption
    · cases product
  obtain ⟨expected, started', empty_writes⟩ := NativeOutput.start_ok fits
  obtain rfl : output = expected := by
    have both := started.symm.trans started'
    cases both
    rfl
  obtain ⟨last, appended, written⟩ := bind_eq_ok.mp written
  obtain ⟨⟨closed, frames⟩, finished, adopted⟩ := bind_eq_ok.mp written
  obtain ⟨writes, valid⟩ := NativeWriter.appendAll_writes empty_writes rfl appended
  rw [List.nil_append] at writes
  obtain ⟨⟨closed_output, closed_frames⟩, output_finished, same⟩ := bind_eq_ok.mp finished
  have frames_eq : closed_frames = last.output.frames := by
    obtain ⟨_, -, same⟩ := bind_eq_ok.mp output_finished
    cases same
    rfl
  cases same
  have entries : array.entries = entriesOf P [] records := by
    rw [NativeArray.entries_fromOwned adopted, frames_eq, writes.frames]
    exact entriesFrom_frames writes.retains
  refine ⟨entries, ?_, fits⟩
  intro record member
  rw [ProfileArray.records, entries, records_entriesOf] at member
  obtain ⟨original, original_member, rfl⟩ := List.mem_map.mp member
  exact valid original original_member

/-! ## Trees -/

/-- A chronological tree of merges which share a tombstone predicate. -/
inductive MergeTree (P : StoragePolicy) (isTombstone : BitString → BitString → Bool)
  | leaf (records : List ProfileRecord)
  | node (composition : Composition P) (shares : composition.isTombstone = isTombstone)
      (older newer : MergeTree P isTombstone)

/-- Merge two arrays in steps of some budgets. -/
def NativeMerge.merged (composition : Composition P) (older newer : NativeArray P)
    (budgets : List Nat) : Result (NativeArray P) := do
  let opened ← start composition older newer
  let (merge, _) ← runSteps budgets opened
  let (_, frames) ← merge.finish
  NativeArray.fromOwned P frames

namespace NativeMerge

theorem exists_of_placeAll {composition : Composition P} {previous : BitString}
    {items : List (BitString × BitString × Nat)} {front back : List Entry} {entry : Entry}
    (split : placeAll composition previous items = front ++ entry :: back) :
    ∃ limit, (entry.key, entry.value, limit) ∈ items ∧ entry.retained = retainedFor composition
      entry.key entry.value
        (lcp ((front.getLast?.map Entry.key).getD previous) entry.key / P.bitsPerUnit) limit := by
  induction items generalizing previous front with
  | nil => cases front <;> cases split
  | cons item items induction =>
      obtain ⟨key, value, limit⟩ := item
      cases front with
      | nil =>
          obtain ⟨rfl, -⟩ := List.cons.inj split
          exact ⟨limit, List.mem_cons_self, rfl⟩
      | cons first front =>
          obtain ⟨rfl, rest⟩ := List.cons.inj split
          obtain ⟨limit', member, retained⟩ := induction rest
          refine ⟨limit', List.mem_cons_of_mem _ member, ?_⟩
          rw [retained]
          cases front with
          | nil => rfl
          | cons second front => simp [List.getLast?_cons]

/-- The limit of a key is the least stored retained count of the records which form it. -/
theorem limit_of_mem_toPlace {composition : Composition P} {older newer : NativeArray P}
    {key value : BitString} {limit : Nat}
    (member : (key, value, limit) ∈ toPlace composition older.entries newer.entries) :
    combineValues (fun _ => min) key (older.storedRetained key) (newer.storedRetained key) =
      some limit := by
  have limited_keys : ∀ array : NativeArray P,
      ((array.entries.map Entry.limited).map Prod.fst).Pairwise (· < ·) := by
    intro array
    rw [List.map_map]
    exact array.sorted
  have stored : ∀ array : NativeArray P, array.storedRetained key =
      (valueAt key (array.entries.map Entry.limited)).map Prod.snd := by
    intro array
    rw [ProfileArray.storedRetained, ← valueAt_map, List.map_map]
    rfl
  have found := (valueAt_eq_some (sorted_mergeWith (limited_keys older) (limited_keys newer))).mpr
    member
  rw [valueAt_mergeWith (limited_keys older) (limited_keys newer)] at found
  rw [stored, stored]
  cases old : valueAt key (older.entries.map Entry.limited) <;>
    cases new : valueAt key (newer.entries.map Entry.limited) <;>
    simp_all [combineValues, combineLimited]

variable {composition : Composition P} {older newer : NativeArray P}

/-- A merge opens with everything still to be placed. -/
theorem start_placing (fits : P.valueWidth.getD 0 * P.bitsPerUnit ≤ maximum64)
    (older_valid : older.ValidValues) (newer_valid : newer.ValidValues)
    (room : older.size + newer.size ≤ maximum64) {opened : NativeMerge P}
    (started : start composition older newer = .ok opened) :
    opened.Placing composition (mergeWith composition.compose.apply older.records newer.records)
      (placeAll composition [] (toPlace composition older.entries newer.entries))
      [] older.entries newer.entries := by
  obtain ⟨expected, started', policy, merging⟩ :=
    start_ok composition fits older_valid newer_valid room
  rw [started] at started'
  cases started'
  exact ⟨merging, policy, rfl⟩

/-- A completed merge places the records of its inputs. -/
theorem merged_ok (fits : P.valueWidth.getD 0 * P.bitsPerUnit ≤ maximum64)
    (older_valid : older.ValidValues) (newer_valid : newer.ValidValues)
    (room : older.size + newer.size ≤ maximum64) {budgets : List Nat} {array : NativeArray P}
    (result : merged composition older newer budgets = .ok array) :
    array.entries = placeAll composition [] (toPlace composition older.entries newer.entries) ∧
      array.records = mergeWith composition.compose.apply older.records newer.records ∧
      array.ValidValues := by
  obtain ⟨opened, started, result⟩ := bind_eq_ok.mp result
  obtain ⟨⟨merge, work⟩, ran, result⟩ := bind_eq_ok.mp result
  obtain ⟨⟨closed, frames⟩, finished, adopted⟩ := bind_eq_ok.mp result
  have opens := start_placing fits older_valid newer_valid room started
  obtain ⟨written, olderRest, newerRest, placing⟩ :=
    (Reachable.opened.runSteps ran).placing opens
  obtain ⟨_, -, finished⟩ := bind_eq_ok.mp finished
  obtain ⟨_, done, finished⟩ := bind_eq_ok.mp finished
  obtain ⟨⟨output, output_frames⟩, output_finished, same⟩ := bind_eq_ok.mp finished
  cases same
  obtain ⟨rfl, rfl⟩ := placing.merging.done_iff.mp (require_eq_ok.mp done)
  have places := placing.places
  rw [toPlace, List.map_nil, mergeWith_nil_left, placeAll, List.append_nil] at places
  have frames_eq : frames = written.map (Entry.frame P) := by
    obtain ⟨_, -, same⟩ := bind_eq_ok.mp output_finished
    cases same
    exact placing.merging.writes.frames
  have entries : array.entries = written := by
    rw [NativeArray.entries_fromOwned adopted, frames_eq]
    exact entriesFrom_frames placing.merging.writes.retains
  have records : array.records = written.map Entry.record := by rw [ProfileArray.records, entries]
  refine ⟨entries.trans places, ?_, ?_⟩
  · rw [records, ← placing.merging.target_eq]
    simp
  · rw [ProfileArray.ValidValues, records]
    exact placing.merging.target_valid

end NativeMerge

namespace MergeTree

variable {isTombstone : BitString → BitString → Bool}

/-- The arrays which a tree leads to, with any budgets. -/
inductive Builds : MergeTree P isTombstone → NativeArray P → Prop
  | leaf {records : List ProfileRecord} {array : NativeArray P}
      (written : NativeArray.ofRecords P records = .ok array) : Builds (.leaf records) array
  | node {composition : Composition P} {shares : composition.isTombstone = isTombstone}
      {older newer : MergeTree P isTombstone} {olderArray newerArray array : NativeArray P}
      {budgets : List Nat} (left : Builds older olderArray) (right : Builds newer newerArray)
      (merged : NativeMerge.merged composition olderArray newerArray budgets = .ok array) :
      Builds (.node composition shares older newer) array

/-- Number of contributions. -/
def count : MergeTree P isTombstone → Nat
  | leaf records => records.length
  | node _ _ older newer => older.count + newer.count

/-- Keys and values which the contributions come to. -/
def contents : MergeTree P isTombstone → List (BitString × BitString)
  | leaf records => records.map ProfileRecord.record
  | node composition _ older newer =>
      mergeWith composition.compose.apply older.contents newer.contents

/-- The same tree without limits. -/
def unlimited : MergeTree P isTombstone → MergeTree P isTombstone
  | leaf records => leaf (records.map ProfileRecord.unlimited)
  | node composition shares older newer => node composition shares older.unlimited newer.unlimited

/-- A limit with which a tombstone of a key was admitted, reached through tombstones only. -/
def Limits : MergeTree P isTombstone → BitString → Nat → Prop
  | leaf records, key, limit => ∃ record ∈ records, record.key = key ∧
      isTombstone key record.value = true ∧ record.retainedLimitBits = some limit
  | node composition shares older newer, key, limit =>
      (∃ value, (key, value) ∈ (node composition shares older newer).contents ∧
        isTombstone key value = true) ∧ (older.Limits key limit ∨ newer.Limits key limit)

theorem contents_unlimited (tree : MergeTree P isTombstone) :
    tree.unlimited.contents = tree.contents := by
  induction tree with
  | leaf records =>
      rw [unlimited, contents, contents, List.map_map]
      rfl
  | node composition shares older newer older_induction newer_induction =>
      rw [unlimited, contents, contents, older_induction, newer_induction]

/-- Limits are reached where the key has a tombstone. -/
theorem Limits.tombstone {tree : MergeTree P isTombstone} {key : BitString} {limit : Nat}
    (limits : tree.Limits key limit) :
    ∃ value, (key, value) ∈ tree.contents ∧ isTombstone key value = true := by
  cases tree with
  | leaf records =>
      obtain ⟨record, member, rfl, tombstone, -⟩ := limits
      exact ⟨record.value, List.mem_map_of_mem member, tombstone⟩
  | node composition shares older newer => exact limits.1

/-- What is known of an array which a tree leads to. -/
structure Stands (tree : MergeTree P isTombstone) (array : NativeArray P) : Prop where
  fits : P.valueWidth.getD 0 * P.bitsPerUnit ≤ maximum64
  valid : array.ValidValues
  contents : array.records = tree.contents
  size : array.size ≤ tree.count
  bounded : ∀ entry ∈ array.entries, isTombstone entry.key entry.value = true →
    ∀ limit, tree.Limits entry.key limit → entry.retained * P.bitsPerUnit ≤ limit

theorem stands_leaf {records : List ProfileRecord} {array : NativeArray P}
    (written : NativeArray.ofRecords P records = .ok array) :
    (leaf records : MergeTree P isTombstone).Stands array := by
  obtain ⟨entries, valid, fits⟩ := NativeArray.ofRecords_ok written
  have contents : array.records = records.map ProfileRecord.record := by
    rw [ProfileArray.records, entries, records_entriesOf]
  refine ⟨fits, valid, contents, ?_, ?_⟩
  · rw [← array.length_records, contents, List.length_map]
    exact le_rfl
  · rintro entry member - limit ⟨record, record_member, same, -, limited⟩
    rw [entries] at member
    obtain ⟨original, original_member, original_eq, bounded⟩ := exists_of_mem_entriesOf member
    -- A key has one contribution.
    have unique : original = record := by
      have sorted := array.records_sorted
      rw [contents, List.map_map] at sorted
      have distinct := sorted.imp ne_of_lt
      refine List.inj_on_of_nodup_map distinct original_member record_member ?_
      rw [Function.comp_apply, Function.comp_apply, original_eq]
      exact same.symm
    rw [unique] at bounded
    exact bounded limit limited

theorem storedRetained_of_mem {array : NativeArray P} {entry : Entry}
    (member : entry ∈ array.entries) : array.storedRetained entry.key = some entry.retained := by
  refine (valueAt_eq_some ?_).mpr (List.mem_map_of_mem member)
  rw [List.map_map]
  exact array.sorted

/-- A limit of an input bounds what the input retains of the key. -/
theorem Stands.storedRetained_le {tree : MergeTree P isTombstone} {array : NativeArray P}
    (stands : tree.Stands array) {key : BitString} {limit : Nat} (limits : tree.Limits key limit) :
    ∃ retained, array.storedRetained key = some retained ∧ retained * P.bitsPerUnit ≤ limit := by
  obtain ⟨value, member, tombstone⟩ := limits.tombstone
  rw [← stands.contents] at member
  obtain ⟨entry, entry_member, same⟩ := List.mem_map.mp member
  obtain ⟨rfl, rfl⟩ := Prod.mk.inj same
  exact ⟨entry.retained, storedRetained_of_mem entry_member,
    stands.bounded entry entry_member tombstone limit limits⟩

/-- How an array of a merge retains: a tombstone keeps within the stored retained units of the one
or two records which form it, and a live record shares all it can. -/
def Conservative (composition : Composition P) (older newer array : NativeArray P) : Prop :=
  ∀ front entry back, array.entries = front ++ entry :: back → ∃ limit,
    combineValues (fun _ => min) entry.key (older.storedRetained entry.key)
      (newer.storedRetained entry.key) = some limit ∧
    entry.retained = if composition.isTombstone entry.key entry.value = true then
      min (lcp (lastWritten front) entry.key / P.bitsPerUnit) limit
      else lcp (lastWritten front) entry.key / P.bitsPerUnit

theorem conservative_of_placeAll {composition : Composition P} {older newer array : NativeArray P}
    (places : array.entries = NativeMerge.placeAll composition []
      (NativeMerge.toPlace composition older.entries newer.entries)) :
    Conservative composition older newer array := by
  intro front entry back split
  obtain ⟨limit, member, retained⟩ := NativeMerge.exists_of_placeAll (places.symm.trans split)
  exact ⟨limit, NativeMerge.limit_of_mem_toPlace member, retained⟩

theorem stands_node {composition : Composition P} {shares : composition.isTombstone = isTombstone}
    {older newer : MergeTree P isTombstone} {olderArray newerArray array : NativeArray P}
    {budgets : List Nat} (left : older.Stands olderArray) (right : newer.Stands newerArray)
    (counted : older.count + newer.count ≤ maximum64)
    (merged : NativeMerge.merged composition olderArray newerArray budgets = .ok array) :
    (node composition shares older newer).Stands array ∧
      Conservative composition olderArray newerArray array := by
  have room : olderArray.size + newerArray.size ≤ maximum64 :=
    (Nat.add_le_add left.size right.size).trans counted
  obtain ⟨places, records, valid⟩ :=
    NativeMerge.merged_ok left.fits left.valid right.valid room merged
  have conservative := conservative_of_placeAll places
  refine ⟨⟨left.fits, valid, ?_, ?_, ?_⟩, conservative⟩
  · rw [records, left.contents, right.contents, contents]
  · rw [← array.length_records, records]
    refine length_mergeWith_le.trans ?_
    rw [olderArray.length_records, newerArray.length_records]
    exact Nat.add_le_add left.size right.size
  · intro entry member tombstone limit limits
    obtain ⟨front, back, split⟩ := List.append_of_mem member
    obtain ⟨least, formed, retained⟩ := conservative front entry back split
    rw [shares, if_pos tombstone] at retained
    have within : entry.retained ≤ least := retained.trans_le (Nat.min_le_right _ _)
    have least_le : ∀ {stored : Nat}, stored * P.bitsPerUnit ≤ limit → least ≤ stored →
        entry.retained * P.bitsPerUnit ≤ limit := fun bounded below =>
      (Nat.mul_le_mul_right _ (within.trans below)).trans bounded
    rcases limits.2 with from_older | from_newer
    · obtain ⟨stored, found, bounded⟩ := left.storedRetained_le from_older
      rw [found] at formed
      cases other : newerArray.storedRetained entry.key with
      | none =>
          rw [other] at formed
          exact least_le bounded (Option.some_inj.mp formed).ge
      | some retained' =>
          rw [other] at formed
          exact least_le bounded ((Option.some_inj.mp formed).ge.trans (Nat.min_le_left _ _))
    · obtain ⟨stored, found, bounded⟩ := right.storedRetained_le from_newer
      rw [found] at formed
      cases other : olderArray.storedRetained entry.key with
      | none =>
          rw [other] at formed
          exact least_le bounded (Option.some_inj.mp formed).ge
      | some retained' =>
          rw [other] at formed
          exact least_le bounded ((Option.some_inj.mp formed).ge.trans (Nat.min_le_right _ _))

theorem Builds.stands {tree : MergeTree P isTombstone} {array : NativeArray P}
    (builds : tree.Builds array) (counted : tree.count ≤ maximum64) : tree.Stands array := by
  induction builds with
  | leaf written => exact stands_leaf written
  | node left right merged left_induction right_induction =>
      have parts := counted
      rw [count] at parts
      exact (stands_node (left_induction (by omega)) (right_induction (by omega)) parts merged).1

end MergeTree

end Everett

import Everett.Library.SortedMerge
import Everett.Native.Source

/-!
# Merging native arrays

`native_merge_builder` takes one distinct key at a time from two sorted arrays.  It knows how much
either head shares with the last written key, so two heads are compared past that prefix only.
-/

namespace Everett

open Word Outcome

variable (P : StoragePolicy)

/-- How the values of a common key are combined, reading the key or not. -/
inductive ComposeValues
  | keyFree (compose : BitString → BitString → BitString)
  | keyAware (compose : BitString → BitString → BitString → BitString)

namespace ComposeValues

/-- Combine an older and a newer value of a key. -/
def apply : ComposeValues → BitString → BitString → BitString → BitString
  | keyFree compose, _, older, newer => compose older newer
  | keyAware compose, key, older, newer => compose key older newer

/-- Whether a merge has to materialise its keys. -/
def readsKeys : ComposeValues → Bool
  | keyFree _ => false
  | keyAware _ => true

end ComposeValues

/-- A composition policy which stays within the values of the storage policy. -/
structure Composition where
  /-- Combination of the values of a common key. -/
  compose : ComposeValues
  /-- `is_tombstone`, of a key and its value. -/
  isTombstone : BitString → BitString → Bool
  /-- Composed values are values of the policy. -/
  valid : ∀ key older newer, P.ValidValue older → P.ValidValue newer →
    P.ValidValue (compose.apply key older newer)

/-- `replace_native_value`. -/
def replaceNativeValue : Composition P where
  compose := .keyFree fun _ newer => newer
  isTombstone := fun _ _ => false
  valid := fun _ _ _ _ newer_valid => newer_valid

/-- `native_merge_progress`. -/
structure NativeMergeProgress where
  keys : Nat
  inputRecords : Nat
  deriving DecidableEq, Repr

/-- `native_merge_builder`. -/
structure NativeMerge where
  composition : Composition P
  olderCursor : MergeSource
  newerCursor : MergeSource
  writer : NativeOutput
  progress : NativeMergeProgress
  /-- Units which the older head shares with the last written key. -/
  olderPrefix : Nat
  /-- Units which the newer head shares with the last written key. -/
  newerPrefix : Nat

namespace NativeMerge

variable {P}

/-- Open a merge of two arrays. -/
def start (composition : Composition P) (older newer : NativeArray P) : Result (NativeMerge P) := do
  let writer ← NativeOutput.start P P.valueWidth
  let olderCursor ← MergeSource.start P composition.compose.readsKeys older.frames
  let newerCursor ← MergeSource.start P composition.compose.readsKeys newer.frames
  .ok ⟨composition, olderCursor, newerCursor, writer, ⟨0, 0⟩, 0, 0⟩

/-- `done()`. -/
def done (merge : NativeMerge P) : Bool := merge.olderCursor.done && merge.newerCursor.done

/-- `require_active`. -/
def requireActive (merge : NativeMerge P) : Result Unit :=
  require (merge.writer.finished = false) "native merge is inactive"

variable (P) in
/-- The literal of the current key past a prefix; a shorter prefix than its frame's is materialised. -/
def literalFrom (source : MergeSource) (retained : Nat) : Result BitString :=
  match source with
  | .encoded _ => do
      let item ← source.peek
      if retained < item.retained then subviewFrom (source.key P) (retained * P.bitsPerUnit)
      else source.suffix P retained
  | .materialized _ => source.suffix P retained

/-- `append`: write the head of a source with a value; a tombstone keeps the limit. -/
def append (merge : NativeMerge P) (source : MergeSource) (value : BitString)
    (retained limitBits : Nat) : Result NativeOutput := do
  let retained :=
    if merge.composition.isTombstone (source.key P) value then
      min retained (limitBits / P.bitsPerUnit)
    else retained
  let literal ← literalFrom P source retained
  merge.writer.append P retained literal value

/-- `compare_heads`: the head which shares more of the last written key comes first. -/
def compareHeads (merge : NativeMerge P) : Result BitComparison :=
  if merge.olderCursor.done then .ok ⟨0, .gt⟩
  else if merge.newerCursor.done then .ok ⟨0, .lt⟩
  else if merge.olderPrefix ≠ merge.newerPrefix then
    .ok ⟨min merge.olderPrefix merge.newerPrefix * P.bitsPerUnit,
      if merge.newerPrefix < merge.olderPrefix then .lt else .gt⟩
  else do
    let older ← merge.olderCursor.suffix P merge.olderPrefix
    let newer ← merge.newerCursor.suffix P merge.newerPrefix
    let result := compareCommonBits older newer
    .ok ⟨merge.olderPrefix * P.bitsPerUnit + result.commonBits, result.order⟩

variable (P) in
/-- `advance`: step a source and report what its new head shares with its old one. -/
def advance (source : MergeSource) : Result (MergeSource × Nat) := do
  let (source, next) ← source.advanceComparison P
  require (∀ comparison ∈ next, comparison.order = .lt)
    "native merge inputs must have unique sorted keys"
  .ok (source, (next.map BitComparison.commonBits).getD 0 / P.bitsPerUnit)

/-- Take the older head. -/
def takeOlder (merge : NativeMerge P) (comparison : BitComparison) : Result (NativeMerge P) := do
  let item ← merge.olderCursor.peek
  let writer ← merge.append merge.olderCursor item.value merge.olderPrefix (item.retainedBits P)
  let (olderCursor, olderPrefix) ← advance P merge.olderCursor
  .ok { merge with
    writer, olderCursor, olderPrefix
    newerPrefix := comparison.commonBits / P.bitsPerUnit }

/-- Take the newer head. -/
def takeNewer (merge : NativeMerge P) (comparison : BitComparison) : Result (NativeMerge P) := do
  let item ← merge.newerCursor.peek
  let writer ← merge.append merge.newerCursor item.value merge.newerPrefix (item.retainedBits P)
  let (newerCursor, newerPrefix) ← advance P merge.newerCursor
  .ok { merge with
    writer, newerCursor, newerPrefix
    olderPrefix := comparison.commonBits / P.bitsPerUnit }

/-- The source which supplies the literal of a common key. -/
def donor (merge : NativeMerge P) (older newer : Frame) : MergeSource :=
  if merge.composition.compose.readsKeys = false ∧ newer.retained < older.retained then
    merge.newerCursor
  else merge.olderCursor

/-- Take both heads, which have one key. -/
def takeBoth (merge : NativeMerge P) : Result (NativeMerge P) := do
  let older ← merge.olderCursor.peek
  let newer ← merge.newerCursor.peek
  let value := merge.composition.compose.apply (merge.olderCursor.key P) older.value newer.value
  let writer ← merge.append (merge.donor older newer) value merge.olderPrefix
    (min (older.retainedBits P) (newer.retainedBits P))
  let (olderCursor, olderPrefix) ← advance P merge.olderCursor
  let (newerCursor, newerPrefix) ← advance P merge.newerCursor
  .ok { merge with writer, olderCursor, olderPrefix, newerCursor, newerPrefix }

/-- Take the least head, or both. -/
def take (merge : NativeMerge P) (comparison : BitComparison) : Result (NativeMerge P) :=
  match comparison.order with
  | .lt => merge.takeOlder comparison
  | .gt => merge.takeNewer comparison
  | .eq => merge.takeBoth

/-- Replace the progress. -/
def withProgress (merge : NativeMerge P) (progress : NativeMergeProgress) : NativeMerge P :=
  { merge with progress }

/-- One iteration of `step`: one distinct key and at most two input records. -/
def mergeOne (merge : NativeMerge P) : Result (NativeMerge P × Nat) := do
  let comparison ← merge.compareHeads
  let consumed := if comparison.order = .eq then 2 else 1
  let keys ← ProfileDetail.add merge.progress.keys 1
  let inputRecords ← ProfileDetail.add merge.progress.inputRecords consumed
  let merge ← merge.take comparison
  .ok (merge.withProgress ⟨keys, inputRecords⟩, consumed)

/-- The loop of `step`. -/
def stepKeys : Nat → NativeMerge P → Result (NativeMerge P × NativeMergeProgress)
  | 0, merge => .ok (merge, ⟨0, 0⟩)
  | budget + 1, merge =>
      if merge.done then .ok (merge, ⟨0, 0⟩)
      else do
        let (merge, consumed) ← merge.mergeOne
        let (merge, work) ← stepKeys budget merge
        .ok (merge, ⟨work.keys + 1, work.inputRecords + consumed⟩)

/-- `step`: merge at most `keyBudget` distinct keys and report the work. -/
def step (merge : NativeMerge P) (keyBudget : Nat) :
    Result (NativeMerge P × NativeMergeProgress) := do
  merge.requireActive
  stepKeys keyBudget merge

/-- `finish`. -/
def finish (merge : NativeMerge P) : Result (NativeMerge P × List Frame) := do
  merge.requireActive
  require (merge.done = true) "native merge has unconsumed inputs"
  let (writer, frames) ← merge.writer.finish
  .ok ({ merge with writer }, frames)

end NativeMerge

variable {P}

/-- The key and the value of an entry. -/
def Entry.record (entry : Entry) : BitString × BitString := (entry.key, entry.value)

/-- Keys and values of an array in order. -/
def ProfileArray.records {related : BitString → BitString → Prop} (array : ProfileArray P related) :
    List (BitString × BitString) := array.entries.map Entry.record

@[simp]
theorem ProfileArray.length_records {related : BitString → BitString → Prop}
    (array : ProfileArray P related) : array.records.length = array.size := by
  simp [records, size]

theorem ProfileArray.keys_records {related : BitString → BitString → Prop}
    (array : ProfileArray P related) : array.records.map Prod.fst = array.entries.map Entry.key := by
  simp [records, Entry.record]

theorem ProfileArray.records_sorted (array : NativeArray P) :
    (array.records.map Prod.fst).Pairwise (· < ·) := by
  rw [array.keys_records]
  exact array.sorted

/-- Every value of an array is a value of the policy. -/
def ProfileArray.ValidValues {related : BitString → BitString → Prop}
    (array : ProfileArray P related) : Prop :=
  ∀ record ∈ array.records, P.ValidValue record.2

namespace NativeMerge

/-- What is left of an input after some entries were written. -/
structure Remains (source : MergeSource) (shared : Nat) (written rest : List Entry) : Prop where
  tracks : ∃ previous ≤ lastWritten written, source.Tracks (P := P) previous rest
  sorted : (rest.map Entry.key).Pairwise (· < ·)
  later : ∀ entry ∈ rest, written = [] ∨ lastWritten written < entry.key
  shared : ∀ entry ∈ rest.head?, shared = lcp (lastWritten written) entry.key / P.bitsPerUnit
  valid : ∀ entry ∈ rest, P.ValidValue entry.value

/-- The merge has written some entries, and what it has still to write completes the target. -/
structure Merging (merge : NativeMerge P) (written olderRest newerRest : List Entry)
    (target : List (BitString × BitString)) : Prop where
  older : Remains (P := P) merge.olderCursor merge.olderPrefix written olderRest
  newer : Remains (P := P) merge.newerCursor merge.newerPrefix written newerRest
  writes : merge.writer.Writes (P := P) written
  target_eq : written.map Entry.record ++ mergeWith merge.composition.compose.apply
    (olderRest.map Entry.record) (newerRest.map Entry.record) = target
  target_valid : ∀ record ∈ written.map Entry.record, P.ValidValue record.2
  keys : merge.progress.keys = written.length
  records : written.length ≤ merge.progress.inputRecords
  room : merge.progress.inputRecords + olderRest.length + newerRest.length ≤ maximum64

/-- Units which a written record retains: a tombstone keeps within a limit. -/
def retainedFor (composition : Composition P) (key value : BitString) (shared limit : Nat) : Nat :=
  if composition.isTombstone key value then min shared limit else shared

/-- The entry which is written for a key after some others. -/
def placed (composition : Composition P) (previous key value : BitString) (limit : Nat) : Entry :=
  ⟨key, retainedFor composition key value (lcp previous key / P.bitsPerUnit) limit, value⟩

/-- The entry which is written next, and what it leaves of both inputs. -/
inductive Takes (composition : Composition P) (previous : BitString) :
    List Entry → List Entry → Entry → List Entry → List Entry → Prop
  | older {a : Entry} {older newer : List Entry} (before : ∀ entry ∈ newer, a.key < entry.key) :
      Takes composition previous (a :: older) newer
        (placed composition previous a.key a.value a.retained) older newer
  | newer {b : Entry} {older newer : List Entry} (before : ∀ entry ∈ older, b.key < entry.key) :
      Takes composition previous older (b :: newer)
        (placed composition previous b.key b.value b.retained) older newer
  | both {a b : Entry} {older newer : List Entry} (same : a.key = b.key) :
      Takes composition previous (a :: older) (b :: newer)
        (placed composition previous a.key (composition.compose.apply a.key a.value b.value)
          (min a.retained b.retained)) older newer

section Heads

variable {source : MergeSource} {shared : Nat} {written rest : List Entry} {entry : Entry}

theorem Remains.tail (remains : Remains (P := P) source shared written (entry :: rest)) :
    ∀ next ∈ rest.head?, entry.key < next.key := by
  intro next is_next
  have sorted := remains.sorted
  rw [List.map_cons, List.pairwise_cons] at sorted
  exact sorted.1 _ (List.mem_map_of_mem (List.mem_of_mem_head? is_next))

theorem Remains.last_le (remains : Remains (P := P) source shared written (entry :: rest)) :
    lastWritten written ≤ entry.key := by
  rcases remains.later entry List.mem_cons_self with rfl | less
  · simp [lastWritten]
  · exact less.le

/-- What the frame of a head retains lies within what it shares with the last written key. -/
theorem Remains.retained_le (remains : Remains (P := P) source shared written (entry :: rest)) :
    entry.retained ≤ shared ∧ shared * P.bitsPerUnit ≤ lcp (lastWritten written) entry.key := by
  obtain ⟨previous, below, tracks⟩ := remains.tracks
  rw [remains.shared entry rfl]
  refine ⟨?_, Nat.div_mul_le_self _ _⟩
  rw [Nat.le_div_iff_mul_le P.bitsPerUnit_pos]
  exact tracks.retains.1.trans (lcp_between below remains.last_le).2

theorem Remains.suffix_ok (remains : Remains (P := P) source shared written (entry :: rest)) :
    source.suffix P shared = .ok (entry.key.drop (shared * P.bitsPerUnit)) := by
  obtain ⟨previous, below, tracks⟩ := remains.tracks
  obtain ⟨retains, within⟩ := remains.retained_le
  exact tracks.suffix_ok retains (within.trans (lcp_le_right _ _))

theorem Remains.literalFrom_ok (remains : Remains (P := P) source shared written (entry :: rest))
    {retained : Nat} (within : retained ≤ shared) :
    literalFrom P source retained = .ok (entry.key.drop (retained * P.bitsPerUnit)) := by
  obtain ⟨previous, below, tracks⟩ := remains.tracks
  have inside : retained * P.bitsPerUnit ≤ entry.key.length :=
    (Nat.mul_le_mul_right _ within).trans (remains.retained_le.2.trans (lcp_le_right _ _))
  have peeked := tracks.peek_ok
  have key := tracks.key_eq
  have from_suffix := fun retains => @MergeSource.Tracks.suffix_ok P _ _ _ _ tracks retained retains inside
  cases source with
  | encoded source =>
      simp only [literalFrom, peeked, ok_bind, key]
      split
      · rw [subviewFrom, require_true inside, ok_bind]
      · rename_i covers
        exact from_suffix (Nat.not_lt.mp covers)
  | materialized cursor =>
      simp only [literalFrom, MergeSource.suffix, subviewFrom]
      have scratch : cursor.scratch = entry.key := key
      rw [scratch, require_true inside, ok_bind]

/-- Writing the head of an input with any value of the policy extends what is written. -/
theorem Remains.append_ok {merge : NativeMerge P}
    (remains : Remains (P := P) source shared written (entry :: rest))
    (writes : merge.writer.Writes (P := P) written) {value : BitString}
    (valid : P.ValidValue value) (room : written.length < maximum64) (limit : Nat) :
    ∃ output, merge.append source value shared (limit * P.bitsPerUnit) = .ok output ∧
      output.Writes (P := P)
        (written ++ [placed merge.composition (lastWritten written) entry.key value limit]) := by
  obtain ⟨previous, below, tracks⟩ := remains.tracks
  have limit_units : limit * P.bitsPerUnit / P.bitsPerUnit = limit :=
    Nat.mul_div_cancel _ P.bitsPerUnit_pos
  set retained := retainedFor merge.composition entry.key value shared limit with retained_eq
  have within : retained ≤ shared := by
    rw [retained_eq, retainedFor]
    split
    · exact Nat.min_le_left _ _
    · exact le_rfl
  have shares : retained * P.bitsPerUnit ≤ lcp (lastWritten written) entry.key :=
    (Nat.mul_le_mul_right _ within).trans remains.retained_le.2
  have later : written = [] ∨ lastWritten written < entry.key :=
    remains.later entry List.mem_cons_self
  have aligned : P.Aligned entry.key := tracks.retains.2.1
  obtain ⟨output, appended, extended⟩ := @NativeOutput.Writes.append_ok P _ _ writes
    ⟨entry.key, retained, value⟩ shares later aligned valid room
  refine ⟨output, ?_, ?_⟩
  · have same : (if merge.composition.isTombstone (source.key P) value then
        min shared (limit * P.bitsPerUnit / P.bitsPerUnit) else shared) = retained := by
      rw [tracks.key_eq, limit_units, retained_eq, retainedFor]
    rw [append, same, remains.literalFrom_ok within, ok_bind]
    exact appended
  · have entry_eq : placed merge.composition (lastWritten written) entry.key value limit =
        ⟨entry.key, retained, value⟩ := by
      rw [placed, ← remains.shared entry rfl]
    rw [entry_eq]
    exact extended

/-- After its head was written, an input goes on with the rest. -/
theorem Remains.advance_ok (remains : Remains (P := P) source shared written (entry :: rest))
    (next : Entry) (same : next.key = entry.key) :
    ∃ following shared', advance P source = .ok (following, shared') ∧
      Remains (P := P) following shared' (written ++ [next]) rest := by
  obtain ⟨previous, below, tracks⟩ := remains.tracks
  obtain ⟨following, advanced, after⟩ := tracks.advanceComparison_ok remains.tail
  have ordered : ∀ comparison ∈ rest.head?.map fun next => compareCommonBits entry.key next.key,
      comparison.order = .lt := by
    intro comparison member
    obtain ⟨following, is_next, rfl⟩ := Option.map_eq_some_iff.mp member
    exact order_eq_lt.mpr (remains.tail _ is_next)
  have sorted := remains.sorted
  rw [List.map_cons, List.pairwise_cons] at sorted
  have stepped : advance P source = .ok (following,
      ((rest.head?.map fun next => compareCommonBits entry.key next.key).map
        BitComparison.commonBits).getD 0 / P.bitsPerUnit) := by
    rw [advance, advanced, ok_bind]
    simp only
    rw [require_true ordered, ok_bind]
  refine ⟨following, _, stepped, ⟨⟨entry.key, ?_, after⟩, sorted.2, ?_, ?_, ?_⟩⟩
  · rw [lastWritten_append, same]
  · intro later member
    rw [lastWritten_append, same]
    exact .inr (sorted.1 _ (List.mem_map_of_mem member))
  · intro head is_head
    rw [Option.mem_def.mp is_head, lastWritten_append, same]
    rfl
  · exact fun later member => remains.valid later (List.mem_cons_of_mem _ member)

/-- An input whose head comes after a written entry keeps its place. -/
theorem Remains.keep (remains : Remains (P := P) source shared written rest) (next : Entry)
    (above : lastWritten written ≤ next.key) (before : ∀ entry ∈ rest, next.key < entry.key)
    (shared' : Nat) (shares : ∀ entry ∈ rest.head?,
      shared' = lcp next.key entry.key / P.bitsPerUnit) :
    Remains (P := P) source shared' (written ++ [next]) rest := by
  obtain ⟨previous, below, tracks⟩ := remains.tracks
  refine ⟨⟨previous, ?_, tracks⟩, remains.sorted, ?_, ?_, remains.valid⟩
  · rw [lastWritten_append]
    exact below.trans above
  · intro entry member
    rw [lastWritten_append]
    exact .inr (before entry member)
  · intro entry is_head
    rw [lastWritten_append]
    exact shares entry is_head

theorem Remains.head_le (remains : Remains (P := P) source shared written (entry :: rest)) {other}
    (member : other ∈ entry :: rest) : entry.key ≤ other.key := by
  have sorted := remains.sorted
  rw [List.map_cons, List.pairwise_cons] at sorted
  rcases List.mem_cons.mp member with rfl | later
  · exact le_rfl
  · exact (sorted.1 _ (List.mem_map_of_mem later)).le

end Heads

section Steps

variable {merge : NativeMerge P} {written olderRest newerRest : List Entry}
  {target : List (BitString × BitString)}

/-- Two live heads are compared exactly, and what they share is known in units. -/
theorem Merging.compareHeads_ok {a b : Entry}
    (merging : merge.Merging written (a :: olderRest) (b :: newerRest) target) :
    ∃ comparison, merge.compareHeads = .ok comparison ∧ comparison.order = order a.key b.key ∧
      comparison.commonBits / P.bitsPerUnit = lcp a.key b.key / P.bitsPerUnit := by
  obtain ⟨_, _, older_tracks⟩ := merging.older.tracks
  obtain ⟨_, _, newer_tracks⟩ := merging.newer.tracks
  have older_live : merge.olderCursor.done = false := older_tracks.done_iff
  have newer_live : merge.newerCursor.done = false := newer_tracks.done_iff
  have older_shared := merging.older.shared a rfl
  have newer_shared := merging.newer.shared b rfl
  have older_last := merging.older.last_le
  have newer_last := merging.newer.last_le
  set last := lastWritten written
  simp only [compareHeads, older_live, newer_live, Bool.false_eq_true, if_false]
  by_cases different : merge.olderPrefix ≠ merge.newerPrefix
  · rw [if_pos different]
    rcases Nat.lt_or_gt_of_ne different with fewer | more
    · -- The newer head shares more of the last written key.
      have shares : lcp last a.key < lcp last b.key := by
        rw [older_shared, newer_shared] at fewer
        exact Nat.lt_of_div_lt_div fewer
      obtain ⟨less, common⟩ := lt_of_lcp_lt older_last shares
      refine ⟨_, rfl, ?_, ?_⟩
      · rw [if_neg fewer.not_gt, order_eq_gt.mpr less]
      · rw [Nat.min_eq_left fewer.le, Nat.mul_div_cancel _ P.bitsPerUnit_pos, older_shared,
          lcp_comm a.key, common]
    · have shares : lcp last b.key < lcp last a.key := by
        rw [older_shared, newer_shared] at more
        exact Nat.lt_of_div_lt_div more
      obtain ⟨less, common⟩ := lt_of_lcp_lt newer_last shares
      refine ⟨_, rfl, ?_, ?_⟩
      · rw [if_pos more, order_eq_lt.mpr less]
      · rw [Nat.min_eq_right more.le, Nat.mul_div_cancel _ P.bitsPerUnit_pos, newer_shared, common]
  · rw [if_neg different]
    have same : merge.olderPrefix = merge.newerPrefix := not_not.mp different
    have agrees : merge.olderPrefix * P.bitsPerUnit ≤ lcp a.key b.key := by
      have older_within := merging.older.retained_le.2
      have newer_within := merging.newer.retained_le.2
      rw [← same] at newer_within
      rw [lcp_comm] at older_within
      exact (le_min older_within newer_within).trans (min_lcp_le _ _ _)
    have newer_suffix := merging.newer.suffix_ok
    rw [← same] at newer_suffix
    rw [← same, merging.older.suffix_ok, newer_suffix]
    refine ⟨_, rfl, ?_, ?_⟩
    · exact (order_drop agrees).symm
    · rw [compareCommonBits, ← lcp_drop agrees]

theorem Merging.done_iff (merging : merge.Merging written olderRest newerRest target) :
    merge.done = true ↔ olderRest = [] ∧ newerRest = [] := by
  obtain ⟨_, _, older_tracks⟩ := merging.older.tracks
  obtain ⟨_, _, newer_tracks⟩ := merging.newer.tracks
  rw [done, older_tracks.done_iff, newer_tracks.done_iff]
  simp

/-- Taking an older head which comes first. -/
theorem Merging.takeOlder_ok {a : Entry} {comparison : BitComparison}
    (merging : merge.Merging written (a :: olderRest) newerRest target)
    (before : ∀ entry ∈ newerRest, a.key < entry.key)
    (shares : ∀ b ∈ newerRest.head?,
      comparison.commonBits / P.bitsPerUnit = lcp a.key b.key / P.bitsPerUnit) :
    ∃ next, merge.takeOlder comparison = .ok next ∧ next.composition = merge.composition ∧
      (next.withProgress ⟨merge.progress.keys + 1, merge.progress.inputRecords + 1⟩).Merging
        (written ++ [placed merge.composition (lastWritten written) a.key a.value a.retained])
        olderRest newerRest target := by
  have room := merging.room
  rw [List.length_cons] at room
  have records := merging.records
  have valid := merging.older.valid a List.mem_cons_self
  obtain ⟨_, _, tracks⟩ := merging.older.tracks
  obtain ⟨output, appended, extended⟩ := merging.older.append_ok merging.writes valid
    (by omega) a.retained
  set entry := placed merge.composition (lastWritten written) a.key a.value a.retained
  obtain ⟨cursor, shared, advanced, remains⟩ := merging.older.advance_ok entry rfl
  have kept := merging.newer.keep entry merging.older.last_le before
    (comparison.commonBits / P.bitsPerUnit) shares
  have result : merge.takeOlder comparison = .ok { merge with
      writer := output, olderCursor := cursor, olderPrefix := shared
      newerPrefix := comparison.commonBits / P.bitsPerUnit } := by
    have item_value : (a.frame P).value = a.value := rfl
    have item_retained : (a.frame P).retainedBits P = a.retained * P.bitsPerUnit := rfl
    rw [takeOlder, tracks.peek_ok, ok_bind, item_value, item_retained, appended, ok_bind, advanced,
      ok_bind]
  refine ⟨_, result, rfl, ?_⟩
  refine ⟨remains, kept, extended, ?_, ?_, ?_, ?_, ?_⟩
  · rw [← merging.target_eq, List.map_append, List.append_assoc]
    congr 1
    have record_eq : entry.record = a.record := rfl
    cases newerRest with
    | nil => simp [record_eq]
    | cons b newerRest =>
        rw [List.map_cons, List.map_cons]
        exact (mergeWith_of_lt (before b List.mem_cons_self)).symm
  · simp only [List.map_append, List.mem_append, List.map_cons, List.map_nil, List.mem_singleton]
    rintro record (early | rfl)
    · exact merging.target_valid record early
    · exact valid
  · simp [withProgress, merging.keys]
  · simp only [withProgress, List.length_append, List.length_singleton]
    omega
  · simp only [withProgress]
    omega

/-- Taking a newer head which comes first. -/
theorem Merging.takeNewer_ok {b : Entry} {comparison : BitComparison}
    (merging : merge.Merging written olderRest (b :: newerRest) target)
    (before : ∀ entry ∈ olderRest, b.key < entry.key)
    (shares : ∀ a ∈ olderRest.head?,
      comparison.commonBits / P.bitsPerUnit = lcp b.key a.key / P.bitsPerUnit) :
    ∃ next, merge.takeNewer comparison = .ok next ∧ next.composition = merge.composition ∧
      (next.withProgress ⟨merge.progress.keys + 1, merge.progress.inputRecords + 1⟩).Merging
        (written ++ [placed merge.composition (lastWritten written) b.key b.value b.retained])
        olderRest newerRest target := by
  have room := merging.room
  rw [List.length_cons] at room
  have records := merging.records
  have valid := merging.newer.valid b List.mem_cons_self
  obtain ⟨_, _, tracks⟩ := merging.newer.tracks
  obtain ⟨output, appended, extended⟩ := merging.newer.append_ok merging.writes valid
    (by omega) b.retained
  set entry := placed merge.composition (lastWritten written) b.key b.value b.retained
  obtain ⟨cursor, shared, advanced, remains⟩ := merging.newer.advance_ok entry rfl
  have kept := merging.older.keep entry merging.newer.last_le before
    (comparison.commonBits / P.bitsPerUnit) shares
  have result : merge.takeNewer comparison = .ok { merge with
      writer := output, newerCursor := cursor, newerPrefix := shared
      olderPrefix := comparison.commonBits / P.bitsPerUnit } := by
    have item_value : (b.frame P).value = b.value := rfl
    have item_retained : (b.frame P).retainedBits P = b.retained * P.bitsPerUnit := rfl
    rw [takeNewer, tracks.peek_ok, ok_bind, item_value, item_retained, appended, ok_bind, advanced,
      ok_bind]
  refine ⟨_, result, rfl, ?_⟩
  refine ⟨kept, remains, extended, ?_, ?_, ?_, ?_, ?_⟩
  · rw [← merging.target_eq, List.map_append, List.append_assoc]
    congr 1
    have record_eq : entry.record = b.record := rfl
    cases olderRest with
    | nil => simp [record_eq]
    | cons a olderRest =>
        rw [List.map_cons, List.map_cons]
        exact (mergeWith_of_gt (before a List.mem_cons_self)).symm
  · simp only [List.map_append, List.mem_append, List.map_cons, List.map_nil, List.mem_singleton]
    rintro record (early | rfl)
    · exact merging.target_valid record early
    · exact valid
  · simp [withProgress, merging.keys]
  · simp only [withProgress, List.length_append, List.length_singleton]
    omega
  · simp only [withProgress]
    omega

/-- Taking two heads of one key, which are combined whichever supplies the literal. -/
theorem Merging.takeBoth_ok {a b : Entry} (same : a.key = b.key)
    (merging : merge.Merging written (a :: olderRest) (b :: newerRest) target) :
    ∃ next, merge.takeBoth = .ok next ∧ next.composition = merge.composition ∧
      (next.withProgress ⟨merge.progress.keys + 1, merge.progress.inputRecords + 2⟩).Merging
        (written ++ [placed merge.composition (lastWritten written) a.key
          (merge.composition.compose.apply a.key a.value b.value) (min a.retained b.retained)])
        olderRest newerRest target := by
  have room := merging.room
  rw [List.length_cons, List.length_cons] at room
  have records := merging.records
  have older_valid := merging.older.valid a List.mem_cons_self
  have newer_valid := merging.newer.valid b List.mem_cons_self
  obtain ⟨_, _, older_tracks⟩ := merging.older.tracks
  obtain ⟨_, _, newer_tracks⟩ := merging.newer.tracks
  set value := merge.composition.compose.apply a.key a.value b.value with value_eq
  have valid : P.ValidValue value := merge.composition.valid _ _ _ older_valid newer_valid
  have prefixes : merge.olderPrefix = merge.newerPrefix := by
    rw [merging.older.shared a rfl, merging.newer.shared b rfl, same]
  -- Either literal stands for the common key.
  set entry := placed merge.composition (lastWritten written) a.key value
    (min a.retained b.retained) with entry_eq
  have written_either : ∃ output,
      merge.append (merge.donor (a.frame P) (b.frame P)) value merge.olderPrefix
        (min a.retained b.retained * P.bitsPerUnit) = .ok output ∧
      output.Writes (P := P) (written ++ [entry]) := by
    unfold donor
    split
    · rw [prefixes, entry_eq, same]
      exact merging.newer.append_ok merging.writes valid (by omega) _
    · exact merging.older.append_ok merging.writes valid (by omega) _
  have limits : min ((a.frame P).retainedBits P) ((b.frame P).retainedBits P) =
      min a.retained b.retained * P.bitsPerUnit := Nat.mul_min_mul_right _ _ _
  obtain ⟨output, appended, extended⟩ := written_either
  obtain ⟨olderCursor, olderShared, older_advanced, older_remains⟩ :=
    merging.older.advance_ok entry rfl
  obtain ⟨newerCursor, newerShared, newer_advanced, newer_remains⟩ :=
    merging.newer.advance_ok entry same
  have result : merge.takeBoth = .ok { merge with
      writer := output, olderCursor, olderPrefix := olderShared
      newerCursor, newerPrefix := newerShared } := by
    have older_value : (a.frame P).value = a.value := rfl
    have newer_value : (b.frame P).value = b.value := rfl
    rw [takeBoth, older_tracks.peek_ok, ok_bind, newer_tracks.peek_ok, ok_bind,
      older_tracks.key_eq, older_value, newer_value, ← value_eq, limits]
    simp only
    rw [appended, ok_bind, older_advanced, ok_bind, newer_advanced, ok_bind]
  refine ⟨_, result, rfl, ?_⟩
  refine ⟨older_remains, newer_remains, extended, ?_, ?_, ?_, ?_, ?_⟩
  · rw [← merging.target_eq, List.map_append, List.append_assoc]
    congr 1
    have combined := @mergeWith_of_eq _ _ _ merge.composition.compose.apply a.key a.value
      b.value (olderRest.map Entry.record) (newerRest.map Entry.record)
    have newer_record : b.record = (a.key, b.value) := by rw [Entry.record, same]
    have heads : (b :: newerRest).map Entry.record =
        (a.key, b.value) :: newerRest.map Entry.record := by rw [List.map_cons, newer_record]
    rw [heads]
    exact combined.symm
  · simp only [List.map_append, List.mem_append, List.map_cons, List.map_nil, List.mem_singleton]
    rintro record (early | rfl)
    · exact merging.target_valid record early
    · exact valid
  · simp [withProgress, merging.keys]
  · simp only [withProgress, List.length_append, List.length_singleton]
    omega
  · simp only [withProgress]
    omega

/-- The heads are compared, and what comes first is taken. -/
theorem Merging.take_ok (merging : merge.Merging written olderRest newerRest target)
    (live : ¬ (olderRest = [] ∧ newerRest = [])) :
    ∃ comparison next entry olderRest' newerRest', merge.compareHeads = .ok comparison ∧
      merge.take comparison = .ok next ∧ next.composition = merge.composition ∧
      Takes merge.composition (lastWritten written) olderRest newerRest entry olderRest' newerRest' ∧
      (next.withProgress ⟨merge.progress.keys + 1, merge.progress.inputRecords +
        if comparison.order = .eq then 2 else 1⟩).Merging (written ++ [entry])
        olderRest' newerRest' target ∧
      olderRest'.length + newerRest'.length + (if comparison.order = .eq then 2 else 1) =
        olderRest.length + newerRest.length := by
  have older_first : ∀ {a : Entry} {rest : List Entry} (comparison : BitComparison),
      merge.Merging written (a :: rest) newerRest target → comparison.order = .lt →
      (∀ entry ∈ newerRest, a.key < entry.key) →
      (∀ b ∈ newerRest.head?,
        comparison.commonBits / P.bitsPerUnit = lcp a.key b.key / P.bitsPerUnit) →
      ∃ next entry, merge.take comparison = .ok next ∧ next.composition = merge.composition ∧
        Takes merge.composition (lastWritten written) (a :: rest) newerRest entry rest newerRest ∧
        (next.withProgress ⟨merge.progress.keys + 1, merge.progress.inputRecords +
          if comparison.order = .eq then 2 else 1⟩).Merging (written ++ [entry]) rest newerRest
          target := by
    intro a rest comparison merging less before shares
    obtain ⟨next, taken, kept, after⟩ := merging.takeOlder_ok before shares
    exact ⟨next, _, by rw [take, less]; exact taken, kept, .older before, by simpa [less] using after⟩
  have newer_first : ∀ {b : Entry} {rest : List Entry} (comparison : BitComparison),
      merge.Merging written olderRest (b :: rest) target → comparison.order = .gt →
      (∀ entry ∈ olderRest, b.key < entry.key) →
      (∀ a ∈ olderRest.head?,
        comparison.commonBits / P.bitsPerUnit = lcp b.key a.key / P.bitsPerUnit) →
      ∃ next entry, merge.take comparison = .ok next ∧ next.composition = merge.composition ∧
        Takes merge.composition (lastWritten written) olderRest (b :: rest) entry olderRest rest ∧
        (next.withProgress ⟨merge.progress.keys + 1, merge.progress.inputRecords +
          if comparison.order = .eq then 2 else 1⟩).Merging (written ++ [entry]) olderRest rest
          target := by
    intro b rest comparison merging greater before shares
    obtain ⟨next, taken, kept, after⟩ := merging.takeNewer_ok before shares
    exact ⟨next, _, by rw [take, greater]; exact taken, kept, .newer before,
      by simpa [greater] using after⟩
  cases olderRest with
  | nil =>
      cases newerRest with
      | nil => exact absurd ⟨rfl, rfl⟩ live
      | cons b newerRest =>
          obtain ⟨_, _, tracks⟩ := merging.older.tracks
          have exhausted : merge.olderCursor.done = true := tracks.done_iff
          obtain ⟨next, entry, taken, kept, takes, after⟩ := newer_first ⟨0, .gt⟩ merging rfl
            (by simp) (by simp)
          exact ⟨⟨0, .gt⟩, next, entry, [], newerRest, by simp [compareHeads, exhausted], taken,
            kept, takes, after, by simp⟩
  | cons a olderRest =>
      obtain ⟨_, _, older_tracks⟩ := merging.older.tracks
      have older_live : merge.olderCursor.done = false := older_tracks.done_iff
      cases newerRest with
      | nil =>
          obtain ⟨_, _, tracks⟩ := merging.newer.tracks
          have exhausted : merge.newerCursor.done = true := tracks.done_iff
          obtain ⟨next, entry, taken, kept, takes, after⟩ := older_first ⟨0, .lt⟩ merging rfl
            (by simp) (by simp)
          exact ⟨⟨0, .lt⟩, next, entry, olderRest, [],
            by simp [compareHeads, older_live, exhausted], taken, kept, takes, after, by simp⟩
      | cons b newerRest =>
          obtain ⟨comparison, compared, ordered, shares⟩ := merging.compareHeads_ok
          rcases lt_trichotomy a.key b.key with less | same | greater
          · have less_order : comparison.order = .lt := ordered.trans (order_eq_lt.mpr less)
            obtain ⟨next, entry, taken, kept, takes, after⟩ := older_first _ merging less_order
              (fun entry member => less.trans_le (merging.newer.head_le member))
              (fun head is_head => by cases Option.mem_some_iff.mp is_head; exact shares)
            exact ⟨comparison, next, entry, olderRest, b :: newerRest, compared, taken, kept, takes,
              after, by simp [less_order]; omega⟩
          · have equal_order : comparison.order = .eq := ordered.trans (order_eq_eq.mpr same)
            obtain ⟨next, taken, kept, after⟩ := merging.takeBoth_ok same
            exact ⟨comparison, next, _, olderRest, newerRest, compared,
              by rw [take, equal_order]; exact taken, kept, .both same,
              by simpa [equal_order] using after, by simp [equal_order]; omega⟩
          · have greater_order : comparison.order = .gt := ordered.trans (order_eq_gt.mpr greater)
            obtain ⟨next, entry, taken, kept, takes, after⟩ := newer_first _ merging greater_order
              (fun entry member => greater.trans_le (merging.older.head_le member))
              (fun head is_head => by
                cases Option.mem_some_iff.mp is_head
                rw [shares, lcp_comm])
            exact ⟨comparison, next, entry, a :: olderRest, newerRest, compared, taken, kept, takes,
              after, by simp [greater_order]; omega⟩

/-- While input is left, one key is written and one or two records are consumed. -/
theorem Merging.mergeOne_ok (merging : merge.Merging written olderRest newerRest target)
    (live : ¬ (olderRest = [] ∧ newerRest = [])) :
    ∃ next consumed entry olderRest' newerRest', merge.mergeOne = .ok (next, consumed) ∧
      next.composition = merge.composition ∧
      Takes merge.composition (lastWritten written) olderRest newerRest entry olderRest' newerRest' ∧
      next.Merging (written ++ [entry]) olderRest' newerRest' target ∧ 1 ≤ consumed ∧
      next.progress = ⟨merge.progress.keys + 1, merge.progress.inputRecords + consumed⟩ ∧
      olderRest'.length + newerRest'.length + consumed = olderRest.length + newerRest.length := by
  obtain ⟨comparison, next, entry, olderRest', newerRest', compared, taken, kept, takes, after,
    lengths⟩ := merging.take_ok live
  have room := merging.room
  have records := merging.records
  have keys := merging.keys
  set consumed := if comparison.order = .eq then 2 else 1 with consumed_eq
  have positive : 1 ≤ consumed := by
    rw [consumed_eq]
    split <;> omega
  have room_keys : merge.progress.keys + 1 ≤ maximum64 := by omega
  have room_records : merge.progress.inputRecords + consumed ≤ maximum64 := by omega
  have result : merge.mergeOne = .ok (next.withProgress
      ⟨merge.progress.keys + 1, merge.progress.inputRecords + consumed⟩, consumed) := by
    rw [mergeOne, compared, ok_bind]
    simp only [← consumed_eq, ProfileDetail.add, room_keys, room_records, if_true, ok_bind, taken]
  exact ⟨_, consumed, entry, olderRest', newerRest', result, kept, takes, after, positive, rfl,
    lengths⟩

/-- A step with a budget of one key makes progress unless the merge is done. -/
theorem Merging.step_one_ok (merging : merge.Merging written olderRest newerRest target)
    (live : ¬ (olderRest = [] ∧ newerRest = [])) :
    ∃ next work entry olderRest' newerRest', merge.step 1 = .ok (next, work) ∧
      next.Merging (written ++ [entry]) olderRest' newerRest' target ∧ work.keys = 1 ∧
      olderRest'.length + newerRest'.length < olderRest.length + newerRest.length := by
  obtain ⟨next, consumed, entry, olderRest', newerRest', merged, -, -, after, positive, -,
    lengths⟩ := merging.mergeOne_ok live
  have not_done : merge.done = false := by
    rw [← Bool.not_eq_true, merging.done_iff]
    exact live
  have result : merge.step 1 = .ok (next, ⟨1, consumed⟩) := by
    rw [step, requireActive, require_true merging.writes.active, ok_bind, stepKeys]
    simp [not_done, merged, stepKeys]
  exact ⟨next, ⟨1, consumed⟩, entry, olderRest', newerRest', result, after, rfl, by omega⟩

/-- A merge which is done has written its target. -/
theorem Merging.finish_ok (merging : merge.Merging written [] [] target) :
    ∃ closed frames array, merge.finish = .ok (closed, frames) ∧
      NativeArray.fromOwned P frames = .ok array ∧ array.records = target ∧
      array.ValidValues ∧ array.size = merge.progress.keys := by
  have room := merging.room
  have records := merging.records
  obtain ⟨closed, array, finished, adopted, entries⟩ := merging.writes.finish_ok (by omega)
  have records_eq : array.records = target := by
    rw [ProfileArray.records, entries, ← merging.target_eq]
    simp
  refine ⟨{ merge with writer := closed }, merge.writer.frames, array, ?_, adopted, records_eq,
    ?_, ?_⟩
  · rw [finish, requireActive, require_true merging.writes.active, ok_bind,
      require_true (merging.done_iff.mpr ⟨rfl, rfl⟩), ok_bind, finished, ok_bind]
  · rw [ProfileArray.ValidValues, ProfileArray.records, entries]
    exact merging.target_valid
  · rw [ProfileArray.size, entries, merging.keys]

theorem progress_start {composition : Composition P} {older newer : NativeArray P}
    (started : start composition older newer = .ok merge) : merge.progress = ⟨0, 0⟩ := by
  rw [start, bind_eq_ok] at started
  obtain ⟨writer, -, started⟩ := started
  rw [bind_eq_ok] at started
  obtain ⟨olderCursor, -, started⟩ := started
  rw [bind_eq_ok] at started
  obtain ⟨newerCursor, -, started⟩ := started
  cases started
  rfl

/-- A merge opens on two arrays of valid values and aims at their combination. -/
theorem start_ok (composition : Composition P) {older newer : NativeArray P}
    (fits : P.valueWidth.getD 0 * P.bitsPerUnit ≤ maximum64) (older_valid : older.ValidValues)
    (newer_valid : newer.ValidValues) (room : older.size + newer.size ≤ maximum64) :
    ∃ merge, start composition older newer = .ok merge ∧ merge.composition = composition ∧
      merge.Merging [] older.entries newer.entries
        (mergeWith composition.compose.apply older.records newer.records) := by
  obtain ⟨writer, opened, writes⟩ := NativeOutput.start_ok fits
  obtain ⟨olderCursor, older_opened, older_tracks⟩ :=
    MergeSource.start_ok composition.compose.readsKeys older
  obtain ⟨newerCursor, newer_opened, newer_tracks⟩ :=
    MergeSource.start_ok composition.compose.readsKeys newer
  have begins : ∀ {source : MergeSource} {array : NativeArray P}, array.ValidValues →
      source.Tracks (P := P) [] array.entries →
      Remains (P := P) source 0 [] array.entries := by
    intro source array valid tracks
    refine ⟨⟨[], le_rfl, tracks⟩, array.sorted, fun _ _ => .inl rfl, ?_, ?_⟩
    · simp [lastWritten]
    · exact fun entry member => valid _ (List.mem_map_of_mem member)
  have result : start composition older newer =
      .ok ⟨composition, olderCursor, newerCursor, writer, ⟨0, 0⟩, 0, 0⟩ := by
    rw [start, opened, ok_bind, older_opened, ok_bind, newer_opened, ok_bind]
  refine ⟨_, result, rfl, ?_⟩
  exact ⟨begins older_valid older_tracks, begins newer_valid newer_tracks, writes, rfl,
    by simp, rfl, by simp, by simpa [ProfileArray.size] using room⟩

end Steps

end NativeMerge

end Everett

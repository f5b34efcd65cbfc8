import Everett.Library.SortedTable
import Everett.World.Pins

/-!
# Reference worlds

A reference world pins sorted runs of records.  The newest run which holds a key decides its value,
so the runs resolve to one table, whose size and fingerprint every operation keeps up to date.
-/

namespace Everett

open Outcome

variable {K V E : Type} [LinearOrder K]

/-- `world_record`: a key and its value, or a tombstone. -/
structure WorldRecord (K V : Type) where
  key : K
  value : Option V
  deriving DecidableEq

/-- `world_edit`: what a key held before and holds after. -/
structure WorldEdit (K V : Type) where
  key : K
  before : Option V
  after : Option V
  deriving DecidableEq

/-- The key and the value of a record. -/
def WorldRecord.entry (record : WorldRecord K V) : K × Option V := (record.key, record.value)

/-- `reference_world`; its runs are named by a sequence of the process. -/
structure World (K V E : Type) where
  owner : PinSet (List (WorldRecord K V)) E
  liveSize : Nat

/-- A search in one sorted run: `lower_bound`, and a comparison of the key found. -/
def findRecord (key : K) (run : List (WorldRecord K V)) : Option (Option V) :=
  match run.find? fun entry => ¬ entry.key < key with
  | some entry => if entry.key = key then some entry.value else none
  | none => none

/-- Assign all records of a run. -/
def assignRun (table : List (K × Option V)) (run : List (WorldRecord K V)) :
    List (K × Option V) :=
  run.foldl (fun table entry => assign entry.key entry.value table) table

namespace World

/-- `get`: the newest run which holds the key decides. -/
def get (world : World K V E) (key : K) : Option V :=
  (world.owner.pins.reverse.findSome? (findRecord key)).join

/-- `resolved`: assign the records of all runs, the oldest first, and keep the live ones. -/
def resolved (world : World K V E) : List (K × V) :=
  present (world.owner.pins.foldl assignRun [])

variable [Ring E]

/-- `signature`. -/
def signature (world : World K V E) : E := world.owner.signature

/-- A world without records. -/
def empty : World K V E := ⟨.empty, 0⟩

variable (hash : TableHash K V E)

/-- `recompute_signature`. -/
def recomputeSignature (world : World K V E) : E :=
  world.resolved.foldl (fun result entry => result + hash.binding entry.1 (some entry.2)) 0

/-- The loop of `from_records`: refuse tombstones and duplicates, and sum the bindings. -/
def fromRecordsLoop : Option K → List (WorldRecord K V) → E → Except String E
  | _, [], signature => .ok signature
  | previous, entry :: rest, signature => do
      require (entry.value.isSome = true) "initial record is a tombstone"
      require (previous ≠ some entry.key) "duplicate initial world key"
      fromRecordsLoop (some entry.key) rest (signature + hash.binding entry.key entry.value)

/-- `from_records`, with the next name of a run. -/
def fromRecords (sequence : Nat) (records : List (WorldRecord K V)) :
    Except String (World K V E × Nat) := do
  let records := records.mergeSort fun a b => a.key ≤ b.key
  let signature ← fromRecordsLoop hash none records 0
  if records.isEmpty = true then .ok (⟨.empty, 0⟩, sequence)
  else do
    let owner ← PinSet.empty.add ⟨sequence, records, signature, some signature⟩
    .ok (⟨owner, records.length⟩, sequence + 1)

/-- `compact`: replace all runs by one of the live records. -/
def compact [DecidableEq E] (world : World K V E) (sequence : Nat) :
    Except String (World K V E × Nat) := do
  let (result, sequence) ←
    fromRecords hash sequence (world.resolved.map fun entry => ⟨entry.1, some entry.2⟩)
  let inputs := world.owner.entries.map PinEntry.objectId
  let owner ← world.owner.replace inputs result.owner.entries
  .ok (⟨owner, world.liveSize⟩, sequence)

/-- The live size after an edit. -/
def editSize (liveSize : Nat) (edit : WorldEdit K V) : Nat :=
  let grown := if edit.before.isNone ∧ edit.after.isSome then liveSize + 1 else liveSize
  if edit.before.isSome ∧ edit.after.isNone then grown - 1 else grown

/-- Records which edits leave behind. -/
def editRecords (edits : List (WorldEdit K V)) : List (WorldRecord K V) :=
  edits.map fun edit => ⟨edit.key, edit.after⟩

/-- `append`: pin a run of edits. -/
def append (world : World K V E) (sequence : Nat) (edits : List (WorldEdit K V)) :
    Except String (World K V E × Nat) :=
  let contribution :=
    edits.foldl (fun sum edit => sum + hash.delta edit.key edit.before edit.after) 0
  let nativeSignature := edits.foldl (fun sum edit => sum + hash.binding edit.key edit.after) 0
  let liveSize := edits.foldl editSize world.liveSize
  if edits.isEmpty = true then .ok (⟨world.owner, liveSize⟩, sequence)
  else do
    let owner ←
      world.owner.add ⟨sequence, editRecords edits, contribution, some nativeSignature⟩
    .ok (⟨owner, liveSize⟩, sequence + 1)

end World

/-! ## What runs resolve to -/

/-- The keys of a run increase. -/
def RunSorted (run : List (WorldRecord K V)) : Prop := (run.map WorldRecord.key).Pairwise (· < ·)

variable {key : K} {run : List (WorldRecord K V)} {table : List (K × Option V)}

omit [LinearOrder K] in
theorem map_fst_entry : (run.map WorldRecord.entry).map Prod.fst = run.map WorldRecord.key := by
  rw [List.map_map]
  rfl

theorem findRecord_cons {entry : WorldRecord K V} (sorted : RunSorted (entry :: run)) :
    findRecord key (entry :: run) =
      if entry.key = key then some entry.value else findRecord key run := by
  rw [RunSorted, List.map_cons, List.pairwise_cons] at sorted
  rcases lt_trichotomy entry.key key with before | same | after
  · rw [if_neg before.ne, findRecord, List.find?_cons_of_neg (by simpa using before), findRecord]
  · rw [if_pos same, findRecord, List.find?_cons_of_pos (by simp [same])]
    simp only [same, if_true]
  · rw [if_neg after.ne', findRecord, List.find?_cons_of_pos (by simpa using after.le)]
    simp only [after.ne', if_false]
    cases run with
    | nil => rfl
    | cons next run =>
        have later := after.trans (sorted.1 next.key List.mem_cons_self)
        rw [findRecord, List.find?_cons_of_pos (by simpa using later.le)]
        simp only [later.ne', if_false]

theorem findRecord_eq_none (absent : key ∉ run.map WorldRecord.key) : findRecord key run = none := by
  unfold findRecord
  split
  · rename_i entry found
    refine if_neg fun same => absent ?_
    exact List.mem_map.mpr ⟨entry, List.mem_of_find?_eq_some found, same⟩
  · rfl

theorem findRecord_of_mem (sorted : RunSorted run) (entry : WorldRecord K V)
    (member : entry ∈ run) : findRecord entry.key run = some entry.value := by
  induction run with
  | nil => cases member
  | cons head run induction =>
      have rest : RunSorted run := by
        rw [RunSorted, List.map_cons, List.pairwise_cons] at sorted
        exact sorted.2
      rw [findRecord_cons sorted]
      rcases List.mem_cons.mp member with rfl | later
      · rw [if_pos rfl]
      · rw [RunSorted, List.map_cons, List.pairwise_cons] at sorted
        rw [if_neg (sorted.1 entry.key (List.mem_map_of_mem later)).ne, induction rest later]

theorem ordered_assignRun (ordered : Ordered table) : Ordered (assignRun table run) := by
  induction run generalizing table with
  | nil => exact ordered
  | cons entry run induction => exact induction (ordered_assign ordered)

/-- Assigning a run gives its keys what the run holds. -/
theorem valueAt_assignRun (sorted : RunSorted run) :
    valueAt key (assignRun table run) = (findRecord key run).or (valueAt key table) := by
  induction run generalizing table with
  | nil => rfl
  | cons entry run induction =>
      have rest : RunSorted run := by
        rw [RunSorted, List.map_cons, List.pairwise_cons] at sorted
        exact sorted.2
      have assigned : assignRun table (entry :: run) =
          assignRun (assign entry.key entry.value table) run := rfl
      rw [assigned, induction rest, findRecord_cons sorted, valueAt_assign]
      by_cases same : entry.key = key
      · subst same
        have absent : entry.key ∉ run.map WorldRecord.key := by
          rw [RunSorted, List.map_cons, List.pairwise_cons] at sorted
          exact fun member => lt_irrefl _ (sorted.1 _ member)
        rw [if_pos rfl, if_pos rfl, findRecord_eq_none absent, Option.none_or, Option.some_or]
      · rw [if_neg same, if_neg (Ne.symm same)]

theorem ordered_assignRuns (runs : List (List (WorldRecord K V))) (ordered : Ordered table) :
    Ordered (runs.foldl assignRun table) := by
  induction runs generalizing table with
  | nil => exact ordered
  | cons run runs induction => exact induction (ordered_assignRun ordered)

/-- Assigning all runs gives a key what the newest run with it holds. -/
theorem valueAt_assignRuns {runs : List (List (WorldRecord K V))}
    (sorted : ∀ run ∈ runs, RunSorted run) :
    valueAt key (runs.foldl assignRun table) =
      (runs.reverse.findSome? (findRecord key)).or (valueAt key table) := by
  induction runs generalizing table with
  | nil => rfl
  | cons run runs induction =>
      rw [List.foldl_cons, induction fun other member => sorted other (List.mem_cons_of_mem _ member),
        valueAt_assignRun (sorted run List.mem_cons_self), List.reverse_cons,
        List.findSome?_append, Option.or_assoc]
      congr 2
      simp [List.findSome?_cons]
      cases findRecord key run <;> rfl

namespace World

variable [Ring E] {hash : TableHash K V E} {sequence : Nat} {world : World K V E}

/-- What every operation keeps of a world in a process which has named so many runs. -/
structure WellFormed (hash : TableHash K V E) (sequence : Nat) (world : World K V E) : Prop where
  sorted : ∀ run ∈ world.owner.pins, RunSorted run
  named : ∀ entry ∈ world.owner.entries, entry.objectId < sequence
  distinct : (world.owner.entries.map PinEntry.objectId).Nodup
  live : world.liveSize = world.resolved.length
  contributions : world.signature = world.owner.recomputeSignature
  signature_eq : world.signature = world.recomputeSignature hash

omit [Ring E] in
theorem ordered_resolved (world : World K V E) : Ordered world.resolved :=
  ordered_present (ordered_assignRuns _ ordered_nil)

omit [Ring E] in
/-- A look-up agrees with the resolved table. -/
theorem get_eq_valueAt (sorted : ∀ run ∈ world.owner.pins, RunSorted run) (key : K) :
    world.get key = valueAt key world.resolved := by
  rw [resolved, valueAt_present (ordered_assignRuns _ ordered_nil),
    valueAt_assignRuns sorted, valueAt_nil, Option.or_none]
  rfl

theorem recomputeSignature_eq_total (world : World K V E) : world.recomputeSignature hash =
    total (fun key value => hash.binding key (some value)) world.resolved := by
  rw [recomputeSignature, total, List.sum_eq_foldl, List.foldl_map]

omit [LinearOrder K] in
theorem length_eq_total (table : List (K × V)) : table.length = total (fun _ _ => 1) table := by
  simp [total]

omit [Ring E] in
/-- Worlds which answer every look-up alike resolve to one table. -/
theorem resolved_eq {other : World K V E} (sorted : ∀ run ∈ world.owner.pins, RunSorted run)
    (other_sorted : ∀ run ∈ other.owner.pins, RunSorted run)
    (same : ∀ key, world.get key = other.get key) : world.resolved = other.resolved := by
  refine (ordered_resolved world).ext (ordered_resolved other) fun key => ?_
  rw [← get_eq_valueAt sorted, ← get_eq_valueAt other_sorted, same]

theorem wellFormed_empty (sequence : Nat) : (empty : World K V E).WellFormed hash sequence where
  sorted := by simp [empty, PinSet.empty, PinSet.pins]
  named := by simp [empty, PinSet.empty]
  distinct := List.nodup_nil
  live := rfl
  contributions := rfl
  signature_eq := rfl

theorem WellFormed.later (formed : world.WellFormed hash sequence) {later : Nat}
    (more : sequence ≤ later) : world.WellFormed hash later :=
  ⟨formed.sorted, fun entry member => (formed.named entry member).trans_le more, formed.distinct,
    formed.live, formed.contributions, formed.signature_eq⟩

/-! ## Appending edits -/

section Append

variable {edits : List (WorldEdit K V)}

omit [Ring E] [LinearOrder K] in
theorem editRecords_keys :
    (editRecords edits).map WorldRecord.key = edits.map WorldEdit.key := by
  rw [editRecords, List.map_map]
  rfl

variable (hash) in
/-- Two tables between which some edits lie differ in size and fingerprint as the edits say. -/
theorem edits_account {table after : List (K × V)} (ordered : Ordered table)
    (after_ordered : Ordered after) (distinct : (edits.map WorldEdit.key).Nodup)
    (edited : ∀ edit ∈ edits,
      valueAt edit.key table = edit.before ∧ valueAt edit.key after = edit.after)
    (kept : ∀ key ∉ edits.map WorldEdit.key, valueAt key after = valueAt key table) :
    edits.foldl editSize table.length = after.length ∧
      total (fun key value => hash.binding key (some value)) table +
        (edits.map fun edit => hash.delta edit.key edit.before edit.after).sum =
      total (fun key value => hash.binding key (some value)) after := by
  induction edits generalizing table with
  | nil =>
      have same : after = table := after_ordered.ext ordered fun key => kept key (by simp)
      simp [same]
  | cons edit edits induction =>
      rw [List.map_cons, List.nodup_cons] at distinct
      obtain ⟨before, becomes⟩ := edited edit List.mem_cons_self
      set middle := put edit.key edit.after table with middle_eq
      have middle_ordered : Ordered middle := ordered_put ordered _
      have middle_values := fun key => @valueAt_put K V _ edit.key table key ordered edit.after
      have away : ∀ key ≠ edit.key, valueAt key middle = valueAt key table := fun key different => by
        rw [middle_eq, middle_values, if_neg different]
      have here : valueAt edit.key middle = edit.after := by rw [middle_eq, middle_values, if_pos rfl]
      obtain ⟨size, sum⟩ := induction middle_ordered distinct.2
        (fun later member => by
          have different : later.key ≠ edit.key := fun same =>
            distinct.1 (same ▸ List.mem_map_of_mem member)
          rw [away _ different]
          exact edited later (List.mem_cons_of_mem _ member))
        (fun key absent => by
          by_cases same : key = edit.key
          · rw [same, here, becomes]
          · rw [away key same]
            exact kept key (by simp [same, absent]))
      have count := total_change (fun _ _ => 1) ordered middle_ordered edit.key away
      have fingerprint := total_change (fun key value => hash.binding key (some value)) ordered
        middle_ordered edit.key away
      rw [before, here] at count fingerprint
      rw [← length_eq_total, ← length_eq_total] at count
      have step : editSize table.length edit = middle.length := by
        unfold editSize
        clear_value middle
        cases edit_before : edit.before <;> cases edit_after : edit.after <;>
          simp only [edit_before, edit_after, contribution_none, contribution_some] at count <;>
          simp <;> omega
      refine ⟨?_, ?_⟩
      · rw [List.foldl_cons, step, size]
      · rw [List.map_cons, List.sum_cons, ← sum, TableHash.delta_eq, ← add_assoc]
        congr 1
        have binding_eq : ∀ value : Option V,
            contribution (fun key value => hash.binding key (some value)) edit.key value =
              hash.binding edit.key value := by
          intro value
          cases value <;> rfl
        rw [binding_eq, binding_eq] at fingerprint
        rw [eq_comm, ← sub_eq_iff_eq_add'] at fingerprint
        rw [← fingerprint]
        abel

variable (hash) in
/-- Edits of what a world holds are pinned as a new run, which decides its keys. -/
theorem WellFormed.append_ok (formed : world.WellFormed hash sequence)
    (sorted : (edits.map WorldEdit.key).Pairwise (· < ·))
    (before : ∀ edit ∈ edits, world.get edit.key = edit.before) :
    ∃ next later, world.append hash sequence edits = .ok (next, later) ∧ sequence ≤ later ∧
      next.WellFormed hash later ∧
      ∀ key, next.get key = (findRecord key (editRecords edits)).getD (world.get key) := by
  have run_sorted : RunSorted (editRecords edits) := by
    rw [RunSorted, editRecords_keys]
    exact sorted
  have same_size : ∀ {table : List (K × V)}, edits = [] →
      edits.foldl editSize table.length = table.length := by
    rintro table rfl
    rfl
  by_cases none_edited : edits = []
  · subst none_edited
    exact ⟨world, sequence, rfl, le_rfl, formed, fun key => rfl⟩
  · set item : PinEntry (List (WorldRecord K V)) E := ⟨sequence, editRecords edits,
      edits.foldl (fun sum edit => sum + hash.delta edit.key edit.before edit.after) 0,
      some (edits.foldl (fun sum edit => sum + hash.binding edit.key edit.after) 0)⟩ with item_eq
    have fresh : ∀ entry ∈ world.owner.entries, entry.objectId ≠ item.objectId :=
      fun entry member => (formed.named entry member).ne
    set next : World K V E := ⟨⟨world.owner.entries ++ [item],
      world.owner.signature + item.contribution⟩, edits.foldl editSize world.liveSize⟩ with next_eq
    have pins : next.owner.pins = world.owner.pins ++ [editRecords edits] := by
      simp [next_eq, PinSet.pins, item_eq]
    have next_sorted : ∀ run ∈ next.owner.pins, RunSorted run := by
      rw [pins]
      intro run member
      rcases List.mem_append.mp member with old | new
      · exact formed.sorted run old
      · rw [List.mem_singleton.mp new]
        exact run_sorted
    have next_get : ∀ key,
        next.get key = (findRecord key (editRecords edits)).getD (world.get key) := by
      intro key
      rw [get, pins, List.reverse_append, List.reverse_singleton, List.singleton_append,
        List.findSome?_cons]
      cases findRecord key (editRecords edits) <;> rfl
    obtain ⟨size, sum⟩ := edits_account hash (ordered_resolved world)
      (ordered_resolved next) (sorted.imp ne_of_lt)
      (fun edit member => by
        rw [← get_eq_valueAt formed.sorted, ← get_eq_valueAt next_sorted, next_get]
        have found := findRecord_of_mem run_sorted ⟨edit.key, edit.after⟩
          (List.mem_map.mpr ⟨edit, member, rfl⟩)
        exact ⟨before edit member, by rw [found]; rfl⟩)
      (fun key absent => by
        rw [← editRecords_keys] at absent
        rw [← get_eq_valueAt formed.sorted, ← get_eq_valueAt next_sorted, next_get,
          findRecord_eq_none absent]
        rfl)
    have contribution_eq : item.contribution =
        (edits.map fun edit => hash.delta edit.key edit.before edit.after).sum := by
      rw [item_eq, List.sum_eq_foldl, List.foldl_map]
    refine ⟨next, sequence + 1, ?_, Nat.le_succ _, ⟨next_sorted, ?_, ?_, ?_, ?_, ?_⟩, next_get⟩
    · have not_empty : ¬ edits.isEmpty = true := by simpa using none_edited
      rw [append]
      simp only [if_neg not_empty]
      rw [← item_eq, PinSet.add_ok fresh, ok_bind]
    · intro entry member
      rcases List.mem_append.mp member with old | new
      · exact (formed.named entry old).trans (Nat.lt_succ_self _)
      · rw [List.mem_singleton.mp new]
        exact Nat.lt_succ_self _
    · rw [next_eq, List.map_append, List.nodup_append]
      refine ⟨formed.distinct, List.nodup_singleton _, fun one old two new => ?_⟩
      obtain ⟨entry, member, rfl⟩ := List.mem_map.mp old
      rw [List.map_singleton, List.mem_singleton] at new
      rw [new]
      exact fresh entry member
    · rw [← size, ← formed.live]
    · rw [PinSet.recomputeSignature_eq_sum, next_eq, signature, List.map_append, List.sum_append,
        ← PinSet.recomputeSignature_eq_sum, ← formed.contributions]
      simp [signature]
    · rw [recomputeSignature_eq_total, ← sum, ← contribution_eq, ← recomputeSignature_eq_total,
        ← formed.signature_eq]
      rfl

end Append

/-! ## Fresh worlds and compaction -/

section Fresh

variable {records : List (WorldRecord K V)}

/-- What the loop of `from_records` checks and sums. -/
theorem fromRecordsLoop_eq_ok {previous : Option K} {start signature : E}
    (accepted : fromRecordsLoop hash previous records start = .ok signature) :
    (∀ entry ∈ records, entry.value.isSome = true) ∧
      (∀ entry ∈ records.head?, previous ≠ some entry.key) ∧
      signature = start + (records.map fun entry => hash.binding entry.key entry.value).sum ∧
      ((records.map WorldRecord.key).Pairwise (· ≤ ·) → RunSorted records) := by
  induction records generalizing previous start with
  | nil =>
      cases accepted
      exact ⟨by simp, by simp, by simp, fun _ => List.Pairwise.nil⟩
  | cons entry rest induction =>
      rw [fromRecordsLoop, bind_eq_ok] at accepted
      obtain ⟨_, live, accepted⟩ := accepted
      rw [bind_eq_ok] at accepted
      obtain ⟨_, new, accepted⟩ := accepted
      obtain ⟨others, head, sum, sorted⟩ := induction accepted
      refine ⟨?_, ?_, ?_, fun ascending => ?_⟩
      · simpa [require_eq_ok.mp live] using others
      · simpa using require_eq_ok.mp new
      · rw [sum, List.map_cons, List.sum_cons, add_assoc]
      · rw [List.map_cons, List.pairwise_cons] at ascending
        rw [RunSorted, List.map_cons, List.pairwise_cons]
        have rest_sorted := sorted ascending.2
        refine ⟨fun key member => ?_, rest_sorted⟩
        cases rest with
        | nil => cases member
        | cons next rest =>
            have next_above : entry.key < next.key :=
              lt_of_le_of_ne (ascending.1 next.key List.mem_cons_self) fun same =>
                head next rfl (congrArg some same)
            rw [RunSorted, List.map_cons, List.pairwise_cons] at rest_sorted
            rcases List.mem_cons.mp member with rfl | later
            · exact next_above
            · exact next_above.trans (rest_sorted.1 key later)

variable (hash) in
/-- Live records with increasing keys pass the loop. -/
theorem fromRecordsLoop_ok (previous : Option K) (start : E) (sorted : RunSorted records)
    (live : ∀ entry ∈ records, entry.value.isSome = true)
    (new : ∀ entry ∈ records.head?, previous ≠ some entry.key) :
    ∃ signature, fromRecordsLoop hash previous records start = .ok signature := by
  induction records generalizing previous start with
  | nil => exact ⟨start, rfl⟩
  | cons entry rest induction =>
      rw [RunSorted, List.map_cons, List.pairwise_cons] at sorted
      rw [fromRecordsLoop, require_true (live entry List.mem_cons_self), ok_bind,
        require_true (new entry rfl), ok_bind]
      refine induction _ _ sorted.2 (fun other member => live other (List.mem_cons_of_mem _ member)) ?_
      intro next is_head same
      have above := sorted.1 next.key (List.mem_map_of_mem (List.mem_of_mem_head? is_head))
      exact above.ne (Option.some_inj.mp same)

/-- The edits which insert some records into an empty world. -/
def insertions (records : List (WorldRecord K V)) : List (WorldEdit K V) :=
  records.map fun entry => ⟨entry.key, none, entry.value⟩

omit [LinearOrder K] [Ring E] in
theorem editSize_insertions (live : ∀ entry ∈ records, entry.value.isSome = true) (size : Nat) :
    (insertions records).foldl editSize size = size + records.length := by
  induction records generalizing size with
  | nil => rfl
  | cons entry rest induction =>
      obtain ⟨value, value_eq⟩ := Option.isSome_iff_exists.mp (live entry List.mem_cons_self)
      have step : editSize size ⟨entry.key, none, entry.value⟩ = size + 1 := by
        simp [editSize, value_eq]
      rw [insertions, List.map_cons, List.foldl_cons, step, ← insertions,
        induction (fun other member => live other (List.mem_cons_of_mem _ member)),
        List.length_cons]
      omega

omit [Ring E] in
theorem sorted_mergeSort_key (records : List (WorldRecord K V)) :
    ((records.mergeSort fun a b => a.key ≤ b.key).map WorldRecord.key).Pairwise (· ≤ ·) := by
  refine List.pairwise_map.mpr ((List.pairwise_mergeSort ?_ ?_ records).imp ?_)
  · intro a b c one two
    exact decide_eq_true ((of_decide_eq_true one).trans (of_decide_eq_true two))
  · intro a b
    rw [Bool.or_eq_true, decide_eq_true_eq, decide_eq_true_eq]
    exact le_total a.key b.key
  · exact fun before => of_decide_eq_true before

/-- A world of records is an empty world to which they were added. -/
theorem fromRecords_eq_append {made : World K V E × Nat}
    (accepted : fromRecords hash sequence records = .ok made) :
    ∃ sorted : List (WorldRecord K V), sorted.Perm records ∧ RunSorted sorted ∧
      (empty : World K V E).append hash sequence (insertions sorted) = .ok made := by
  set sorted := records.mergeSort fun a b => a.key ≤ b.key with sorted_eq
  have ascending : (sorted.map WorldRecord.key).Pairwise (· ≤ ·) := sorted_mergeSort_key records
  rw [fromRecords] at accepted
  simp only [← sorted_eq] at accepted
  rw [bind_eq_ok] at accepted
  obtain ⟨signature, checked, accepted⟩ := accepted
  obtain ⟨live, -, sum, strictly⟩ := fromRecordsLoop_eq_ok checked
  refine ⟨sorted, List.mergeSort_perm _ _, strictly ascending, ?_⟩
  have no_edits : (insertions sorted).isEmpty = sorted.isEmpty := by simp [insertions]
  have size : (insertions sorted).foldl editSize 0 = sorted.length := by
    rw [editSize_insertions live, Nat.zero_add]
  have run : editRecords (insertions sorted) = sorted := by
    simp [editRecords, insertions, Function.comp_def]
  have deltas : (insertions sorted).foldl
      (fun sum edit => sum + hash.delta edit.key edit.before edit.after) 0 = signature := by
    rw [sum, zero_add, List.sum_eq_foldl, List.foldl_map, insertions, List.foldl_map]
    simp only [TableHash.delta_eq, TableHash.binding_none, sub_zero]
  have bindings : (insertions sorted).foldl
      (fun sum edit => sum + hash.binding edit.key edit.after) 0 = signature := by
    rw [sum, zero_add, List.sum_eq_foldl, List.foldl_map, insertions, List.foldl_map]
  rw [append]
  simp only [deltas, bindings, run, no_edits]
  rw [← accepted]
  have size_eq : (insertions sorted).foldl editSize (empty : World K V E).liveSize =
      sorted.length := size
  rw [size_eq]
  split
  · rename_i none_left
    rw [List.isEmpty_iff.mp none_left]
    rfl
  · rfl

/-- A world of records holds them and is well formed. -/
theorem fromRecords_wellFormed {made : World K V E × Nat}
    (accepted : fromRecords hash sequence records = .ok made) :
    made.1.WellFormed hash made.2 ∧ sequence ≤ made.2 := by
  obtain ⟨sorted, -, run_sorted, appended⟩ := fromRecords_eq_append accepted
  have keys : (insertions sorted).map WorldEdit.key = sorted.map WorldRecord.key := by
    simp [insertions, Function.comp_def]
  have nothing : ∀ edit ∈ insertions sorted, (empty : World K V E).get edit.key = edit.before := by
    intro edit member
    obtain ⟨entry, -, rfl⟩ := List.mem_map.mp member
    rfl
  obtain ⟨next, later, result, more, formed, -⟩ :=
    (wellFormed_empty sequence).append_ok hash (keys ▸ run_sorted) nothing
  rw [appended, Except.ok.injEq] at result
  rw [result]
  exact ⟨formed, more⟩

/-- The live records of a world make a world which answers every look-up as it does. -/
theorem WellFormed.fromRecords_resolved (formed : world.WellFormed hash sequence) :
    ∃ made later, fromRecords hash sequence
        (world.resolved.map fun entry => ⟨entry.1, some entry.2⟩) = .ok (made, later) ∧
      sequence ≤ later ∧ made.WellFormed hash later ∧ (∀ key, made.get key = world.get key) ∧
      ∀ entry ∈ made.owner.entries, sequence ≤ entry.objectId := by
  set records : List (WorldRecord K V) :=
    world.resolved.map fun entry => ⟨entry.1, some entry.2⟩ with records_eq
  have keys : records.map WorldRecord.key = world.resolved.map Prod.fst := by
    rw [records_eq, List.map_map]
    rfl
  have sorted : RunSorted records := by
    rw [RunSorted, keys]
    exact ordered_resolved world
  have already : (records.mergeSort fun a b => a.key ≤ b.key) = records := by
    refine List.mergeSort_of_pairwise ((List.pairwise_map.mp sorted).imp fun before => ?_)
    exact decide_eq_true (le_of_lt before)
  obtain ⟨signature, checked⟩ := fromRecordsLoop_ok hash none 0
    sorted (fun entry member => by
      obtain ⟨held, -, rfl⟩ := List.mem_map.mp member
      rfl) (by simp)
  by_cases none_live : records = []
  · refine ⟨⟨.empty, 0⟩, sequence, ?_, le_rfl, wellFormed_empty sequence, fun key => ?_, by
      simp [PinSet.empty]⟩
    · rw [none_live]
      simp [fromRecords, fromRecordsLoop]
    · rw [get_eq_valueAt formed.sorted, List.map_eq_nil_iff.mp (records_eq.symm.trans none_live)]
      rfl
  · have accepted : fromRecords hash sequence records =
        .ok (⟨⟨[⟨sequence, records, signature, some signature⟩], 0 + signature⟩, records.length⟩,
          sequence + 1) := by
      have not_empty : ¬ records.isEmpty = true := by simpa using none_live
      rw [fromRecords]
      simp only [already]
      rw [checked, ok_bind, if_neg not_empty, PinSet.add_ok (by simp [PinSet.empty]), ok_bind]
      rfl
    obtain ⟨made_formed, later⟩ := fromRecords_wellFormed accepted
    refine ⟨_, _, accepted, Nat.le_succ _, made_formed, fun key => ?_, by simp⟩
    have found : findRecord key records = (world.get key).map some := by
      rw [get_eq_valueAt formed.sorted]
      cases held : valueAt key world.resolved with
      | none =>
          refine findRecord_eq_none ?_
          rw [keys]
          exact valueAt_eq_none.mp held
      | some value =>
          refine findRecord_of_mem sorted ⟨key, some value⟩ ?_
          exact List.mem_map.mpr ⟨(key, value),
            (valueAt_eq_some (ordered_resolved world)).mp held, rfl⟩
    have only : ∀ {signature : E} {size : Nat},
        (⟨⟨[⟨sequence, records, signature, some signature⟩], 0 + signature⟩, size⟩ :
          World K V E).get key = (findRecord key records).join := by
      intro signature size
      simp [get, PinSet.pins]
    rw [only, found]
    cases world.get key <;> rfl

/-- Compaction succeeds, and its world answers every look-up as before. -/
theorem WellFormed.compact_ok [DecidableEq E] (formed : world.WellFormed hash sequence) :
    ∃ next later, world.compact hash sequence = .ok (next, later) ∧ sequence ≤ later ∧
      next.WellFormed hash later ∧ ∀ key, next.get key = world.get key := by
  obtain ⟨made, later, accepted, more, made_formed, same, new⟩ := formed.fromRecords_resolved
  have resolved_same : made.resolved = world.resolved :=
    resolved_eq made_formed.sorted formed.sorted same
  have fresh : ∀ item ∈ made.owner.entries, ∀ entry ∈ world.owner.entries,
      entry.objectId ≠ item.objectId := fun item member entry old =>
    ((formed.named entry old).trans_le (new item member)).ne
  have sum : (made.owner.entries.map PinEntry.contribution).sum =
      world.owner.recomputeSignature := by
    rw [← PinSet.recomputeSignature_eq_sum, ← made_formed.contributions,
      made_formed.signature_eq, ← formed.contributions, formed.signature_eq,
      recomputeSignature_eq_total, recomputeSignature_eq_total, resolved_same]
  have replaced := PinSet.replace_all_ok formed.distinct fresh made_formed.distinct sum
  set next : World K V E := ⟨⟨made.owner.entries, world.owner.signature⟩, world.liveSize⟩
    with next_eq
  have next_resolved : next.resolved = made.resolved := rfl
  refine ⟨next, later, ?_, more, ⟨made_formed.sorted, made_formed.named, made_formed.distinct,
    ?_, ?_, ?_⟩, same⟩
  · rw [compact, accepted, ok_bind]
    simp only
    rw [replaced, ok_bind]
  · rw [next_resolved, resolved_same]
    exact formed.live
  · rw [PinSet.recomputeSignature_eq_sum]
    exact formed.contributions.trans sum.symm
  · rw [recomputeSignature_eq_total, next_resolved, resolved_same, ← recomputeSignature_eq_total]
    exact formed.signature_eq

end Fresh

end World

end Everett

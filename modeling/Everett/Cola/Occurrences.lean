import Everett.Cola.Index

/-!
# Augmented occurrences

A node is navigated by the stable merge of its native keys with the samples of both targets.  The
rank directories, the flags of shared keys and the cut prefixes of its index are functions of that
merge, and a group of occurrences projects to a range of each stream.
-/

namespace Everett

open Word Outcome

variable {P : StoragePolicy}

/-- Augmented occurrences of a node in order, each with the stream it came from. -/
abbrev Occurrences := List (ColaOrigin × BitString)

namespace Occurrences

/-- Keys which one stream contributed. -/
def keysOf (occurrences : Occurrences) (origin : ColaOrigin) : List BitString :=
  (occurrences.filter fun x => x.1 = origin).map Prod.snd

/-- Number of occurrences of one stream before a position. -/
def before (occurrences : Occurrences) (origin : ColaOrigin) (position : Nat) : Nat :=
  (keysOf (occurrences.take position) origin).length

/-- Common prefix of the occurrence at a position with the preceding one of a stream. -/
def cutBefore (occurrences : Occurrences) (origin : ColaOrigin) (position : Nat) : Nat :=
  match (keysOf (occurrences.take position) origin).getLast?, occurrences[position]? with
  | some earlier, some first => lcp earlier first.2
  | _, _ => 0

variable (occurrences : Occurrences) (origin : ColaOrigin)

theorem keysOf_append (other : Occurrences) :
    keysOf (occurrences ++ other) origin = keysOf occurrences origin ++ keysOf other origin := by
  simp [keysOf]

theorem mem_keysOf {key : BitString} : key ∈ keysOf occurrences origin ↔
    (origin, key) ∈ occurrences := by
  simp [keysOf]

theorem keysOf_split (position : Nat) : keysOf occurrences origin =
    keysOf (occurrences.take position) origin ++ keysOf (occurrences.drop position) origin := by
  rw [← keysOf_append, List.take_append_drop]

theorem take_before (position : Nat) :
    (keysOf occurrences origin).take (before occurrences origin position) =
      keysOf (occurrences.take position) origin := by
  rw [keysOf_split occurrences origin position, before, List.take_left]

theorem drop_before (position : Nat) :
    (keysOf occurrences origin).drop (before occurrences origin position) =
      keysOf (occurrences.drop position) origin := by
  rw [keysOf_split occurrences origin position, before, List.drop_left]

theorem before_add (position width : Nat) : before occurrences origin (position + width) =
    before occurrences origin position +
      (keysOf ((occurrences.drop position).take width) origin).length := by
  rw [before, List.take_add, keysOf_append, List.length_append, before]

theorem before_le (position : Nat) :
    before occurrences origin position ≤ (keysOf occurrences origin).length := by
  rw [keysOf_split occurrences origin position, before, List.length_append]
  exact Nat.le_add_right _ _

theorem length_keysOf_le : (keysOf occurrences origin).length ≤ occurrences.length := by
  rw [keysOf, List.length_map]
  exact List.length_filter_le _ _

theorem length_keysOf_total : (keysOf occurrences .native).length +
    (keysOf occurrences .main).length + (keysOf occurrences .secondary).length =
      occurrences.length := by
  induction occurrences with
  | nil => rfl
  | cons x rest induction =>
      obtain ⟨origin, key⟩ := x
      cases origin <;> simp [keysOf] at induction ⊢ <;> omega

theorem before_total (position : Nat) : before occurrences .native position +
    before occurrences .main position + before occurrences .secondary position =
      min position occurrences.length := by
  rw [before, before, before, length_keysOf_total, List.length_take]

/-- Keys of one stream within a group. -/
theorem window_keysOf (position width : Nat) :
    ((keysOf occurrences origin).drop (before occurrences origin position)).take
        (before occurrences origin (position + width) - before occurrences origin position) =
      keysOf ((occurrences.drop position).take width) origin := by
  rw [before_add, Nat.add_sub_cancel_left, drop_before]
  have split := keysOf_split (occurrences.drop position) origin width
  rw [split, List.take_left]

/-- The key of one stream following a group lies beyond the group. -/
theorem mem_drop_of_getElem? {position : Nat} {key : BitString}
    (present : (keysOf occurrences origin)[before occurrences origin position]? = some key) :
    (origin, key) ∈ occurrences.drop position := by
  rw [← mem_keysOf, ← drop_before]
  have head : ((keysOf occurrences origin).drop
      (before occurrences origin position)).head? = some key := by
    rw [List.head?_drop, present]
  exact List.mem_of_mem_head? head

end Occurrences

open Occurrences

namespace ColaIndex

/-- Keys of each stream of a node whose main target has these augmented keys. -/
def sources (native : NativeArray P) (mainKeys : List BitString)
    (secondary : Option (Shared (NativeArray P))) : ColaOrigin → List BitString
  | .native => native.keys
  | .main => sample P.groupSize mainKeys
  | .secondary => sample P.groupSize ((secondary.map fun leaf => leaf.value.keys).getD [])

/-- The index navigates these augmented occurrences. -/
structure Indexes (index : ColaIndex P) (mainKeys : List BitString) (occurrences : Occurrences) :
    Prop where
  merged : StableMerge (sources index.native.value mainKeys index.secondary) occurrences
  sorted : occurrences.Pairwise MergeOrder
  count : index.count = occurrences.length
  count_le : occurrences.length ≤ maximum64
  main_le : mainKeys.length ≤ maximum64
  aligned : ∀ x ∈ occurrences, P.Aligned x.2
  borrowed : ∀ route : ColaTarget, ∃ array : BorrowedArray P,
    index.borrowed route = array.frames ∧ array.keys = keysOf occurrences route.origin
  ranks : ∀ route : ColaTarget, index.ranks route =
    ⟨(List.range (ceilDiv occurrences.length P.groupSize)).map fun group =>
      (keysOf ((occurrences.drop (group * P.groupSize)).take P.groupSize) route.origin).length,
      occurrences.length⟩
  flags : ∀ route : ColaTarget, index.flags route =
    (keysOf occurrences route.origin).map fun key => decide (key ∈ index.native.value.keys)
  cuts : ∀ route : ColaTarget, index.cuts route =
    (List.range (ceilDiv occurrences.length P.groupSize)).map fun group =>
      cutBefore occurrences route.origin (group * P.groupSize)

namespace Indexes

variable {index : ColaIndex P} {mainKeys : List BitString} {occurrences : Occurrences}

theorem keysOf_eq (indexes : index.Indexes mainKeys occurrences) (origin : ColaOrigin) :
    keysOf occurrences origin = sources index.native.value mainKeys index.secondary origin :=
  indexes.merged.filter_eq origin

theorem native_keys (indexes : index.Indexes mainKeys occurrences) :
    index.native.value.keys = keysOf occurrences .native := (indexes.keysOf_eq .native).symm

theorem native_size (indexes : index.Indexes mainKeys occurrences) :
    index.native.value.size = (keysOf occurrences .native).length := by
  rw [← indexes.native_keys, ProfileArray.length_keys]

theorem borrowed_length (indexes : index.Indexes mainKeys occurrences) (route : ColaTarget) :
    (index.borrowed route).length = (keysOf occurrences route.origin).length := by
  obtain ⟨array, frames, keys⟩ := indexes.borrowed route
  rw [frames, ProfileArray.length_frames, ← ProfileArray.length_keys, keys]

theorem groupCount_eq (indexes : index.Indexes mainKeys occurrences) :
    index.groupCount = ceilDiv occurrences.length P.groupSize := by
  rw [groupCount, indexes.count]

theorem view_ok (indexes : index.Indexes mainKeys occurrences) : index.view = .ok () := by
  have total := length_keysOf_total occurrences
  have shape : ∀ route : ColaTarget, (index.ranks route).virtualCount = index.count ∧
      (index.flags route).length = (index.borrowed route).length ∧
        (index.cuts route).length = index.groupCount := by
    intro route
    rw [indexes.ranks, indexes.flags, indexes.cuts, indexes.groupCount_eq,
      indexes.borrowed_length, indexes.count]
    simp
  have count : index.native.value.size + (index.borrowed .main).length +
      (index.borrowed .secondary).length = index.count := by
    rw [indexes.native_size, indexes.borrowed_length, indexes.borrowed_length, indexes.count]
    exact total
  simp [view, require_true count, require_true (shape _)]

/-- The directory counts the borrows before a group. -/
theorem rank_ok (indexes : index.Indexes mainKeys occurrences) (route : ColaTarget) {group : Nat}
    (inside : group < index.groupCount) : (index.ranks route).rank group =
      .ok (before occurrences route.origin (group * P.groupSize)) := by
  have populations : ∀ count ≤ ceilDiv occurrences.length P.groupSize,
      (((index.ranks route).classes).take count).sum =
        before occurrences route.origin (count * P.groupSize) := by
    intro count bound
    rw [indexes.ranks]
    simp only [← List.map_take, List.take_range, min_eq_left bound]
    clear bound
    induction count with
    | zero => simp [before, keysOf]
    | succ count induction =>
        rw [List.range_succ, List.map_append, List.sum_append, induction, Nat.succ_mul, before_add]
        simp
  rw [indexes.groupCount_eq] at inside
  have sum := populations group inside.le
  have length : (index.ranks route).classes.length =
      ceilDiv occurrences.length P.groupSize := by
    rw [indexes.ranks]
    simp
  have virtual : (index.ranks route).virtualCount = occurrences.length := by
    rw [indexes.ranks]
  have bound := (before_le occurrences route.origin (group * P.groupSize)).trans
    (length_keysOf_le occurrences route.origin)
  rw [RankGroups.rank, sum, length, virtual, if_neg (by omega), if_neg (by omega)]

theorem classAt_ok (indexes : index.Indexes mainKeys occurrences) (route : ColaTarget)
    {group : Nat} (inside : group < index.groupCount) : (index.ranks route).classAt group =
      .ok (keysOf ((occurrences.drop (group * P.groupSize)).take P.groupSize)
        route.origin).length := by
  rw [indexes.groupCount_eq] at inside
  rw [RankGroups.classAt, indexes.ranks]
  simp [inside]

/-- A group projects to the ranges of its keys in each stream. -/
theorem project_ok (indexes : index.Indexes mainKeys occurrences) {group : Nat}
    (inside : group < index.groupCount) :
    ∃ window, index.project group = .ok window ∧
      window.nativeFirst = before occurrences .native (group * P.groupSize) ∧
      window.nativeLast = before occurrences .native (group * P.groupSize + P.groupSize) ∧
      (∀ route : ColaTarget,
        window.borrowedFirst route = before occurrences route.origin (group * P.groupSize)) ∧
      ∀ route : ColaTarget, window.borrowedLast route =
        before occurrences route.origin (group * P.groupSize + P.groupSize) := by
  have some_inside : group * P.groupSize < occurrences.length := by
    rw [← lt_ceilDiv_iff P.groupSize_pos, ← indexes.groupCount_eq]
    exact inside
  have ranks := fun route => indexes.rank_ok route inside
  have classes := fun route => indexes.classAt_ok route inside
  unfold project
  generalize group * P.groupSize = first at *
  have starts := before_total occurrences first
  have ends := before_total occurrences (first + P.groupSize)
  have added := fun origin => before_add occurrences origin first P.groupSize
  have bounded := fun origin => before_le occurrences origin (first + P.groupSize)
  rw [min_eq_left some_inside.le] at starts
  have native_added := added .native
  have main_added := added .main
  have secondary_added := added .secondary
  have native_bounded := bounded .native
  have main_bounded := bounded .main
  have secondary_bounded := bounded .secondary
  have width : min P.groupSize (occurrences.length - first) =
      min (first + P.groupSize) occurrences.length - first := by
    omega
  have main_length := indexes.borrowed_length .main
  have secondary_length := indexes.borrowed_length .secondary
  have native_length := indexes.native_size
  simp only [ColaTarget.origin] at main_length secondary_length
  simp only [require_true inside, ok_bind, ranks, classes, indexes.count, width,
    ColaTarget.origin]
  rw [require_true (by refine ⟨?_, ?_, ?_, ?_⟩ <;> omega), ok_bind, ok_bind,
    require_true (by refine ⟨?_, ?_, ?_, ?_⟩ <;> omega), ok_bind, ok_bind]
  rw [require_true (by constructor <;> omega), ok_bind, require_true (by omega), ok_bind]
  refine ⟨_, rfl, ?_, ?_, ?_, ?_⟩
  · simp only
    omega
  · simp only
    omega
  · intro route
    cases route <;> rfl
  · intro route
    cases route
    · exact main_added.symm
    · exact secondary_added.symm

theorem keysOf_sorted (indexes : index.Indexes mainKeys occurrences) (origin : ColaOrigin) :
    (keysOf occurrences origin).Pairwise (· ≤ ·) := by
  rw [keysOf, List.pairwise_map]
  exact (indexes.sorted.imp MergeOrder.le).sublist List.filter_sublist

/-- A borrow samples its target within its extent. -/
theorem target_lt (indexes : index.Indexes mainKeys occurrences) {route : ColaTarget}
    {ordinal : Nat} {key : BitString}
    (present : (keysOf occurrences route.origin)[ordinal]? = some key) :
    targetOrdinal ordinal P.groupSize = .ok (ordinal * P.groupSize) := by
  have bound : ordinal * P.groupSize ≤ maximum64 := by
    rw [indexes.keysOf_eq] at present
    cases route with
    | main =>
        simp only [ColaTarget.origin, sources, getElem?_sample P.groupSize_pos] at present
        exact (List.getElem?_eq_some_iff.mp present).1.le.trans indexes.main_le
    | secondary =>
        simp only [ColaTarget.origin, sources, getElem?_sample P.groupSize_pos] at present
        cases secondary : index.secondary with
        | none => simp [secondary] at present
        | some leaf =>
            simp only [secondary, Option.map_some, Option.getD_some] at present
            have inside := (List.getElem?_eq_some_iff.mp present).1
            rw [ProfileArray.length_keys] at inside
            exact inside.le.trans leaf.value.count
  rw [targetOrdinal, if_neg]
  rwa [Nat.not_lt, Nat.le_div_iff_mul_le P.groupSize_pos]

end Indexes

end ColaIndex

end Everett

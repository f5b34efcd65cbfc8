import Everett.Profile.Context
import Everett.Cola.Frontier

/-!
# Fractional indexes

A main node keeps a native array, an optional main target and an optional secondary native array.
Its index interleaves the native keys with every `group_size`-th occurrence of either target.  A
main chain is the list of its nodes, head first, so the main target of a node is the tail of the
chain, and a null pointer is the empty chain.
-/

namespace Everett

open Word Outcome

variable (P : StoragePolicy)

/-- An immutable object and the address which identifies it. -/
structure Shared (α : Type) where
  /-- Identity of the allocation. -/
  address : Nat
  /-- The immutable value. -/
  value : α

/-- `rank_groups`: population classes of groups, only the last of which may be partial. -/
structure RankGroups where
  /-- Number of borrows in each group. -/
  classes : List Nat
  /-- Number of virtual occurrences covered. -/
  virtualCount : Nat
  deriving DecidableEq, Repr

namespace RankGroups

/-- Directory over no occurrences. -/
def empty : RankGroups := ⟨[], 0⟩

/-- `rank_groups_builder::append`; a directory is partial after a narrow group. -/
def append (ranks : RankGroups) (population width : Nat) : Result RankGroups :=
  if ranks.virtualCount % P.groupSize ≠ 0 ∨ width = 0 ∨ P.groupSize < width ∨
      width < population then .error "invalid incremental rank group"
  else if maximum64 - ranks.virtualCount < width then
    .error "incremental rank groups are too large"
  else .ok ⟨ranks.classes ++ [population], ranks.virtualCount + width⟩

/-- `class_at`. -/
def classAt (ranks : RankGroups) (group : Nat) : Result Nat :=
  demand ranks.classes[group]? "rank groups class"

/-- `rank`: borrows before a group. -/
def rank (ranks : RankGroups) (group : Nat) : Result Nat :=
  if ranks.classes.length ≤ group then .error "rank groups boundary"
  else if ranks.virtualCount < (ranks.classes.take group).sum then
    .error "invalid rank groups checkpoint or prefix"
  else .ok (ranks.classes.take group).sum

end RankGroups

/-- `cola_index` without its main target. -/
structure ColaIndex where
  /-- Native array of the node. -/
  native : Shared (NativeArray P)
  /-- Terminal secondary native array. -/
  secondary : Option (Shared (NativeArray P))
  /-- Occurrences borrowed from either target. -/
  borrowed : ColaTarget → List Frame
  /-- Interleaving of the borrows of either target. -/
  ranks : ColaTarget → RankGroups
  /-- Whether a borrowed key is also a native key. -/
  flags : ColaTarget → List Bool
  /-- Common prefix of the first key of a group with the preceding borrow. -/
  cuts : ColaTarget → List Nat
  /-- Number of augmented occurrences. -/
  count : Nat

/-- A pointer to a main node; its tail is the main target of the node. -/
abbrev MainPointer := List (Shared (ColaIndex P))

/-- `cola_window`: native and borrowed ranges of one group. -/
structure ColaWindow where
  nativeFirst : Nat
  nativeLast : Nat
  borrowedFirst : ColaTarget → Nat
  borrowedLast : ColaTarget → Nat

/-- `profile_blob_borrowed_predecessor`. -/
structure BorrowedPredecessor where
  /-- Ordinal of the borrowed record. -/
  ordinal : Nat
  /-- Ordinal of the sampled occurrence in the target. -/
  targetOrdinal : Nat
  /-- Whether the borrowed key is also a native key. -/
  falseBorrow : Bool
  /-- Comparison of the borrowed key with the query. -/
  comparison : QueryContext

/-- `cola_window_result`. -/
structure WindowResult (α : Type) where
  /-- Captured native match. -/
  native : Option α
  /-- Last borrow at most the query on either route. -/
  predecessors : ColaTarget → Option BorrowedPredecessor

/-- `target_ordinal`. -/
def targetOrdinal (ordinal stride : Nat) : Result Nat :=
  if maximum64 / stride < ordinal then .error "COLA target ordinal overflow"
  else .ok (ordinal * stride)

namespace ColaIndex

variable {P}

/-- `virtual_size`. -/
def virtualSize (index : ColaIndex P) : Nat := index.count

/-- `group_count`. -/
def groupCount (index : ColaIndex P) : Nat := ceilDiv index.count P.groupSize

/-- Shape checks of `cola_index_view`. -/
def view (index : ColaIndex P) : Result Unit := do
  require (index.native.value.size + (index.borrowed .main).length +
    (index.borrowed .secondary).length = index.count) "COLA augmented count mismatch"
  [ColaTarget.main, .secondary].forM fun route =>
    require ((index.ranks route).virtualCount = index.count ∧
      (index.flags route).length = (index.borrowed route).length ∧
      (index.cuts route).length = index.groupCount) "COLA section shape mismatch"

/-- `false_borrow`. -/
def falseBorrow (index : ColaIndex P) (route : ColaTarget) (ordinal : Nat) : Result Bool :=
  demand (index.flags route)[ordinal]? "COLA borrowed ordinal"

/-- `project`: ranges of one group in the native and the borrowed arrays. -/
def project (index : ColaIndex P) (group : Nat) : Result ColaWindow := do
  require (group < index.groupCount) "COLA virtual group"
  let first := group * P.groupSize
  let width := min P.groupSize (index.count - first)
  let populationOf := fun route : ColaTarget => do
    let start ← (index.ranks route).rank group
    let population ← (index.ranks route).classAt group
    require (start ≤ first ∧ start ≤ (index.borrowed route).length ∧ population ≤ width ∧
      population ≤ (index.borrowed route).length - start) "invalid COLA rank projection"
    Except.ok (start, population)
  let (mainStart, mainPopulation) ← populationOf .main
  let (secondaryStart, secondaryPopulation) ← populationOf .secondary
  require (mainStart ≤ first - secondaryStart ∧ mainPopulation ≤ width - secondaryPopulation)
    "overlapping COLA population directories"
  let nativeFirst := first - mainStart - secondaryStart
  let nativeLast := nativeFirst + width - mainPopulation - secondaryPopulation
  require (nativeLast ≤ index.native.value.size) "invalid COLA native projection"
  .ok ⟨nativeFirst, nativeLast,
    fun | .main => mainStart | .secondary => secondaryStart,
    fun | .main => mainStart + mainPopulation | .secondary => secondaryStart + secondaryPopulation⟩

/-- `remember` of `search_window_with`: record a borrow at most the query. -/
def remember {α : Type} (capture : Nat → BitString → α) (index : ColaIndex P)
    (nativeFirst : Nat) (route : ColaTarget) (result : WindowResult α) (ordinal : Nat)
    (comparison : QueryContext) : Result (WindowResult α) := do
  let isFalse ← index.falseBorrow route ordinal
  let target ← targetOrdinal ordinal P.groupSize
  let found := { result with
    predecessors := Function.update result.predecessors route
      (some ⟨ordinal, target, isFalse, comparison⟩) }
  if comparison.order = .eq ∧ isFalse = true ∧ result.native.isNone = true then
    require (nativeFirst ≠ 0) "COLA false borrow has no native predecessor"
    let frame ← encodedAt index.native.value.frames (nativeFirst - 1)
    .ok { found with native := some (capture (nativeFirst - 1) frame.value) }
  else .ok found

/-- The part of `search_window_with` which looks along one route. -/
def searchRoute {α : Type} (capture : Nat → BitString → α) (index : ColaIndex P)
    (group : Nat) (window : ColaWindow) (lower : QueryContext) (result : WindowResult α)
    (route : ColaTarget) : Result (WindowResult α) := do
  let result ← compareWindow P (index.borrowed route) (window.borrowedFirst route)
    (window.borrowedLast route) lower
    (fun (result : WindowResult α) item =>
      if item.comparison.order = .gt then .ok (result, false)
      else do
        let result ← index.remember capture window.nativeFirst route result item.ordinal
          item.comparison
        .ok (result, true)) result
  if (result.predecessors route).isNone = true ∧ window.borrowedFirst route ≠ 0 then
    let cut ← demand (index.cuts route)[group]? "COLA section shape mismatch"
    let comparison ← lower.predecessor P cut
    index.remember capture window.nativeFirst route result (window.borrowedFirst route - 1)
      comparison
  else .ok result

/-- `search_window_with`: match the native keys of one group, find both onward routes. -/
def searchWindow {α : Type} (capture : Nat → BitString → α) (index : ColaIndex P)
    (group : Nat) (lower : QueryContext) : Result (WindowResult α) := do
  require (lower.order ≠ .gt) "query precedes COLA boundary"
  let window ← index.project group
  let native ← compareWindow P index.native.value.frames window.nativeFirst window.nativeLast
    lower
    (fun (native : Option α) item =>
      .ok (if item.comparison.order = .eq then some (capture item.ordinal item.value) else native,
        item.comparison.order = .lt)) none
  [ColaTarget.main, .secondary].foldlM (index.searchRoute capture group window lower)
    ⟨native, fun _ => none⟩

end ColaIndex

/-- `visit_secondary`: match one group of a secondary native array. -/
def searchSecondary {α : Type} (capture : Nat → BitString → α) (leaf : NativeArray P)
    (predecessor : BorrowedPredecessor) : Result (Option α) := do
  let first := predecessor.targetOrdinal
  require (first < leaf.size ∧ first % P.groupSize = 0 ∧ predecessor.comparison.order ≠ .gt)
    "invalid COLA secondary route"
  let last := first + min P.groupSize (leaf.size - first)
  compareWindow P leaf.frames first last predecessor.comparison
    (fun (found : Option α) item =>
      .ok (if item.comparison.order = .eq then some (capture item.ordinal item.value) else found,
        item.comparison.order = .lt)) none

end Everett

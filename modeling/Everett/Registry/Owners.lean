import Everett.Catalog.Values
import Everett.Library.CountedTable

/-!
# Registry of owners

`runtime_registry` retains the owner closure of one publication: counted entries for every pair
and native object which its roots reach.  An operation is undefined when it releases a missing
entry or a count of zero.
-/

namespace Everett.Retention

open Catalog (ObjectId BlobIdentity)

/-- The immutable nodes behind shared pointers, which are compared by their addresses. -/
structure OwnerGraph (Pair Native : Type) where
  /-- `mapped()->identity()`. -/
  identity : Pair → BlobIdentity
  nativeOwner : Pair → Native
  mainTarget : Pair → Option Pair
  /-- `secondary_target()` with the `secondary_id()` of the index object. -/
  secondaryTarget : Pair → Option (ObjectId × Native)
  /-- Length of the chain of main targets, which has no cycle. -/
  height : Pair → ℕ
  main_lower : ∀ {value main}, mainTarget value = some main → height main < height value

/-- What an acquisition answers: its truth value, or an exception. -/
inductive Acquired
  | accepted
  | refused
  | thrown
  deriving DecidableEq, Repr

/-- The two maps, with the outcomes of the allocations to come. -/
structure Store (Pair Native : Type) where
  pairs : CountedTable ObjectId Pair
  natives : CountedTable ObjectId Native
  allocations : List Bool

variable {Pair Native : Type} [DecidableEq Pair] [DecidableEq Native]

namespace Store

/-- The next allocation succeeds, or throws `std::bad_alloc`. -/
def allocate (store : Store Pair Native) : Bool × Store Pair Native :=
  match store.allocations with
  | [] => (true, store)
  | outcome :: rest => (outcome, { store with allocations := rest })

/-- `acquire_native`. -/
def acquireNative (id : ObjectId) (value : Native) (store : Store Pair Native) :
    Acquired × Store Pair Native :=
  match store.allocate with
  | (false, store) => (.thrown, store)
  | (true, store) =>
      match store.natives.lookup id with
      | none => (.accepted, { store with natives := store.natives.insert id ⟨value, 1⟩ })
      | some found =>
          if found.value ≠ value then (.refused, store)
          else (.accepted,
            { store with natives := store.natives.insert id ⟨found.value, found.references + 1⟩ })

/-- Acquisition of the secondary of a pair, if it has one. -/
def acquireSecondary (secondary : Option (ObjectId × Native)) (store : Store Pair Native) :
    Acquired × Store Pair Native :=
  match secondary with
  | none => (.accepted, store)
  | some secondary => store.acquireNative secondary.1 secondary.2

end Store

/-- Release of the secondary of a pair, if it has one. -/
def releaseSecondary (secondary : Option (ObjectId × Native))
    (natives : CountedTable ObjectId Native) : Option (CountedTable ObjectId Native) :=
  match secondary with
  | none => some natives
  | some secondary => natives.release secondary.1

namespace OwnerGraph

open Store

variable (graph : OwnerGraph Pair Native)

/-- `release_pair`; every recursion has erased an entry. -/
def releasePair (id : BlobIdentity) (pairs : CountedTable ObjectId Pair)
    (natives : CountedTable ObjectId Native) :
    Option (CountedTable ObjectId Pair × CountedTable ObjectId Native) :=
  match present : pairs.lookup id.index with
  | none => none
  | some found =>
      match found.references with
      | 0 => none
      | 1 => do
          let natives ← releaseSecondary (graph.secondaryTarget found.value) natives
          let (pairs, natives) ← (match graph.mainTarget found.value with
            | none => some (pairs.erase id.index, natives)
            | some main => releasePair (graph.identity main) (pairs.erase id.index) natives)
          let natives ← natives.release (graph.identity found.value).native
          some (pairs, natives)
      | references + 2 => some (pairs.insert id.index ⟨found.value, references + 1⟩, natives)
termination_by pairs.keys.card
decreasing_by
  rw [Finmap.keys_erase]
  exact Finset.card_erase_lt_of_mem
    (Finmap.mem_keys.mpr (Finmap.mem_iff.mpr ⟨found, present⟩))

/-- Rollback of a partly acquired pair. -/
def rollbackPair (value : Pair) (nativeLive mainLive secondaryLive : Bool)
    (store : Store Pair Native) : Option (Store Pair Native) := do
  let id := graph.identity value
  let pairs := store.pairs.erase id.index
  let natives ← releaseSecondary (if secondaryLive then graph.secondaryTarget value else none)
    store.natives
  let (pairs, natives) ← (match if mainLive then graph.mainTarget value else none with
    | none => some (pairs, natives)
    | some main => graph.releasePair (graph.identity main) pairs natives)
  let natives ← (if nativeLive then natives.release id.native else some natives)
  some { store with pairs := pairs, natives := natives }

/-- Acquisition of the children of a pair which has just been entered. -/
def acquireChildren (value : Pair)
    (acquireMain : Store Pair Native → Option (Acquired × Store Pair Native))
    (store : Store Pair Native) : Option (Acquired × Store Pair Native) :=
  match store.acquireNative (graph.identity value).native (graph.nativeOwner value) with
  | (.accepted, store) =>
      match acquireMain store with
      | none => none
      | some (.accepted, store) =>
          match acquireSecondary (graph.secondaryTarget value) store with
          | (.accepted, store) => some (.accepted, store)
          | (failed, store) =>
              (graph.rollbackPair value true (graph.mainTarget value).isSome false store).map
                (failed, ·)
      | some (failed, store) => (graph.rollbackPair value true false false store).map (failed, ·)
  | (failed, store) => (graph.rollbackPair value false false false store).map (failed, ·)

/-- `acquire_pair`. -/
def acquirePair (value : Pair) (store : Store Pair Native) :
    Option (Acquired × Store Pair Native) :=
  match store.allocate with
  | (false, store) => some (.thrown, store)
  | (true, store) =>
      let id := graph.identity value
      match store.pairs.lookup id.index with
      | some found =>
          if found.value ≠ value ∨ graph.identity found.value ≠ id then some (.refused, store)
          else some (.accepted,
            { store with pairs := store.pairs.insert id.index ⟨found.value, found.references + 1⟩ })
      | none =>
          graph.acquireChildren value
            (fun store => match target : graph.mainTarget value with
              | none => some (.accepted, store)
              | some main => acquirePair main store)
            { store with pairs := store.pairs.insert id.index ⟨value, 1⟩ }
termination_by graph.height value
decreasing_by exact graph.main_lower target

end OwnerGraph

/-- Fields of `runtime_registry`. -/
structure RuntimeRegistry (Pair Native : Type) where
  pairs : CountedTable ObjectId Pair
  natives : CountedTable ObjectId Native
  pairRoots : List Pair
  nativeRoots : List (ObjectId × Native)

namespace RuntimeRegistry

/-- The default registry. -/
def empty : RuntimeRegistry Pair Native where
  pairs := ∅
  natives := ∅
  pairRoots := []
  nativeRoots := []

variable (graph : OwnerGraph Pair Native)

/-- `pair()`: the authorised owner of an identity. -/
def pair (id : BlobIdentity) (registry : RuntimeRegistry Pair Native) : Except String (Option Pair) :=
  match registry.pairs.lookup id.index with
  | none => .ok none
  | some found =>
      if graph.identity found.value ≠ id then
        .error "checkpoint index has another native identity"
      else .ok (some found.value)

/-- `native()`. -/
def native (id : ObjectId) (registry : RuntimeRegistry Pair Native) : Option Native :=
  (registry.natives.lookup id).map CountedEntry.value

/-- The loop over the new pair roots; those acquired so far come last first. -/
def acquirePairs : List Pair → List Pair → Store Pair Native →
    Option (Acquired × List Pair × Store Pair Native)
  | acquired, [], store => some (.accepted, acquired, store)
  | acquired, value :: rest, store => do
      let (answer, store) ← graph.acquirePair value store
      if answer ≠ .accepted then some (answer, acquired, store)
      else acquirePairs (value :: acquired) rest store

/-- The loop over the new native roots. -/
def acquireNatives : List (ObjectId × Native) → List (ObjectId × Native) → Store Pair Native →
    Acquired × List (ObjectId × Native) × Store Pair Native
  | acquired, [], store => (.accepted, acquired, store)
  | acquired, value :: rest, store =>
      let (answer, store) := store.acquireNative value.1 value.2
      if answer ≠ .accepted then (answer, acquired, store)
      else acquireNatives (value :: acquired) rest store

def releaseNatives : List (ObjectId × Native) → CountedTable ObjectId Native →
    Option (CountedTable ObjectId Native)
  | [], natives => some natives
  | value :: rest, natives => do
      let natives ← natives.release value.1
      releaseNatives rest natives

def releasePairs : List Pair → CountedTable ObjectId Pair → CountedTable ObjectId Native →
    Option (CountedTable ObjectId Pair × CountedTable ObjectId Native)
  | [], pairs, natives => some (pairs, natives)
  | value :: rest, pairs, natives => do
      let (pairs, natives) ← graph.releasePair (graph.identity value) pairs natives
      releasePairs rest pairs natives

/-- `replace()`, with the outcomes of its allocations. -/
def replace (pairs : List Pair) (natives : List (ObjectId × Native)) (allocations : List Bool)
    (registry : RuntimeRegistry Pair Native) : Option (Acquired × RuntimeRegistry Pair Native) := do
  let (answer, acquired, store) ←
    acquirePairs graph [] pairs ⟨registry.pairs, registry.natives, allocations⟩
  let (answer, acquiredNatives, store) :=
    if answer ≠ .accepted then (answer, [], store) else acquireNatives [] natives store
  if answer ≠ .accepted then
    let nativeTable ← releaseNatives acquiredNatives store.natives
    let (pairTable, nativeTable) ← releasePairs graph acquired store.pairs nativeTable
    return (answer, { registry with pairs := pairTable, natives := nativeTable })
  let nativeTable ← releaseNatives registry.nativeRoots store.natives
  let (pairTable, nativeTable) ← releasePairs graph registry.pairRoots store.pairs nativeTable
  return (.accepted,
    { pairs := pairTable, natives := nativeTable, pairRoots := pairs, nativeRoots := natives })

/-- `clear()`. -/
def clear (registry : RuntimeRegistry Pair Native) : Option (RuntimeRegistry Pair Native) := do
  let natives ← releaseNatives registry.nativeRoots registry.natives
  let _ ← releasePairs graph registry.pairRoots registry.pairs natives
  return empty

end RuntimeRegistry

end Everett.Retention

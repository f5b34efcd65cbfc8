import Everett.Cola.Build
import Everett.Cola.Search

/-!
# Lookup along a main chain

A lookup visits one group of each main node and one group of its secondary array, carrying only a
comparison context from node to node.  It reports every native and secondary match of the chain.
-/

namespace Everett

open Word Outcome Occurrences

variable {P : StoragePolicy}

/-- `virtual_size` of the head of a chain. -/
def MainPointer.virtualSize (main : MainPointer P) : Nat :=
  match main with
  | [] => 0
  | node :: _ => node.value.virtualSize

/-- `cola_query_match`: the node which yielded a match, and which of its two arrays holds it. -/
structure QueryMatch (P : StoragePolicy) where
  /-- The main node, with the chain below it. -/
  source : MainPointer P
  /-- Whether the match belongs to the secondary array of the node. -/
  secondary : Bool
  /-- Ordinal of the record. -/
  ordinal : Nat
  /-- Value bits of the record. -/
  value : BitString

/-- Shape checks of `adopt_prepared` on every node of a chain. -/
def MainPointer.samplesTargets : MainPointer P → Result Unit
  | [] => .ok ()
  | node :: main => do
      node.value.view
      require ((node.value.borrowed .main).length = MainPointer.groupCount P main ∧
        (node.value.borrowed .secondary).length = secondaryCount P node.value.secondary)
        "COLA query target sample count mismatch"
      samplesTargets main

/-- `cola_query_root::adopt_prepared`. -/
def adoptPrepared (source : MainPointer P) : Result (MainPointer P) := do
  require (source ≠ [] ∧ source.virtualSize ≤ P.groupSize)
    "COLA query root needs one bounded head group"
  source.samplesTargets
  .ok source

/-- `cola_query_cursor`. -/
structure QueryCursor (P : StoragePolicy) where
  /-- The next main node to visit, empty at the end. -/
  current : MainPointer P
  /-- Comparison which was carried to it. -/
  context : QueryContext
  /-- Group which the query was routed to. -/
  group : Nat
  /-- Pending match of the native array. -/
  native : Option (QueryMatch P)
  /-- Pending match of the secondary array. -/
  side : Option (QueryMatch P)

namespace QueryCursor

/-- Open a cursor on a prepared chain. -/
def start (head : MainPointer P) (query : BitString) : Result (QueryCursor P) := do
  let context ← QueryContext.fromOwned P query
  require (head ≠ []) "COLA query root has no head"
  .ok ⟨if head.virtualSize = 0 then [] else head, context, 0, none, none⟩

/-- `has_match`. -/
def hasMatch (cursor : QueryCursor P) : Bool := cursor.native.isSome || cursor.side.isSome

/-- `done`. -/
def done (cursor : QueryCursor P) : Bool := cursor.current.isEmpty && ! cursor.hasMatch

end QueryCursor

/-- The main route of a search leads to a group of the main target. -/
def checkMainRoute (main : MainPointer P) (next : Option BorrowedPredecessor) : Result Unit :=
  match next with
  | none => .ok ()
  | some next => require (main ≠ [] ∧ next.targetOrdinal % P.groupSize = 0 ∧
      next.targetOrdinal < main.virtualSize) "COLA query main route has no target"

/-- Follow the secondary route of a search, if any. -/
def searchSide {α : Type} (capture : Nat → BitString → α)
    (secondary : Option (Shared (NativeArray P))) (next : Option BorrowedPredecessor) :
    Result (Option α) :=
  match next with
  | none => .ok none
  | some next =>
      match secondary with
      | none => .error "COLA query secondary route has no target"
      | some leaf => searchSecondary P capture leaf.value next

namespace QueryCursor

/-- Visit one main node. -/
def visit (cursor : QueryCursor P) (node : Shared (ColaIndex P)) (main : MainPointer P) :
    Result (QueryCursor P) := do
  node.value.view
  let result ← node.value.searchWindow Prod.mk cursor.group cursor.context
  checkMainRoute main (result.predecessors .main)
  let side ← searchSide Prod.mk node.value.secondary (result.predecessors .secondary)
  let pending := fun secondary (found : Nat × BitString) =>
    (⟨node :: main, secondary, found.1, found.2⟩ : QueryMatch P)
  let visited := { cursor with
    native := result.native.map (pending false), side := side.map (pending true) }
  .ok <| match result.predecessors .main with
    | some next => { visited with
        group := next.targetOrdinal / P.groupSize, context := next.comparison, current := main }
    | none => { visited with current := [] }

/-- The loop of `step`: visit nodes until one yields a match. -/
def visitAll : Nat → QueryCursor P → Result (QueryCursor P × Nat)
  | 0, cursor => .ok (cursor, 0)
  | budget + 1, cursor =>
      match cursor.current with
      | [] => .ok (cursor, 0)
      | node :: main => do
          let visited ← cursor.visit node main
          if visited.hasMatch then .ok (visited, 1)
          else do
            let (cursor, more) ← visitAll budget visited
            .ok (cursor, more + 1)

/-- `step`: visit at most `mainBudget` nodes unless a match is pending. -/
def step (cursor : QueryCursor P) (mainBudget : Nat) : Result (QueryCursor P × Nat) :=
  if cursor.hasMatch then .ok (cursor, 0) else visitAll mainBudget cursor

/-- `take_match`: the native match comes before the secondary one. -/
def takeMatch (cursor : QueryCursor P) : Result (QueryCursor P × QueryMatch P) :=
  match cursor.native with
  | some found => .ok ({ cursor with native := none }, found)
  | none =>
      match cursor.side with
      | some found => .ok ({ cursor with side := none }, found)
      | none => .error "COLA query cursor has no match"

/-- Take every pending match; there are at most two. -/
def takeAll : Nat → QueryCursor P → Result (QueryCursor P × List (QueryMatch P))
  | 0, cursor => .ok (cursor, [])
  | fuel + 1, cursor =>
      if cursor.hasMatch then do
        let (cursor, found) ← cursor.takeMatch
        let (cursor, rest) ← takeAll fuel cursor
        .ok (cursor, found :: rest)
      else .ok (cursor, [])

/-- Step with these budgets, taking the pending matches after each step. -/
def drain : List Nat → QueryCursor P → Result (QueryCursor P × List (QueryMatch P))
  | [], cursor => .ok (cursor, [])
  | budget :: budgets, cursor => do
      let (cursor, _) ← cursor.step budget
      let (cursor, found) ← takeAll 2 cursor
      let (cursor, rest) ← drain budgets cursor
      .ok (cursor, found ++ rest)

end QueryCursor

/-- The loop of `first_value`: decode the first match along a chain. -/
def firstValueFrom {α : Type} (decode : BitString → Result α) :
    MainPointer P → Nat → QueryContext → Result (Option α)
  | [], _, _ => .ok none
  | node :: main, group, context => do
      node.value.view
      let result ← node.value.searchWindow (fun _ encoded => encoded) group context
      checkMainRoute main (result.predecessors .main)
      let side ← searchSide (fun _ encoded => encoded) node.value.secondary
        (result.predecessors .secondary)
      match result.native.or side with
      | some encoded => some <$> decode encoded
      | none =>
          match result.predecessors .main with
          | some next =>
              firstValueFrom decode main (next.targetOrdinal / P.groupSize) next.comparison
          | none => .ok none

/-- `first_value`. -/
def firstValue {α : Type} (root : MainPointer P) (query : BitString)
    (decode : BitString → Result α) : Result (Option α) := do
  let context ← QueryContext.fromOwned P query
  require (root ≠ []) "COLA query root has no head"
  if root.virtualSize = 0 then .ok none else firstValueFrom decode root 0 context

/-- Ordinal and value of the record with this key. -/
def ProfileArray.find? {related : BitString → BitString → Prop} (array : ProfileArray P related)
    (query : BitString) : Option (Nat × BitString) :=
  (array.entries.findIdx? fun entry => entry.key = query).bind fun ordinal =>
    array.entries[ordinal]?.map fun entry => (ordinal, entry.value)

/-- Every record of a chain with this key, in chain order, native before secondary. -/
def MainPointer.allMatches (query : BitString) : MainPointer P → List (QueryMatch P)
  | [] => []
  | node :: main =>
      ((node.value.native.value.find? query).map fun found =>
        (⟨node :: main, false, found.1, found.2⟩ : QueryMatch P)).toList ++
      ((node.value.secondary.bind fun leaf => leaf.value.find? query).map fun found =>
        (⟨node :: main, true, found.1, found.2⟩ : QueryMatch P)).toList ++
      MainPointer.allMatches query main

theorem ProfileArray.find?_eq_some {array : NativeArray P} {query value : BitString}
    {ordinal : Nat} : array.find? query = some (ordinal, value) ↔
      array.Holds ordinal query value := by
  unfold find?
  cases index : array.entries.findIdx? fun entry => entry.key = query with
  | none =>
      rw [List.findIdx?_eq_none_iff] at index
      refine ⟨by simp, ?_⟩
      rintro ⟨entry, present, same, -⟩
      have different := index entry (List.mem_of_getElem? present)
      simp [same] at different
  | some first =>
      obtain ⟨first_lt, matched, -⟩ := List.findIdx?_eq_some_iff_getElem.mp index
      have held : array.Holds first query array.entries[first].value :=
        ⟨array.entries[first], List.getElem?_eq_getElem first_lt, by simpa using matched, rfl⟩
      rw [Option.bind_some, List.getElem?_eq_getElem first_lt, Option.map_some, Option.some.injEq,
        Prod.mk.injEq]
      constructor
      · rintro ⟨rfl, rfl⟩
        exact held
      · exact fun other => held.unique other

theorem ProfileArray.find?_eq_none {array : NativeArray P} {query : BitString} :
    array.find? query = none ↔ query ∉ array.keys := by
  rw [array.mem_keys_iff, Option.eq_none_iff_forall_not_mem]
  constructor
  · rintro absent ⟨ordinal, value, held⟩
    exact absent (ordinal, value) (ProfileArray.find?_eq_some.mpr held)
  · rintro absent ⟨ordinal, value⟩ found
    exact absent ⟨ordinal, value, ProfileArray.find?_eq_some.mp found⟩

/-- A match holds a record of the chain whose key is the query. -/
def QueryMatch.Records (chain : MainPointer P) (query : BitString) (found : QueryMatch P) : Prop :=
  ∃ node main, found.source = node :: main ∧ found.source <:+ chain ∧
    if found.secondary then ∃ leaf, node.value.secondary = some leaf ∧
      leaf.value.Holds found.ordinal query found.value
    else node.value.native.value.Holds found.ordinal query found.value

/-- Chain order of matches; the native match of a node comes before its secondary one. -/
def QueryMatch.Precedes (first second : QueryMatch P) : Prop :=
  second.source.length < first.source.length ∨
    second.source = first.source ∧ first.secondary = false ∧ second.secondary = true

/-- The matches are exactly the records of the chain with the query as their key. -/
theorem MainPointer.mem_allMatches {query : BitString} {chain : MainPointer P}
    {found : QueryMatch P} : found ∈ chain.allMatches query ↔ found.Records chain query := by
  unfold QueryMatch.Records
  induction chain with
  | nil =>
      refine ⟨by simp [MainPointer.allMatches], ?_⟩
      rintro ⟨node, main, source, suffix_of, -⟩
      rw [List.suffix_nil.mp suffix_of] at source
      cases source
  | cons node main induction =>
      obtain ⟨source, secondary, ordinal, value⟩ := found
      rw [MainPointer.allMatches, List.mem_append, List.mem_append, induction]
      dsimp only
      constructor
      · rintro ((native | side) | ⟨other, below, rfl, suffix_of, held⟩)
        · rw [Option.mem_toList, Option.map_eq_some_iff] at native
          obtain ⟨⟨i, v⟩, present, equal⟩ := native
          cases equal
          exact ⟨node, main, rfl, List.suffix_refl _, ProfileArray.find?_eq_some.mp present⟩
        · rw [Option.mem_toList, Option.map_eq_some_iff] at side
          obtain ⟨⟨i, v⟩, present, equal⟩ := side
          cases equal
          obtain ⟨leaf, leaf_eq, present⟩ := Option.bind_eq_some_iff.mp present
          exact ⟨node, main, rfl, List.suffix_refl _, leaf, leaf_eq,
            ProfileArray.find?_eq_some.mp present⟩
        · exact ⟨other, below, rfl, suffix_of.trans (List.suffix_cons _ _), held⟩
      · rintro ⟨other, below, rfl, suffix_of, held⟩
        rcases List.suffix_cons_iff.mp suffix_of with equal | deeper
        · obtain ⟨rfl, rfl⟩ := List.cons.inj equal
          left
          cases secondary with
          | false =>
              left
              simp [ProfileArray.find?_eq_some.mpr held]
          | true =>
              right
              obtain ⟨leaf, leaf_eq, held⟩ := held
              simp [leaf_eq, ProfileArray.find?_eq_some.mpr held]
        · exact .inr ⟨other, below, rfl, deeper, held⟩

/-- The matches of a chain are strictly ordered, so each occurs once. -/
theorem MainPointer.allMatches_ordered (query : BitString) (chain : MainPointer P) :
    (chain.allMatches query).Pairwise QueryMatch.Precedes := by
  induction chain with
  | nil => exact .nil
  | cons node main induction =>
      have below : ∀ found ∈ MainPointer.allMatches query main,
          found.source.length < (node :: main).length := by
        intro found member
        obtain ⟨other, rest, -, suffix_of, -⟩ := Iff.mp MainPointer.mem_allMatches member
        exact Nat.lt_succ_of_le suffix_of.length_le
      have at_node : ∀ {secondary : Bool} {match_at : Option (Nat × BitString)}
          {found : QueryMatch P}, found ∈ (match_at.map fun found =>
            (⟨node :: main, secondary, found.1, found.2⟩ : QueryMatch P)).toList →
              found.source = node :: main ∧ found.secondary = secondary := by
        intro secondary match_at found member
        rw [Option.mem_toList, Option.map_eq_some_iff] at member
        obtain ⟨_, -, rfl⟩ := member
        exact ⟨rfl, rfl⟩
      have single : ∀ option : Option (QueryMatch P),
          option.toList.Pairwise QueryMatch.Precedes := by
        intro option
        cases option <;> simp
      rw [MainPointer.allMatches, List.pairwise_append, List.pairwise_append]
      refine ⟨⟨single _, single _, ?_⟩, induction, ?_⟩
      · intro first first_member second second_member
        obtain ⟨first_source, first_native⟩ := at_node first_member
        obtain ⟨second_source, second_side⟩ := at_node second_member
        exact .inr ⟨second_source.trans first_source.symm, first_native, second_side⟩
      · intro first first_member second second_member
        refine .inl ?_
        have source : first.source = node :: main :=
          (List.mem_append.mp first_member).elim (fun native => (at_node native).1)
            fun side => (at_node side).1
        rw [source]
        exact below second second_member

end Everett

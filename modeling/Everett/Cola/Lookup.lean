import Everett.Cola.Query

/-!
# Completeness and soundness of lookup

A query is routed from node to node by the last sample at most its key, so every record with that
key lies in the group which is searched, or just before it behind an equal borrow.  A chain which
the query is not routed into holds no such record.
-/

namespace Everett

open Word Outcome Occurrences

variable {P : StoragePolicy}

/-- Run a builder with these budgets. -/
def ColaIndexBuilder.runSteps :
    List Nat → ColaIndexBuilder P → Result (ColaIndexBuilder P)
  | [], builder => .ok builder
  | budget :: budgets, builder => do
      let (builder, _) ← builder.step budget
      runSteps budgets builder

/-- Chains whose nodes were produced by the index builder, whatever its step budgets were. -/
inductive MainPointer.Built : MainPointer P → Prop
  | null : Built []
  | node {main : MainPointer P} {native : Shared (NativeArray P)}
      {secondary : Option (Shared (NativeArray P))} {builder done finished : ColaIndexBuilder P}
      {budgets : List Nat} {index : ColaIndex P} (address : Nat) (main_built : Built main)
      (start : ColaIndexBuilder.start native main secondary = .ok builder)
      (run : ColaIndexBuilder.runSteps budgets builder = .ok done)
      (finish : done.finish = .ok (finished, index)) : Built (⟨address, index⟩ :: main)

namespace ColaIndexBuilder

theorem Building.runSteps_ok {target occurrences : Occurrences} (budgets : List Nat)
    {builder : ColaIndexBuilder P} (building : builder.Building target occurrences) :
    ∃ following, runSteps budgets builder = .ok following ∧
      following.Building target occurrences ∧ following.native = builder.native ∧
      following.main = builder.main ∧ following.secondary = builder.secondary := by
  induction budgets generalizing builder with
  | nil => exact ⟨builder, rfl, building, rfl, rfl, rfl⟩
  | cons budget budgets induction =>
      obtain ⟨next, stepped, next_building, -, native, main, secondary⟩ := building.step_ok budget
      obtain ⟨following, ran, following_building, native', main', secondary'⟩ :=
        induction next_building
      exact ⟨following, by simp only [runSteps, stepped, ok_bind, ran], following_building,
        native'.trans native, main'.trans main, secondary'.trans secondary⟩

/-- A builder which opened has 64-bit counts. -/
theorem fits_of_start {native : Shared (NativeArray P)} {main : MainPointer P}
    {secondary : Option (Shared (NativeArray P))} {builder : ColaIndexBuilder P}
    (started : start native main secondary = .ok builder) :
    native.value.size + main.groupCount + secondaryCount P secondary ≤ maximum64 := by
  obtain ⟨_, guarded, -⟩ := bind_eq_ok.mp started
  have fits := require_eq_ok.mp guarded
  have count : native.value.size ≤ maximum64 := native.value.count
  omega

/-- A finished builder has taken every occurrence. -/
theorem Building.whole_of_finish {target occurrences : Occurrences}
    {builder finished : ColaIndexBuilder P} {index : ColaIndex P}
    (building : builder.Building target occurrences)
    (finish : builder.finish = .ok (finished, index)) : builder.count = occurrences.length := by
  refine building.done_iff.mp ?_
  have active : ¬ builder.finished = true := by simp [building.navigates.unfinished]
  rw [ColaIndexBuilder.finish, if_neg active] at finish
  by_contra remaining
  rw [Bool.not_eq_true] at remaining
  simp [remaining] at finish

end ColaIndexBuilder

/-- Every built chain navigates the merges of its sources. -/
theorem MainPointer.Built.indexes {chain : MainPointer P} (built : chain.Built) :
    ∃ occurrences, chain.Indexes occurrences := by
  induction built with
  | null => exact ⟨[], rfl⟩
  | @node main native secondary builder done finished budgets index address _ start run finish
      induction =>
      obtain ⟨target, chain⟩ := induction
      obtain ⟨opened, occurrences, started, building, -, native_eq, main_eq, secondary_eq⟩ :=
        ColaIndexBuilder.start_ok chain (ColaIndexBuilder.fits_of_start start)
      rw [start, Except.ok.injEq] at started
      subst started
      obtain ⟨following, ran, following_building, -, -, -⟩ := building.runSteps_ok budgets
      rw [run, Except.ok.injEq] at ran
      subst ran
      obtain ⟨closed, result, finished_ok, indexes, -, -⟩ :=
        following_building.finish_ok (following_building.whole_of_finish finish)
      rw [finish, Except.ok.injEq, Prod.mk.injEq] at finished_ok
      obtain ⟨-, rfl⟩ := finished_ok
      exact ⟨occurrences, target, chain, indexes⟩

namespace ColaIndexBuilder

theorem Building.runToEnd_ok {target occurrences : Occurrences} (fuel : Nat)
    {builder : ColaIndexBuilder P} (building : builder.Building target occurrences)
    (enough : occurrences.length - builder.count < fuel) :
    ∃ following budgets, runToEnd fuel builder = .ok following ∧
      runSteps budgets builder = .ok following ∧ following.Building target occurrences ∧
      following.count = occurrences.length ∧ following.native = builder.native ∧
      following.secondary = builder.secondary := by
  induction fuel generalizing builder with
  | zero => omega
  | succ fuel induction =>
      rw [runToEnd]
      by_cases done : builder.done = true
      · rw [if_pos done]
        exact ⟨builder, [], rfl, rfl, building, building.done_iff.mp done, rfl, rfl⟩
      · have more : builder.count < occurrences.length :=
          lt_of_le_of_ne building.navigates.bound fun whole => done (building.done_iff.mpr whole)
        obtain ⟨next, stepped, next_building, count, native, -, secondary⟩ :=
          building.step_ok 4096
        obtain ⟨following, budgets, ran, steps, following_building, whole, native', secondary'⟩ :=
          induction next_building (by omega)
        rw [if_neg done]
        exact ⟨following, 4096 :: budgets, by simp only [stepped, ok_bind, ran],
          by simp only [runSteps, stepped, ok_bind, steps], following_building, whole,
          native'.trans native, secondary'.trans secondary⟩

end ColaIndexBuilder

/-- Adopting a native array over a built chain yields a built chain, within 64-bit counts. -/
theorem MainPointer.Built.adoptNative_ok {main : MainPointer P} (address : Nat)
    (built : main.Built) (native : Shared (NativeArray P))
    (secondary : Option (Shared (NativeArray P)))
    (fits : native.value.size + main.groupCount + secondaryCount P secondary ≤ maximum64) :
    ∃ index, adoptNative native main secondary = .ok index ∧
      MainPointer.Built (⟨address, index⟩ :: main) ∧ index.native = native ∧
      index.secondary = secondary ∧
      index.count = native.value.size + main.groupCount + secondaryCount P secondary := by
  obtain ⟨target, chain⟩ := built.indexes
  obtain ⟨builder, occurrences, started, building, count, native_eq, main_eq, secondary_eq⟩ :=
    ColaIndexBuilder.start_ok chain fits
  have length := building.length_eq
  rw [native_eq, main_eq, secondary_eq] at length
  obtain ⟨following, budgets, ran, steps, following_building, whole, native', secondary'⟩ :=
    building.runToEnd_ok (native.value.size + main.groupCount + secondaryCount P secondary + 1)
      (by omega)
  obtain ⟨finished, index, finish, indexes, index_native, index_secondary⟩ :=
    following_building.finish_ok whole
  refine ⟨index, by simp only [adoptNative, started, ok_bind, ran, finish],
    .node address built started steps finish, (index_native.trans native').trans native_eq,
    (index_secondary.trans secondary').trans secondary_eq, ?_⟩
  rw [indexes.count, length]

/-- Keys of a node, from the first sample on, exceed a query below that sample. -/
theorem not_mem_of_samples {keys : List BitString} {query : BitString}
    (sorted : keys.Pairwise (· ≤ ·)) (above : ∀ key ∈ sample P.groupSize keys, query < key) :
    ∀ key ∈ keys, query < key := by
  intro key member
  cases keys with
  | nil => cases member
  | cons head tail =>
      have head_above : query < head :=
        above head (by rw [sample_cons P.groupSize_pos]; exact List.mem_cons_self)
      rcases List.mem_cons.mp member with rfl | later
      · exact head_above
      · exact head_above.trans_le ((List.pairwise_cons.mp sorted).1 key later)

theorem ColaIndex.Indexes.keys_sorted {index : ColaIndex P} {mainKeys : List BitString}
    {occurrences : Occurrences} (indexes : index.Indexes mainKeys occurrences) :
    (occurrences.map Prod.snd).Pairwise (· ≤ ·) :=
  List.pairwise_map.mpr (indexes.sorted.imp MergeOrder.le)

/-- A chain whose occurrences all exceed the query holds no record with that key. -/
theorem MainPointer.allMatches_eq_nil {chain : MainPointer P} {occurrences : Occurrences}
    {query : BitString} (indexed : chain.Indexes occurrences)
    (above : ∀ x ∈ occurrences, query < x.2) : chain.allMatches query = [] := by
  induction chain generalizing occurrences with
  | nil => rfl
  | cons node main induction =>
      obtain ⟨target, main_indexed, indexes⟩ := indexed
      have source_above : ∀ origin, ∀ key ∈ ColaIndex.sources node.value.native.value
          (target.map Prod.snd) node.value.secondary origin, query < key :=
        fun origin key member => above (origin, key) (indexes.merged.mem_iff.mpr member)
      have no_native : node.value.native.value.find? query = none := by
        rw [ProfileArray.find?_eq_none]
        exact fun member => absurd (source_above .native query member) (lt_irrefl _)
      have no_secondary :
          (node.value.secondary.bind fun leaf => leaf.value.find? query) = none := by
        cases leaf_eq : node.value.secondary with
        | none => rfl
        | some leaf =>
            rw [Option.bind_some, ProfileArray.find?_eq_none]
            have leaf_above := source_above .secondary
            rw [leaf_eq] at leaf_above
            exact fun member => absurd (not_mem_of_samples (leaf.value.sorted.imp le_of_lt)
              leaf_above query member) (lt_irrefl _)
      have main_above : ∀ x ∈ target, query < x.2 := by
        have target_sorted : (target.map Prod.snd).Pairwise (· ≤ ·) := by
          cases main with
          | nil => rw [show target = [] from main_indexed]; exact .nil
          | cons below rest =>
              obtain ⟨deeper, -, below_indexes⟩ := main_indexed
              exact below_indexes.keys_sorted
        exact fun x member => not_mem_of_samples target_sorted (source_above .main) x.2
          (List.mem_map_of_mem member)
      rw [MainPointer.allMatches, no_native, no_secondary, induction main_indexed main_above]
      rfl

/-- The query was routed to a group of this node. -/
def Enters (node : Shared (ColaIndex P)) (main : MainPointer P) (query : BitString) (group : Nat)
    (context : QueryContext) : Prop :=
  ∃ target occurrences anchor, MainPointer.Indexes main target ∧
    node.value.Indexes (target.map Prod.snd) occurrences ∧
    occurrences.Routed P (group * P.groupSize) anchor query ∧ context.Compares P query anchor

/-- The last sample at most the query routes it to the group which may hold its key. -/
theorem routed_of_sample {index : ColaIndex P} {mainKeys : List BitString}
    {occurrences : Occurrences} {query key : BitString} {ordinal : Nat}
    (indexes : index.Indexes mainKeys occurrences)
    (present : (sample P.groupSize (occurrences.map Prod.snd))[ordinal]? = some key)
    (lower : key ≤ query)
    (next : ∀ later, (sample P.groupSize (occurrences.map Prod.snd))[ordinal + 1]? =
      some later → query < later) :
    occurrences.Routed P (ordinal * P.groupSize) key query := by
  rw [getElem?_sample P.groupSize_pos, List.getElem?_map] at present
  obtain ⟨first, at_first, rfl⟩ := Option.map_eq_some_iff.mp present
  obtain ⟨inside, first_eq⟩ := List.getElem?_eq_some_iff.mp at_first
  have sorted := List.pairwise_iff_getElem.mp (indexes.sorted.imp MergeOrder.le)
  refine ⟨inside, indexes.aligned _ (List.mem_of_getElem? at_first), lower, ?_, ?_, ?_, ?_⟩
  · intro x member
    obtain ⟨offset, at_offset⟩ := List.mem_iff_getElem?.mp member
    rw [List.getElem?_drop] at at_offset
    obtain ⟨x_lt, rfl⟩ := List.getElem?_eq_some_iff.mp at_offset
    rcases Nat.eq_zero_or_pos offset with rfl | positive
    · simp only [Nat.add_zero, first_eq, le_refl]
    · rw [← first_eq]
      exact sorted _ _ inside x_lt (by omega)
  · intro x member
    obtain ⟨offset, at_offset⟩ := List.mem_iff_getElem?.mp member
    have offset_lt : offset < ordinal * P.groupSize := by
      have := (List.getElem?_eq_some_iff.mp at_offset).1
      rw [List.length_take] at this
      omega
    rw [List.getElem?_take_of_lt offset_lt] at at_offset
    obtain ⟨x_lt, rfl⟩ := List.getElem?_eq_some_iff.mp at_offset
    rw [← first_eq]
    exact sorted _ _ x_lt inside offset_lt
  · intro x member
    obtain ⟨offset, at_offset⟩ := List.mem_iff_getElem?.mp member
    rw [List.getElem?_drop] at at_offset
    obtain ⟨x_lt, rfl⟩ := List.getElem?_eq_some_iff.mp at_offset
    have group_lt : ordinal * P.groupSize + P.groupSize < occurrences.length := by omega
    have later : (sample P.groupSize (occurrences.map Prod.snd))[ordinal + 1]? =
        some (occurrences[ordinal * P.groupSize + P.groupSize]).2 := by
      rw [getElem?_sample P.groupSize_pos, List.getElem?_map, Nat.succ_mul,
        List.getElem?_eq_getElem group_lt]
      rfl
    refine (next _ later).trans_le ?_
    rcases Nat.eq_zero_or_pos offset with rfl | positive
    · simp only [Nat.add_zero, le_refl]
    · exact sorted _ _ group_lt x_lt (by omega)
  · intro _
    rw [at_first]
    rfl

/-- One group of a secondary array holds its match, if the array holds it. -/
theorem searchSide_ok {α : Type} (capture : Nat → BitString → α) {index : ColaIndex P}
    {mainKeys : List BitString} {occurrences : Occurrences} {query : BitString}
    (indexes : index.Indexes mainKeys occurrences) {next : Option BorrowedPredecessor}
    (absent : next = none → ∀ key ∈ keysOf occurrences .secondary, query < key)
    (present : ∀ predecessor, next = some predecessor →
      (∃ key, ColaIndex.RoutesTo (P := P) occurrences query .secondary predecessor key) ∧
        ∀ key, (keysOf occurrences .secondary)[predecessor.ordinal + 1]? = some key →
          query < key) :
    searchSide capture index.secondary next =
      .ok ((index.secondary.bind fun leaf => leaf.value.find? query).map fun found =>
        capture found.1 found.2) := by
  have keys : keysOf occurrences .secondary = sample P.groupSize
      ((index.secondary.map fun leaf => leaf.value.keys).getD []) := indexes.keysOf_eq .secondary
  rw [keys] at absent present
  cases next with
  | none =>
      cases leaf_eq : index.secondary with
      | none => rfl
      | some leaf =>
          rw [leaf_eq] at absent
          have unmatched : leaf.value.find? query = none := by
            rw [ProfileArray.find?_eq_none]
            exact fun member => absurd (not_mem_of_samples (leaf.value.sorted.imp le_of_lt)
              (absent rfl) query member) (lt_irrefl _)
          rw [Option.bind_some, unmatched]
          rfl
  | some predecessor =>
      obtain ⟨⟨key, routes⟩, next_above⟩ := present predecessor rfl
      have at_key := routes.present
      have origin : ColaTarget.secondary.origin = .secondary := rfl
      rw [origin, keys] at at_key
      cases leaf_eq : index.secondary with
      | none => simp [leaf_eq] at at_key
      | some leaf =>
          rw [leaf_eq, Option.map_some, Option.getD_some, getElem?_sample P.groupSize_pos,
            ← routes.target] at at_key
          rw [leaf_eq, Option.map_some, Option.getD_some] at next_above
          set first := predecessor.targetOrdinal with first_def
          have first_position : first = predecessor.ordinal * P.groupSize := routes.target
          obtain ⟨first_lt, first_eq⟩ := List.getElem?_eq_some_iff.mp at_key
          have size : leaf.value.keys.length = leaf.value.size := leaf.value.length_keys
          have entries_size : leaf.value.entries.length = leaf.value.size := rfl
          have guarded : first < leaf.value.size ∧ first % P.groupSize = 0 ∧
              predecessor.comparison.order ≠ .gt := by
            refine ⟨by omega, by rw [first_position, Nat.mul_mod_left], ?_⟩
            rw [routes.compares.order, routes.compares.same_query]
            exact order_ne_gt.mpr routes.lower
          have strict := List.pairwise_iff_getElem.mp leaf.value.sorted
          have between : ∀ entry, leaf.value.entries[first]? = some entry →
              (∀ earlier ∈ leaf.value.entries.take first, earlier.key ≤ key) ∧
                key ≤ entry.key := by
            intro entry at_entry
            have entry_key : entry.key = key := by
              rw [ProfileArray.keys, List.getElem?_map, at_entry] at at_key
              exact Option.some.inj at_key
            refine ⟨?_, entry_key.ge⟩
            intro earlier member
            obtain ⟨offset, at_offset⟩ := List.mem_iff_getElem?.mp member
            have offset_lt : offset < first := by
              have := (List.getElem?_eq_some_iff.mp at_offset).1
              rw [List.length_take] at this
              omega
            rw [List.getElem?_take_of_lt offset_lt] at at_offset
            obtain ⟨earlier_lt, rfl⟩ := List.getElem?_eq_some_iff.mp at_offset
            obtain ⟨entry_lt, rfl⟩ := List.getElem?_eq_some_iff.mp at_entry
            have less := strict offset first (by simpa using earlier_lt)
              (by simpa using entry_lt) offset_lt
            rw [← entry_key]
            simpa using less.le
          obtain ⟨found, matched, sound, unmatched⟩ := matchWindow capture leaf.value
            first (first + min P.groupSize (leaf.value.size - first)) (by omega) (by omega) (by omega) routes.compares between
          have result : searchSide capture (some leaf) (some predecessor) = .ok found := by
            simp only [searchSide, searchSecondary, ← first_def, require_true guarded, ok_bind,
              matched]
          rw [result, Option.bind_some]
          cases found with
          | some captured =>
              obtain ⟨ordinal, value, held, rfl⟩ := sound captured rfl
              rw [ProfileArray.find?_eq_some.mpr held]
              rfl
          | none =>
              have unheld : leaf.value.find? query = none := by
                rw [ProfileArray.find?_eq_none]
                intro member
                obtain ⟨position, at_position⟩ := List.mem_iff_getElem?.mp member
                obtain ⟨position_lt, position_eq⟩ := List.getElem?_eq_some_iff.mp at_position
                rcases Nat.lt_or_ge position first with before | after
                · have less := strict position first position_lt first_lt before
                  have key_lt : query < key := by
                    rw [← position_eq, ← first_eq]
                    exact less
                  exact absurd routes.lower (not_le.mpr key_lt)
                · rcases Nat.lt_or_ge position (first + P.groupSize) with within | beyond
                  · refine unmatched rfl (List.mem_of_getElem? (i := position - first) ?_)
                    rw [List.getElem?_take_of_lt (by omega), List.getElem?_drop,
                      Nat.add_sub_cancel' after, at_position]
                  · have next_lt : first + P.groupSize < leaf.value.keys.length := by omega
                    have next_key : (sample P.groupSize leaf.value.keys)[predecessor.ordinal + 1]? =
                        some leaf.value.keys[first + P.groupSize] := by
                      rw [getElem?_sample P.groupSize_pos, Nat.succ_mul, ← first_position,
                        List.getElem?_eq_getElem next_lt]
                    have above := next_above _ next_key
                    rcases Nat.eq_or_lt_of_le beyond with same | less
                    · rw [← position_eq] at above
                      simp only [same] at above
                      exact lt_irrefl _ above
                    · have later := strict _ _ next_lt position_lt less
                      rw [← position_eq] at above
                      exact absurd (above.trans later) (lt_irrefl _)
              rw [unheld]
              rfl

/-- Searching an entered node finds its matches and enters its main target, or exhausts it. -/
theorem Enters.search_ok {α : Type} (capture : Nat → BitString → α)
    {node : Shared (ColaIndex P)} {main : MainPointer P} {query : BitString} {group : Nat}
    {context : QueryContext} (enters : Enters node main query group context) :
    node.value.view = .ok () ∧ ∃ result,
      node.value.searchWindow capture group context = .ok result ∧
      result.native = (node.value.native.value.find? query).map
        (fun found => capture found.1 found.2) ∧
      checkMainRoute main (result.predecessors .main) = .ok () ∧
      searchSide capture node.value.secondary (result.predecessors .secondary) =
        .ok ((node.value.secondary.bind fun leaf => leaf.value.find? query).map fun found =>
          capture found.1 found.2) ∧
      match result.predecessors .main with
      | none => MainPointer.allMatches query main = []
      | some next => ∃ below rest, main = below :: rest ∧
          Enters below rest query (next.targetOrdinal / P.groupSize) next.comparison := by
  obtain ⟨target, occurrences, anchor, indexed, indexes, routed, compares⟩ := enters
  obtain ⟨result, searched, captures, complete, routes⟩ :=
    ColaIndex.searchWindow_ok capture indexes routed compares
  have native : result.native = (node.value.native.value.find? query).map
      (fun found => capture found.1 found.2) := by
    cases found : node.value.native.value.find? query with
    | none =>
        cases native : result.native with
        | none => rfl
        | some captured =>
            obtain ⟨ordinal, value, held, -⟩ := captures captured native
            rw [ProfileArray.find?_eq_some.mpr held] at found
            cases found
    | some match_at =>
        have held := ProfileArray.find?_eq_some.mp found
        cases native : result.native with
        | none =>
            exact absurd native (complete (ProfileArray.mem_keys_iff.mpr ⟨_, _, held⟩))
        | some captured =>
            obtain ⟨ordinal, value, other, rfl⟩ := captures captured native
            obtain ⟨same_ordinal, same_value⟩ := held.unique other
            rw [← same_ordinal, ← same_value]
            rfl
  have side := searchSide_ok capture indexes (routes .secondary).1 (routes .secondary).2
  have keys : keysOf occurrences ColaTarget.main.origin =
      sample P.groupSize (target.map Prod.snd) := indexes.keysOf_eq .main
  obtain ⟨absent, present⟩ := routes .main
  rw [keys] at absent present
  refine ⟨indexes.view_ok, result, searched, native, ?_, side, ?_⟩
  · cases next_eq : result.predecessors .main with
    | none => rfl
    | some next =>
        obtain ⟨⟨key, route⟩, -⟩ := present next next_eq
        have at_key := route.present
        rw [keys, getElem?_sample P.groupSize_pos, ← route.target] at at_key
        have inside := (List.getElem?_eq_some_iff.mp at_key).1
        rw [List.length_map] at inside
        cases main with
        | nil =>
            rw [show target = [] from indexed] at inside
            exact absurd inside (Nat.not_lt_zero _)
        | cons below rest =>
            obtain ⟨deeper, -, below_indexes⟩ := indexed
            refine require_true ⟨by simp, by rw [route.target, Nat.mul_mod_left], ?_⟩
            rwa [MainPointer.virtualSize, ColaIndex.virtualSize, below_indexes.count]
  · cases next_eq : result.predecessors .main with
    | none =>
        refine MainPointer.allMatches_eq_nil indexed fun x member => ?_
        have target_sorted : (target.map Prod.snd).Pairwise (· ≤ ·) := by
          cases main with
          | nil => rw [show target = [] from indexed]; exact .nil
          | cons below rest =>
              obtain ⟨deeper, -, below_indexes⟩ := indexed
              exact below_indexes.keys_sorted
        exact not_mem_of_samples target_sorted (absent next_eq) x.2 (List.mem_map_of_mem member)
    | some next =>
        obtain ⟨⟨key, route⟩, beyond⟩ := present next next_eq
        have at_key := route.present
        rw [keys] at at_key
        cases main with
        | nil =>
            rw [show target = [] from indexed] at at_key
            simp at at_key
        | cons below rest =>
            obtain ⟨deeper, deeper_indexed, below_indexes⟩ := indexed
            refine ⟨below, rest, rfl, deeper, target, key, deeper_indexed, below_indexes, ?_,
              route.compares⟩
            rw [route.target, Nat.mul_div_cancel _ P.groupSize_pos]
            exact routed_of_sample below_indexes at_key route.lower beyond

namespace QueryCursor

/-- Matches which a cursor has still to deliver. -/
def remaining (query : BitString) (cursor : QueryCursor P) : List (QueryMatch P) :=
  cursor.native.toList ++ cursor.side.toList ++ cursor.current.allMatches query

/-- A cursor is at the end of its chain or the query was routed to its current group. -/
def Located (query : BitString) (cursor : QueryCursor P) : Prop :=
  match cursor.current with
  | [] => True
  | node :: main => Enters node main query cursor.group cursor.context

/-- Visiting a node moves its matches from the chain to the pending ones. -/
theorem visit_ok {query : BitString} {cursor : QueryCursor P} {node : Shared (ColaIndex P)}
    {main : MainPointer P} (enters : Enters node main query cursor.group cursor.context) :
    ∃ visited, cursor.visit node main = .ok visited ∧ visited.Located query ∧
      visited.remaining query = MainPointer.allMatches query (node :: main) ∧
      visited.current.length ≤ main.length := by
  obtain ⟨view, result, searched, native, main_route, side, next⟩ :=
    enters.search_ok Prod.mk
  simp only [visit, view, ok_bind, searched, main_route, side]
  cases next_eq : result.predecessors .main with
  | none =>
      simp only [next_eq] at next
      refine ⟨_, rfl, trivial, ?_, Nat.zero_le _⟩
      simp only [remaining, MainPointer.allMatches, native, next, Option.map_map]
      rfl
  | some predecessor =>
      simp only [next_eq] at next
      obtain ⟨below, rest, rfl, below_enters⟩ := next
      refine ⟨_, rfl, below_enters, ?_, le_rfl⟩
      simp only [remaining, MainPointer.allMatches, native, Option.map_map]
      rfl

theorem visitAll_ok {query : BitString} {budget : Nat} {cursor : QueryCursor P}
    (located : cursor.Located query) (nothing : cursor.hasMatch = false) :
    ∃ following visited, visitAll budget cursor = .ok (following, visited) ∧
      following.Located query ∧ following.remaining query = cursor.remaining query ∧
      (0 < budget → following.current.length ≤ cursor.current.length - 1) ∧
      following.current.length ≤ cursor.current.length := by
  induction budget generalizing cursor with
  | zero => exact ⟨cursor, 0, rfl, located, rfl, by simp, le_rfl⟩
  | succ budget induction =>
      rw [hasMatch, Bool.or_eq_false_iff] at nothing
      have no_native : cursor.native = none := by simpa using nothing.1
      have no_side : cursor.side = none := by simpa using nothing.2
      unfold visitAll
      cases current : cursor.current with
      | nil => exact ⟨cursor, 0, rfl, located, rfl, by simp [current], by simp [current]⟩
      | cons node main =>
          rw [Located, current] at located
          obtain ⟨visited, visit, visited_located, visited_remaining, shorter⟩ :=
            visit_ok located
          have same : visited.remaining query = cursor.remaining query := by
            rw [visited_remaining, remaining, no_native, no_side, current]
            rfl
          simp only [visit, ok_bind]
          by_cases found : visited.hasMatch = true
          · rw [if_pos found]
            exact ⟨visited, 1, rfl, visited_located, same, fun _ => by simpa using shorter,
              by simp; omega⟩
          · rw [if_neg found]
            rw [Bool.not_eq_true] at found
            obtain ⟨following, more, ran, following_located, following_remaining, -, bound⟩ :=
              induction visited_located found
            simp only [ran, ok_bind]
            exact ⟨following, more + 1, rfl, following_located, following_remaining.trans same,
              fun _ => by simp; omega, by simp; omega⟩

/-- A step keeps what remains to be delivered and, given budget, moves down the chain. -/
theorem step_ok {query : BitString} (budget : Nat) {cursor : QueryCursor P}
    (located : cursor.Located query) (nothing : cursor.hasMatch = false) :
    ∃ following visited, cursor.step budget = .ok (following, visited) ∧
      following.Located query ∧ following.remaining query = cursor.remaining query ∧
      (0 < budget → following.current.length ≤ cursor.current.length - 1) ∧
      following.current.length ≤ cursor.current.length := by
  rw [step, nothing, if_neg (by simp)]
  exact visitAll_ok located nothing

/-- Taking delivers the pending matches, the native one first. -/
theorem takeAll_ok (cursor : QueryCursor P) :
    takeAll 2 cursor = .ok ({ cursor with native := none, side := none },
      cursor.native.toList ++ cursor.side.toList) := by
  obtain ⟨current, context, group, native, side⟩ := cursor
  cases native <;> cases side <;> rfl

/-- Every run delivers a prefix of the matches and as many positive budgets as nodes suffice. -/
theorem drain_ok (query : BitString) (budgets : List Nat) (cursor : QueryCursor P)
    (located : cursor.Located query) (nothing : cursor.hasMatch = false) :
    ∃ following found, drain budgets cursor = .ok (following, found) ∧
      following.hasMatch = false ∧
      found ++ following.current.allMatches query = cursor.current.allMatches query ∧
      following.current.length ≤ cursor.current.length - budgets.countP (0 < ·) := by
  induction budgets generalizing cursor with
  | nil => exact ⟨cursor, [], rfl, nothing, rfl, by simp⟩
  | cons budget budgets induction =>
      obtain ⟨stepped, visited, step, stepped_located, same, progress, bound⟩ :=
        step_ok budget located nothing
      have taken := takeAll_ok stepped
      have emptied : Located query { stepped with native := none, side := none } :=
        stepped_located
      obtain ⟨following, rest, ran, none_left, delivered, shorter⟩ :=
        induction _ emptied rfl
      simp only [drain, step, ok_bind, taken, ran]
      refine ⟨following, _, rfl, none_left, ?_, ?_⟩
      · rw [List.append_assoc, delivered]
        rw [hasMatch, Bool.or_eq_false_iff] at nothing
        have no_native : cursor.native = none := by simpa using nothing.1
        have no_side : cursor.side = none := by simpa using nothing.2
        rw [remaining, remaining, no_native, no_side] at same
        simpa using same
      · rw [List.countP_cons]
        dsimp only at shorter
        split
        · rename_i positive
          have := progress (by simpa using positive)
          omega
        · omega

end QueryCursor

/-- A node borrows one occurrence for every group of either target. -/
theorem MainPointer.Indexes.borrowed_counts {index : ColaIndex P} {main : MainPointer P}
    {target occurrences : Occurrences} (main_indexed : main.Indexes target)
    (indexes : index.Indexes (target.map Prod.snd) occurrences) :
    (index.borrowed .main).length = MainPointer.groupCount P main ∧
      (index.borrowed .secondary).length = secondaryCount P index.secondary := by
  rw [indexes.borrowed_length, indexes.borrowed_length]
  refine ⟨?_, ?_⟩
  · rw [indexes.keysOf_eq]
    simp only [ColaTarget.origin, ColaIndex.sources, length_sample P.groupSize_pos,
      List.length_map]
    cases main with
    | nil =>
        rw [show target = [] from main_indexed]
        simp [MainPointer.groupCount]
    | cons below rest =>
        obtain ⟨deeper, -, below_indexes⟩ := main_indexed
        rw [MainPointer.groupCount, below_indexes.groupCount_eq]
  · rw [indexes.keysOf_eq]
    simp only [ColaTarget.origin, ColaIndex.sources, length_sample P.groupSize_pos]
    cases index.secondary <;> simp [secondaryCount]

/-- A built chain with a bounded head group is accepted as a query root and routes any query. -/
theorem MainPointer.Built.open_ok {node : Shared (ColaIndex P)} {main : MainPointer P}
    (built : MainPointer.Built (node :: main))
    (bounded : node.value.virtualSize ≤ P.groupSize) {query : BitString}
    (aligned : P.Aligned query) :
    adoptPrepared (node :: main) = .ok (node :: main) ∧
      ∃ context, QueryContext.fromOwned P query = .ok context ∧
        (node.value.virtualSize ≠ 0 → Enters node main query 0 context) ∧
        (node.value.virtualSize = 0 → MainPointer.allMatches query (node :: main) = []) := by
  obtain ⟨occurrences, chain⟩ := built.indexes
  have samples : ∀ (chain : MainPointer P) occurrences, chain.Indexes occurrences →
      chain.samplesTargets = .ok () := by
    intro chain
    induction chain with
    | nil => exact fun _ _ => rfl
    | cons node main induction =>
        rintro occurrences ⟨target, main_indexed, indexes⟩
        have counts := main_indexed.borrowed_counts indexes
        simp only [MainPointer.samplesTargets, indexes.view_ok, ok_bind, require_true counts]
        exact induction target main_indexed
  have accepted := samples (node :: main) occurrences chain
  obtain ⟨target, main_indexed, indexes⟩ := chain
  have shape : node :: main ≠ [] ∧ MainPointer.virtualSize (node :: main) ≤ P.groupSize :=
    ⟨by simp, bounded⟩
  refine ⟨by simp only [adoptPrepared, require_true shape, accepted, ok_bind], ?_⟩
  obtain ⟨context, opened, compares⟩ := QueryContext.fromOwned_compares aligned
  have size : node.value.virtualSize = occurrences.length := indexes.count
  refine ⟨context, opened, fun nonempty => ?_, fun empty => ?_⟩
  · refine ⟨target, occurrences, [], main_indexed, indexes, ?_, compares⟩
    rw [Nat.zero_mul]
    refine ⟨by omega, by simp [StoragePolicy.Aligned], by simp, by simp, by simp, ?_, by simp⟩
    intro x member
    rw [List.drop_eq_nil_of_le (by omega)] at member
    cases member
  · rw [size, List.length_eq_zero_iff] at empty
    subst empty
    exact MainPointer.allMatches_eq_nil ⟨target, main_indexed, indexes⟩ (by simp)

/-- Draining a lookup yields every match of the chain once, in chain order, and never fails. -/
theorem lookup_matches {node : Shared (ColaIndex P)} {main : MainPointer P}
    (built : MainPointer.Built (node :: main))
    (bounded : node.value.virtualSize ≤ P.groupSize) {query : BitString}
    (aligned : P.Aligned query) :
    ∃ root cursor, adoptPrepared (node :: main) = .ok root ∧
      QueryCursor.start root query = .ok cursor ∧
      ∀ budgets : List Nat, ∃ following found,
        cursor.drain budgets = .ok (following, found) ∧
        found <+: MainPointer.allMatches query (node :: main) ∧
        (following.done = true → found = MainPointer.allMatches query (node :: main)) ∧
        (main.length < budgets.countP (0 < ·) → following.done = true) := by
  obtain ⟨accepted, context, opened, enters, empty⟩ := built.open_ok bounded aligned
  have size : MainPointer.virtualSize (node :: main) = node.value.virtualSize := rfl
  have started : QueryCursor.start (node :: main) query =
      .ok ⟨if node.value.virtualSize = 0 then [] else node :: main, context, 0, none, none⟩ := by
    simp only [QueryCursor.start, opened, ok_bind, size]
    rw [require_true (by simp), ok_bind]
  refine ⟨node :: main, _, accepted, started, fun budgets => ?_⟩
  by_cases none_stored : node.value.virtualSize = 0
  · rw [if_pos none_stored, empty none_stored]
    obtain ⟨following, found, ran, none_left, delivered, shorter⟩ :=
      QueryCursor.drain_ok (P := P) query budgets ⟨[], context, 0, none, none⟩ trivial rfl
    have at_end : following.current = [] := List.length_eq_zero_iff.mp (by simpa using shorter)
    have nothing : found = [] := by
      rw [at_end] at delivered
      simpa [MainPointer.allMatches] using delivered
    subst nothing
    exact ⟨following, [], ran, List.nil_prefix, fun _ => rfl,
      fun _ => by simp [QueryCursor.done, at_end, none_left]⟩
  · rw [if_neg none_stored]
    obtain ⟨following, found, ran, none_left, delivered, shorter⟩ :=
      QueryCursor.drain_ok query budgets ⟨node :: main, context, 0, none, none⟩ (enters none_stored) rfl
    refine ⟨following, found, ran, ⟨_, delivered⟩, fun done => ?_, fun enough => ?_⟩
    · rw [QueryCursor.done, Bool.and_eq_true, List.isEmpty_iff] at done
      rw [done.1] at delivered
      simpa [MainPointer.allMatches] using delivered
    · dsimp only at shorter
      rw [List.length_cons] at shorter
      have at_end : following.current = [] := List.length_eq_zero_iff.mp (by omega)
      simp [QueryCursor.done, at_end, none_left]

/-- A drained lookup has reported exactly the records of the chain with the queried key, each once,
in chain order and native before secondary; no step fails and enough steps drain it. -/
theorem lookup_exact {node : Shared (ColaIndex P)} {main : MainPointer P}
    (built : MainPointer.Built (node :: main))
    (bounded : node.value.virtualSize ≤ P.groupSize) {query : BitString}
    (aligned : P.Aligned query) :
    ∃ root cursor, adoptPrepared (node :: main) = .ok root ∧
      QueryCursor.start root query = .ok cursor ∧
      ∀ budgets : List Nat, ∃ following found,
        cursor.drain budgets = .ok (following, found) ∧
        found.Pairwise QueryMatch.Precedes ∧
        (∀ hit ∈ found, hit.Records (node :: main) query) ∧
        (following.done = true → ∀ hit : QueryMatch P,
          hit ∈ found ↔ hit.Records (node :: main) query) ∧
        (main.length < budgets.countP (0 < ·) → following.done = true) := by
  obtain ⟨root, cursor, accepted, started, drains⟩ := lookup_matches built bounded aligned
  refine ⟨root, cursor, accepted, started, fun budgets => ?_⟩
  obtain ⟨following, found, ran, initial, complete, enough⟩ := drains budgets
  refine ⟨following, found, ran, ?_, ?_, ?_, enough⟩
  · exact (MainPointer.allMatches_ordered query _).sublist initial.sublist
  · exact fun hit member => MainPointer.mem_allMatches.mp (initial.subset member)
  · intro done hit
    rw [complete done, MainPointer.mem_allMatches]

/-- Three records with the queried key, in two nodes and a secondary array. -/
theorem lookup_exact_shared_key :
    let leaf : Shared (NativeArray .bytes3) := ⟨0, .singleton (List.replicate 8 true) [] (by decide)⟩
    ∃ below head : ColaIndex .bytes3, adoptNative leaf [] none = .ok below ∧
      adoptNative leaf [⟨1, below⟩] (some leaf) = .ok head ∧
      (MainPointer.allMatches (List.replicate 8 true) [⟨2, head⟩, ⟨1, below⟩]).length = 3 ∧
      ∃ root cursor, adoptPrepared [⟨2, head⟩, ⟨1, below⟩] = .ok root ∧
        QueryCursor.start root (List.replicate 8 true) = .ok cursor ∧
        ∀ budgets : List Nat, ∃ following found,
          cursor.drain budgets = .ok (following, found) ∧
          found.Pairwise QueryMatch.Precedes ∧
          (∀ hit ∈ found, hit.Records [⟨2, head⟩, ⟨1, below⟩] (List.replicate 8 true)) ∧
          (following.done = true → ∀ hit : QueryMatch .bytes3,
            hit ∈ found ↔ hit.Records [⟨2, head⟩, ⟨1, below⟩] (List.replicate 8 true)) ∧
          (1 < budgets.countP (0 < ·) → following.done = true) := by
  intro leaf
  have held : leaf.value.find? (List.replicate 8 true) = some (0, []) := by decide
  obtain ⟨below, below_ok, below_built, below_native, below_secondary, below_count⟩ :=
    MainPointer.Built.null.adoptNative_ok 1 leaf none (by decide)
  have groups : MainPointer.groupCount .bytes3 [⟨1, below⟩] = 1 := by
    rw [MainPointer.groupCount, ColaIndex.groupCount, below_count]
    decide
  obtain ⟨head, head_ok, head_built, head_native, head_secondary, head_count⟩ :=
    below_built.adoptNative_ok 2 leaf (some leaf) (by rw [groups]; decide)
  have bounded : head.count ≤ 3 := by
    rw [head_count, groups]
    decide
  refine ⟨below, head, below_ok, head_ok, ?_, lookup_exact head_built bounded (by decide)⟩
  simp only [MainPointer.allMatches, head_native, head_secondary, below_native, below_secondary,
    Option.bind_some, Option.bind_none, held]
  rfl

end Everett

import Everett.Cola.Occurrences

/-!
# Searching one group of an index

Searching the group to which a query was routed finds its native match and the last borrow at most
the query on either route, although it looks at one group only.
-/

namespace Everett

open Word Outcome Occurrences

variable {P : StoragePolicy}


/-- The record at an ordinal has this key and this value. -/
def ProfileArray.Holds {related : BitString → BitString → Prop} (array : ProfileArray P related)
    (ordinal : Nat) (key value : BitString) : Prop :=
  ∃ entry, array.entries[ordinal]? = some entry ∧ entry.key = key ∧ entry.value = value

theorem ProfileArray.Holds.unique {array : NativeArray P} {i j : Nat} {key v w : BitString}
    (first : array.Holds i key v) (second : array.Holds j key w) : i = j ∧ v = w := by
  obtain ⟨a, at_i, a_key, rfl⟩ := first
  obtain ⟨b, at_j, b_key, rfl⟩ := second
  have sorted := array.sorted
  rw [List.pairwise_map, List.pairwise_iff_getElem] at sorted
  obtain ⟨i_lt, rfl⟩ := List.getElem?_eq_some_iff.mp at_i
  obtain ⟨j_lt, rfl⟩ := List.getElem?_eq_some_iff.mp at_j
  rcases lt_trichotomy i j with less | rfl | greater
  · exact absurd (a_key.trans b_key.symm) (sorted i j i_lt j_lt less).ne
  · exact ⟨rfl, rfl⟩
  · exact absurd (b_key.trans a_key.symm) (sorted j i j_lt i_lt greater).ne

theorem ProfileArray.mem_keys_iff {related : BitString → BitString → Prop}
    {array : ProfileArray P related} {key : BitString} :
    key ∈ array.keys ↔ ∃ ordinal value, array.Holds ordinal key value := by
  constructor
  · intro member
    obtain ⟨entry, inside, rfl⟩ := List.mem_map.mp member
    obtain ⟨ordinal, present⟩ := List.mem_iff_getElem?.mp inside
    exact ⟨ordinal, entry.value, entry, present, rfl, rfl⟩
  · rintro ⟨ordinal, value, entry, present, rfl, -⟩
    exact List.mem_map_of_mem (List.mem_of_getElem? present)

theorem getElem?_of_window {α : Type} {list seen rest : List α} {first width : Nat} {a : α}
    (window : (list.drop first).take width = seen ++ a :: rest) :
    list[first + seen.length]? = some a := by
  have inside : seen.length < width := by
    have size := congrArg List.length window
    simp only [List.length_take, List.length_append, List.length_cons] at size
    omega
  rw [← List.getElem?_drop, ← List.getElem?_take_of_lt inside, window]
  simp

/-- A query was routed to the group at a position, below the next group, by a key at most its own. -/
structure Occurrences.Routed (P : StoragePolicy) (occurrences : Occurrences) (position : Nat)
    (anchor query : BitString) : Prop where
  inside : position < occurrences.length
  aligned : P.Aligned anchor
  lower : anchor ≤ query
  first : ∀ x ∈ occurrences.drop position, anchor ≤ x.2
  earlier : ∀ x ∈ occurrences.take position, x.2 ≤ anchor
  later : ∀ x ∈ occurrences.drop (position + P.groupSize), query < x.2
  at_anchor : position ≠ 0 → occurrences[position]?.map Prod.snd = some anchor

namespace Occurrences.Routed

variable {occurrences : Occurrences} {position : Nat} {anchor query : BitString}

/-- The anchor lies between the neighbouring keys of each stream at the start of the group. -/
theorem between (routed : occurrences.Routed P position anchor query) {origin : ColaOrigin}
    {related : BitString → BitString → Prop} {array : ProfileArray P related}
    (keys : array.keys = keysOf occurrences origin) :
    ∀ entry, array.entries[before occurrences origin position]? = some entry →
      (∀ earlier ∈ array.entries.take (before occurrences origin position),
        earlier.key ≤ anchor) ∧ anchor ≤ entry.key := by
  intro entry present
  constructor
  · intro earlier member
    have inside : earlier.key ∈ keysOf (occurrences.take position) origin := by
      rw [← take_before, ← keys, ProfileArray.keys, ← List.map_take]
      exact List.mem_map_of_mem member
    exact routed.earlier _ ((mem_keysOf _ _).mp inside)
  · have head : (keysOf occurrences origin)[before occurrences origin position]? =
        some entry.key := by
      rw [← keys, ProfileArray.keys, List.getElem?_map, present, Option.map_some]
    exact routed.first _ (mem_drop_of_getElem? _ _ head)

/-- Keys of a stream past the group exceed the query. -/
theorem beyond (routed : occurrences.Routed P position anchor query) {origin : ColaOrigin}
    {key : BitString} (present :
      (keysOf occurrences origin)[before occurrences origin (position + P.groupSize)]? = some key) :
    query < key :=
  routed.later _ (mem_drop_of_getElem? _ _ present)

/-- A native key equal to the query and outside the group is the last one before it. -/
theorem native_before (routed : occurrences.Routed P position anchor query)
    {array : NativeArray P} (keys : array.keys = keysOf occurrences .native)
    (member : query ∈ array.keys)
    (outside : query ∉ keysOf ((occurrences.drop position).take P.groupSize) .native) :
    anchor = query ∧ before occurrences .native position ≠ 0 ∧
      ∃ value, array.Holds (before occurrences .native position - 1) query value := by
  have split := keysOf_split occurrences .native position
  have rest := keysOf_split (occurrences.drop position) .native P.groupSize
  rw [keys, split, rest, List.drop_drop] at member
  have early : query ∈ keysOf (occurrences.take position) .native := by
    rcases List.mem_append.mp member with early | late
    · exact early
    · rcases List.mem_append.mp late with within | past
      · exact absurd within outside
      · exact absurd (routed.later _ ((mem_keysOf _ _).mp past)) (lt_irrefl _)
  have equal : anchor = query :=
    routed.lower.antisymm (routed.earlier _ ((mem_keysOf _ _).mp early))
  subst equal
  obtain ⟨index, present⟩ := List.mem_iff_getElem?.mp early
  obtain ⟨index_lt, at_index⟩ := List.getElem?_eq_some_iff.mp present
  have native_sorted : (keysOf (occurrences.take position) .native).Pairwise (· < ·) := by
    rw [← take_before, ← keys]
    exact array.sorted.sublist (List.take_sublist _ _)
  have last : index = before occurrences .native position - 1 := by
    by_contra different
    have next : index < before occurrences .native position - 1 := by
      have : index < before occurrences .native position := index_lt
      omega
    have last_lt : before occurrences .native position - 1 <
        (keysOf (occurrences.take position) .native).length := by
      unfold before at next ⊢
      omega
    have increasing := List.pairwise_iff_getElem.mp native_sorted index _ index_lt last_lt next
    rw [at_index] at increasing
    have below := routed.earlier _ ((mem_keysOf _ _).mp (List.getElem_mem last_lt))
    exact absurd increasing (not_lt.mpr below)
  refine ⟨rfl, ?_, ?_⟩
  · unfold before
    omega
  · rw [← last]
    have at_array : array.keys[index]? = some anchor := by
      rw [keys, split, List.getElem?_append_left index_lt, present]
    rw [ProfileArray.keys, List.getElem?_map] at at_array
    obtain ⟨entry, at_entry, key⟩ := Option.map_eq_some_iff.mp at_array
    exact ⟨entry.value, entry, at_entry, key, rfl⟩

end Occurrences.Routed

/-- A window of a native array matches exactly the query. -/
theorem matchWindow {α : Type} (capture : Nat → BitString → α) (array : NativeArray P)
    {query anchor : BitString} (first last : Nat) {context : QueryContext}
    (ordered : first ≤ last) (within : last ≤ array.size) (width : last - first ≤ P.groupSize)
    (compares : context.Compares P query anchor)
    (between : ∀ entry, array.entries[first]? = some entry →
      (∀ earlier ∈ array.entries.take first, earlier.key ≤ anchor) ∧ anchor ≤ entry.key) :
    ∃ found, compareWindow P array.frames first last context
        (fun (found : Option α) item =>
          .ok (if item.comparison.order = .eq then some (capture item.ordinal item.value)
            else found, item.comparison.order = .lt)) none = .ok found ∧
      (∀ captured, found = some captured →
        ∃ ordinal value, array.Holds ordinal query value ∧ captured = capture ordinal value) ∧
      (found = none → query ∉ (array.keys.drop first).take (last - first)) := by
  have keys_window : (array.keys.drop first).take (last - first) =
      ((array.entries.drop first).take (last - first)).map Entry.key := by
    rw [ProfileArray.keys, List.map_take, List.map_drop]
  have sorted : ((array.entries.drop first).take (last - first)).Pairwise
      fun a b => a.key < b.key :=
    (List.pairwise_map.mp array.sorted).sublist
      ((List.take_sublist _ _).trans (List.drop_sublist _ _))
  rw [keys_window]
  refine compareWindow_ensures query
    (fun remaining ordinal found => found = none ∧ ∃ seen,
      (array.entries.drop first).take (last - first) = seen ++ remaining ∧
        ordinal = first + seen.length ∧ ∀ entry ∈ seen, entry.key ≠ query) _ ?_ ?_ ordered within
    width ⟨rfl, [], rfl, rfl, by simp⟩ compares between
  · rintro entry rest ordinal context found ⟨rfl, seen, window, rfl, unmatched⟩ at_entry
    refine ⟨_, _, rfl, fun continues => ⟨?_, seen ++ [entry], by simp [window], by simp; omega, ?_⟩,
      fun stops => ⟨?_, ?_⟩⟩
    · have less : context.order = .lt := of_decide_eq_true continues
      rw [if_neg (by simp [less])]
    · have less : entry.key < query := by
        rw [← order_eq_lt, ← at_entry.same_query, ← at_entry.order]
        exact of_decide_eq_true continues
      intro other member
      rcases List.mem_append.mp member with earlier | new
      · exact unmatched other earlier
      · rw [List.mem_singleton.mp new]
        exact less.ne
    · intro captured taken
      split at taken
      · cases taken
        rename_i equal
        rw [at_entry.order, at_entry.same_query, order_eq_eq] at equal
        exact ⟨_, _, ⟨entry, getElem?_of_window window, equal, rfl⟩, rfl⟩
      · cases taken
    · intro absent member
      split at absent
      · cases absent
      · rename_i unequal
        have greater : query < entry.key := by
          rw [← order_eq_gt, ← at_entry.same_query, ← at_entry.order]
          cases order : context.order with
          | lt => simp [order] at stops
          | eq => exact absurd order unequal
          | gt => rfl
        rw [window] at member sorted
        obtain ⟨other, inside, same⟩ := List.mem_map.mp member
        rcases List.mem_append.mp inside with earlier | later
        · exact unmatched other earlier same
        · rcases List.mem_cons.mp later with rfl | beyond
          · exact greater.ne same.symm
          · have after := (List.pairwise_cons.mp (List.pairwise_append.mp sorted).2.1).1 other
              beyond
            exact (greater.trans after).ne same.symm
  · rintro ordinal found ⟨rfl, seen, window, -, unmatched⟩
    refine ⟨by simp, fun _ member => ?_⟩
    obtain ⟨other, inside, same⟩ := List.mem_map.mp member
    rw [window, List.append_nil] at inside
    exact unmatched other inside same

namespace ColaIndex

/-- What was captured, if anything, is the native match of the query. -/
def Captures {α : Type} (capture : Nat → BitString → α) (index : ColaIndex P)
    (query : BitString) (native : Option α) : Prop :=
  ∀ captured, native = some captured → ∃ ordinal value,
    index.native.value.Holds ordinal query value ∧ captured = capture ordinal value

/-- A predecessor is a borrow at most the query and compares itself with the query. -/
structure RoutesTo (occurrences : Occurrences) (query : BitString) (route : ColaTarget)
    (predecessor : BorrowedPredecessor) (key : BitString) : Prop where
  present : (keysOf occurrences route.origin)[predecessor.ordinal]? = some key
  lower : key ≤ query
  compares : predecessor.comparison.Compares P query key
  target : predecessor.targetOrdinal = predecessor.ordinal * P.groupSize

section Route

variable {α : Type} {capture : Nat → BitString → α} {index : ColaIndex P}
variable {mainKeys : List BitString} {occurrences : Occurrences} {group : Nat}
variable {anchor query : BitString} {route : ColaTarget}

/-- Remembering a borrow keeps the native match exact and finds it behind an equal borrow. -/
theorem remember_ok (indexes : index.Indexes mainKeys occurrences)
    (routed : occurrences.Routed P (group * P.groupSize) anchor query)
    {result : WindowResult α} {ordinal : Nat} {comparison : QueryContext} {key : BitString}
    (captures : Captures capture index query result.native)
    (outside : result.native = none →
      query ∉ keysOf ((occurrences.drop (group * P.groupSize)).take P.groupSize) .native)
    (present : (keysOf occurrences route.origin)[ordinal]? = some key) (lower : key ≤ query)
    (compares : comparison.Compares P query key) :
    ∃ found predecessor, index.remember capture
        (before occurrences .native (group * P.groupSize)) route result ordinal comparison =
          .ok found ∧
      found.predecessors = Function.update result.predecessors route (some predecessor) ∧
      predecessor.ordinal = ordinal ∧
      RoutesTo (P := P) occurrences query route predecessor key ∧
      Captures capture index query found.native ∧
      (result.native ≠ none → found.native ≠ none) ∧
      (key = query → query ∈ index.native.value.keys → found.native ≠ none) := by
  have flag : index.falseBorrow route ordinal =
      .ok (decide (key ∈ index.native.value.keys)) := by
    rw [falseBorrow, indexes.flags, List.getElem?_map, present]
    rfl
  have order := compares.order
  rw [compares.same_query] at order
  simp only [remember, flag, indexes.target_lt present, ok_bind]
  by_cases behind : comparison.order = .eq ∧ decide (key ∈ index.native.value.keys) = true ∧
      result.native.isNone = true
  · have equal : key = query := by rw [← order_eq_eq, ← order, behind.1]
    have member : query ∈ index.native.value.keys := equal ▸ of_decide_eq_true behind.2.1
    have empty : result.native = none := Option.isNone_iff_eq_none.mp behind.2.2
    obtain ⟨-, nonzero, value, entry, at_entry, entry_key, entry_value⟩ :=
      routed.native_before indexes.native_keys member (outside empty)
    have encoded : encodedAt index.native.value.frames
        (before occurrences .native (group * P.groupSize) - 1) = .ok (entry.frame P) := by
      rw [encodedAt, ProfileArray.frames, List.getElem?_map, at_entry]
      rfl
    rw [if_pos behind, require_true nonzero, ok_bind, encoded, ok_bind]
    refine ⟨_, _, rfl, rfl, rfl, ⟨present, lower, compares, rfl⟩, ?_, by simp, by simp⟩
    intro captured taken
    cases taken
    exact ⟨_, _, ⟨entry, at_entry, entry_key, rfl⟩, rfl⟩
  · rw [if_neg behind]
    refine ⟨_, _, rfl, rfl, rfl, ⟨present, lower, compares, rfl⟩, captures, id, ?_⟩
    intro equal member absent
    refine behind ⟨?_, ?_, Option.isNone_iff_eq_none.mpr absent⟩
    · rw [order, equal, order_self]
    · rw [equal]
      exact decide_eq_true member

/-- The state of a route search after the borrows `seen` of its window. -/
structure Scanned (capture : Nat → BitString → α) (index : ColaIndex P)
    (occurrences : Occurrences) (query : BitString) (route : ColaTarget) (first : Nat)
    (initial : WindowResult α) (seen : List Entry) (state : WindowResult α) : Prop where
  lower : ∀ entry ∈ seen, entry.key ≤ query
  others : ∀ other, other ≠ route → state.predecessors other = initial.predecessors other
  captures : Captures capture index query state.native
  kept : initial.native ≠ none → state.native ≠ none
  equal : ∀ entry ∈ seen, entry.key = query → query ∈ index.native.value.keys →
    state.native ≠ none
  none_seen : seen = [] → state.predecessors route = none
  last_seen : seen ≠ [] → ∃ predecessor key, state.predecessors route = some predecessor ∧
    predecessor.ordinal + 1 = first + seen.length ∧
      RoutesTo (P := P) occurrences query route predecessor key

/-- The window of a route is scanned up to the first borrow beyond the query. -/
theorem scanRoute_ok (indexes : index.Indexes mainKeys occurrences)
    (routed : occurrences.Routed P (group * P.groupSize) anchor query)
    {array : BorrowedArray P} (keys : array.keys = keysOf occurrences route.origin)
    {initial : WindowResult α} {lower : QueryContext} {first last : Nat}
    (first_eq : first = before occurrences route.origin (group * P.groupSize))
    (last_eq : last = before occurrences route.origin (group * P.groupSize + P.groupSize))
    (captures : Captures capture index query initial.native)
    (outside : initial.native = none →
      query ∉ keysOf ((occurrences.drop (group * P.groupSize)).take P.groupSize) .native)
    (fresh : initial.predecessors route = none) (compares : lower.Compares P query anchor) :
    ∃ state, compareWindow P array.frames first last lower
        (fun (result : WindowResult α) item =>
          if item.comparison.order = .gt then .ok (result, false)
          else do
            let result ← index.remember capture
              (before occurrences .native (group * P.groupSize)) route result item.ordinal
              item.comparison
            .ok (result, true)) initial = .ok state ∧
      ∃ seen rest, (array.entries.drop first).take (last - first) = seen ++ rest ∧
        Scanned capture index occurrences query route first initial seen state ∧
        ∀ entry ∈ rest, query < entry.key := by
  have added := before_add occurrences route.origin (group * P.groupSize) P.groupSize
  have width := length_keysOf_le
    ((occurrences.drop (group * P.groupSize)).take P.groupSize) route.origin
  rw [List.length_take] at width
  have size : array.size = (keysOf occurrences route.origin).length := by
    rw [← keys, ProfileArray.length_keys]
  have within := before_le occurrences route.origin (group * P.groupSize + P.groupSize)
  refine compareWindow_ensures query
    (fun remaining ordinal state => ∃ seen,
      (array.entries.drop first).take (last - first) = seen ++ remaining ∧
        ordinal = first + seen.length ∧
          Scanned capture index occurrences query route first initial seen state) _ ?_ ?_
    (by omega) (by omega) (by omega)
    ⟨[], rfl, rfl, by simp, by simp, captures, id, by simp, fun _ => fresh, by simp⟩ compares
    (by rw [first_eq]; exact routed.between keys)
  · rintro entry rest ordinal context state ⟨seen, window, rfl, scanned⟩ at_entry
    have order := at_entry.order
    rw [at_entry.same_query] at order
    have at_ordinal := getElem?_of_window window
    by_cases greater : context.order = .gt
    · refine ⟨state, false, if_pos greater, by simp, fun _ => ⟨seen, entry :: rest, window,
        scanned, ?_⟩⟩
      have above : query < entry.key := by rw [← order_eq_gt, ← order, greater]
      intro other member
      rcases List.mem_cons.mp member with rfl | later
      · exact above
      · have sorted : ((array.entries.drop first).take (last - first)).Pairwise
            fun a b => a.key ≤ b.key :=
          (List.pairwise_map.mp array.sorted).sublist
            ((List.take_sublist _ _).trans (List.drop_sublist _ _))
        rw [window] at sorted
        exact above.trans_le
          ((List.pairwise_cons.mp (List.pairwise_append.mp sorted).2.1).1 other later)
    · have at_key : (keysOf occurrences route.origin)[first + seen.length]? = some entry.key := by
        rw [← keys, ProfileArray.keys, List.getElem?_map, at_ordinal, Option.map_some]
      have entry_lower : entry.key ≤ query := order_ne_gt.mp (order ▸ greater)
      obtain ⟨found, predecessor, remembered, predecessors, ordinal_eq, routes, found_captures,
        found_kept, found_equal⟩ := remember_ok indexes routed scanned.captures
          (fun absent => outside (by
            by_contra present
            exact scanned.kept present absent)) at_key entry_lower at_entry
      refine ⟨found, true, ?_, fun _ => ⟨seen ++ [entry], by simp [window], by simp; omega, ?_⟩,
        by simp⟩
      · rw [if_neg greater, remembered, ok_bind]
      · refine ⟨?_, ?_, found_captures, fun present => found_kept (scanned.kept present), ?_,
          by simp, fun _ => ⟨predecessor, entry.key, ?_, ?_, routes⟩⟩
        · intro other member
          rcases List.mem_append.mp member with earlier | new
          · exact scanned.lower other earlier
          · rw [List.mem_singleton.mp new]
            exact entry_lower
        · intro other different
          rw [predecessors, Function.update_of_ne different, scanned.others other different]
        · intro other member equal native_member
          rcases List.mem_append.mp member with earlier | new
          · exact found_kept (scanned.equal other earlier equal native_member)
          · rw [List.mem_singleton.mp new] at equal
            exact found_equal equal native_member
        · rw [predecessors, Function.update_self]
        · rw [ordinal_eq, List.length_append, List.length_singleton]
          omega
  · rintro ordinal state ⟨seen, window, rfl, scanned⟩
    exact ⟨seen, [], window, scanned, by simp⟩

/-- What a search along one route reports. -/
structure RouteFound (capture : Nat → BitString → α) (index : ColaIndex P)
    (occurrences : Occurrences) (query : BitString) (route : ColaTarget)
    (initial found : WindowResult α) : Prop where
  others : ∀ other, other ≠ route → found.predecessors other = initial.predecessors other
  captures : Captures capture index query found.native
  kept : initial.native ≠ none → found.native ≠ none
  absent : found.predecessors route = none →
    ∀ key ∈ keysOf occurrences route.origin, query < key
  present : ∀ predecessor, found.predecessors route = some predecessor →
    (∃ key, RoutesTo (P := P) occurrences query route predecessor key) ∧
      ∀ key, (keysOf occurrences route.origin)[predecessor.ordinal + 1]? = some key → query < key

/-- A search along one route finds the last borrow at most the query, wherever it lies. -/
theorem searchRoute_ok (capture : Nat → BitString → α) (route : ColaTarget)
    (initial : WindowResult α) (indexes : index.Indexes mainKeys occurrences)
    (routed : occurrences.Routed P (group * P.groupSize) anchor query) {lower : QueryContext} {window : ColaWindow}
    (native_first : window.nativeFirst = before occurrences .native (group * P.groupSize))
    (first_eq : window.borrowedFirst route =
      before occurrences route.origin (group * P.groupSize))
    (last_eq : window.borrowedLast route =
      before occurrences route.origin (group * P.groupSize + P.groupSize))
    (captures : Captures capture index query initial.native)
    (outside : initial.native = none →
      query ∉ keysOf ((occurrences.drop (group * P.groupSize)).take P.groupSize) .native)
    (fresh : initial.predecessors route = none) (compares : lower.Compares P query anchor) :
    ∃ found, index.searchRoute capture group window lower initial route = .ok found ∧
      RouteFound capture index occurrences query route initial found ∧
      (query ∈ keysOf ((occurrences.drop (group * P.groupSize)).take P.groupSize) route.origin →
        query ∈ index.native.value.keys → found.native ≠ none) := by
  obtain ⟨array, frames, keys⟩ := indexes.borrowed route
  obtain ⟨state, scan, seen, rest, split, scanned, above⟩ :=
    scanRoute_ok indexes routed keys first_eq last_eq captures outside fresh compares
  have window_keys : keysOf ((occurrences.drop (group * P.groupSize)).take P.groupSize)
      route.origin = (seen ++ rest).map Entry.key := by
    rw [← window_keysOf, ← keys, ← split, first_eq, last_eq, ProfileArray.keys, List.map_take,
      List.map_drop]
  have in_window : query ∈
      keysOf ((occurrences.drop (group * P.groupSize)).take P.groupSize) route.origin →
        query ∈ index.native.value.keys → state.native ≠ none := by
    intro member native_member
    rw [window_keys] at member
    obtain ⟨entry, inside, same⟩ := List.mem_map.mp member
    rcases List.mem_append.mp inside with earlier | later
    · exact scanned.equal entry earlier same native_member
    · exact absurd same.symm (above entry later).ne
  have size : array.size = (keysOf occurrences route.origin).length := by
    rw [← keys, ProfileArray.length_keys]
  -- The borrow after the scanned ones lies beyond the query, in the window or past it.
  have next_above : ∀ key,
      (keysOf occurrences route.origin)[window.borrowedFirst route + seen.length]? = some key →
        query < key := by
    intro key present
    cases rest with
    | nil =>
        have count := congrArg List.length split
        have within := before_le occurrences route.origin (group * P.groupSize + P.groupSize)
        have added := before_add occurrences route.origin (group * P.groupSize) P.groupSize
        rw [List.append_nil, List.length_take, List.length_drop] at count
        have size_eq : array.entries.length = array.size := rfl
        have last : window.borrowedFirst route + seen.length =
            before occurrences route.origin (group * P.groupSize + P.groupSize) := by
          omega
        rw [last] at present
        exact routed.beyond present
    | cons entry rest =>
        have at_entry := getElem?_of_window split
        rw [← keys, ProfileArray.keys, List.getElem?_map, at_entry] at present
        cases present
        exact above entry List.mem_cons_self
  unfold searchRoute
  rw [frames, native_first, scan, ok_bind]
  cases seen with
  | cons entry seen =>
      obtain ⟨predecessor, key, found, ordinal, routes⟩ := scanned.last_seen (by simp)
      have some_found : ¬ ((state.predecessors route).isNone = true ∧
          window.borrowedFirst route ≠ 0) := by
        simp [found]
      rw [if_neg some_found]
      refine ⟨state, rfl, ⟨scanned.others, scanned.captures, scanned.kept, by simp [found], ?_⟩,
        in_window⟩
      intro other same
      rw [found] at same
      cases same
      rw [ordinal]
      exact ⟨⟨key, routes⟩, next_above⟩
  | nil =>
      rw [List.length_nil, Nat.add_zero] at next_above
      have none_found := scanned.none_seen rfl
      by_cases start : window.borrowedFirst route = 0
      · rw [if_neg (by simp [start])]
        refine ⟨state, rfl, ⟨scanned.others, scanned.captures, scanned.kept, ?_,
          by simp [none_found]⟩, in_window⟩
        intro _ key member
        have sorted := indexes.keysOf_sorted route.origin
        cases contents : keysOf occurrences route.origin with
        | nil => simp [contents] at member
        | cons head tail =>
            rw [start, contents] at next_above
            rw [contents] at member sorted
            have head_above := next_above head rfl
            rcases List.mem_cons.mp member with rfl | later
            · exact head_above
            · exact head_above.trans_le ((List.pairwise_cons.mp sorted).1 key later)
      · rw [if_pos ⟨by simp [none_found], start⟩]
        have bound : window.borrowedFirst route ≤ (keysOf occurrences route.origin).length := by
          rw [first_eq]
          exact before_le _ _ _
        have earlier_lt : window.borrowedFirst route - 1 <
            (keysOf occurrences route.origin).length := by
          omega
        obtain ⟨earlier, at_earlier⟩ : ∃ earlier,
            (keysOf occurrences route.origin)[window.borrowedFirst route - 1]? = some earlier :=
          ⟨_, List.getElem?_eq_getElem earlier_lt⟩
        have last_earlier :
            (keysOf (occurrences.take (group * P.groupSize)) route.origin).getLast? =
              some earlier := by
          rw [← take_before, ← first_eq, getElem?_getLast start bound, at_earlier]
        have moved : group * P.groupSize ≠ 0 := by
          intro zero
          rw [zero] at last_earlier
          simp [keysOf] at last_earlier
        obtain ⟨first, at_first, first_key⟩ := Option.map_eq_some_iff.mp (routed.at_anchor moved)
        have cut : cutBefore occurrences route.origin (group * P.groupSize) =
            lcp earlier anchor := by
          rw [cutBefore, last_earlier, at_first, ← first_key]
        have group_lt : group < ceilDiv occurrences.length P.groupSize :=
          (lt_ceilDiv_iff P.groupSize_pos).mpr routed.inside
        have cut_known : (index.cuts route)[group]? = some (lcp earlier anchor) := by
          rw [indexes.cuts, List.getElem?_map, List.getElem?_range group_lt, Option.map_some, cut]
        have earlier_le : earlier ≤ anchor :=
          routed.earlier _ ((mem_keysOf _ _).mp (List.mem_of_getLast? last_earlier))
        obtain ⟨back, moved_back, back_compares⟩ :=
          QueryContext.predecessor_compares compares routed.aligned earlier_le routed.lower
        obtain ⟨found, predecessor, remembered, predecessors, ordinal_eq, routes, found_captures,
          found_kept, -⟩ := remember_ok indexes routed scanned.captures
            (fun absent => outside (by
              by_contra present
              exact scanned.kept present absent)) at_earlier (earlier_le.trans routed.lower)
            back_compares
        rw [cut_known, demand_some, ok_bind, moved_back, ok_bind, remembered]
        refine ⟨found, rfl, ⟨?_, found_captures, fun present => found_kept (scanned.kept present),
          by simp [predecessors], ?_⟩, fun member native_member =>
            found_kept (in_window member native_member)⟩
        · intro other different
          rw [predecessors, Function.update_of_ne different, scanned.others other different]
        · intro other same
          rw [predecessors, Function.update_self] at same
          cases same
          refine ⟨⟨earlier, routes⟩, ?_⟩
          rw [ordinal_eq, Nat.sub_add_cancel (Nat.pos_of_ne_zero start)]
          exact next_above

/-- Searching the group a query was routed to finds its native match and both onward routes. -/
theorem searchWindow_ok (capture : Nat → BitString → α)
    (indexes : index.Indexes mainKeys occurrences)
    (routed : occurrences.Routed P (group * P.groupSize) anchor query)
    {lower : QueryContext} (compares : lower.Compares P query anchor) :
    ∃ found, index.searchWindow capture group lower = .ok found ∧
      Captures capture index query found.native ∧
      (query ∈ index.native.value.keys → found.native ≠ none) ∧
      ∀ route, (found.predecessors route = none →
          ∀ key ∈ keysOf occurrences route.origin, query < key) ∧
        ∀ predecessor, found.predecessors route = some predecessor →
          (∃ key, RoutesTo (P := P) occurrences query route predecessor key) ∧
            ∀ key, (keysOf occurrences route.origin)[predecessor.ordinal + 1]? = some key →
              query < key := by
  have within : group < index.groupCount := by
    rw [indexes.groupCount_eq, lt_ceilDiv_iff P.groupSize_pos]
    exact routed.inside
  have accepted : lower.order ≠ .gt := by
    rw [compares.order, compares.same_query]
    exact order_ne_gt.mpr routed.lower
  obtain ⟨window, projected, native_first, native_last, borrowed_first, borrowed_last⟩ :=
    indexes.project_ok within
  have added := before_add occurrences .native (group * P.groupSize) P.groupSize
  have width := length_keysOf_le
    ((occurrences.drop (group * P.groupSize)).take P.groupSize) .native
  rw [List.length_take] at width
  have bound := before_le occurrences .native (group * P.groupSize + P.groupSize)
  rw [← indexes.native_size] at bound
  obtain ⟨native, matched, sound, unmatched⟩ := matchWindow capture index.native.value
    window.nativeFirst window.nativeLast (by omega) (by omega) (by omega) compares
    (by rw [native_first]; exact routed.between indexes.native_keys)
  have outside : native = none →
      query ∉ keysOf ((occurrences.drop (group * P.groupSize)).take P.groupSize) .native := by
    intro absent
    rw [← window_keysOf, ← indexes.native_keys, ← native_first, ← native_last]
    exact unmatched absent
  obtain ⟨first, first_search, first_found, first_equal⟩ := searchRoute_ok capture .main
    ⟨native, fun _ => none⟩ indexes routed native_first (borrowed_first .main)
    (borrowed_last .main) sound outside rfl compares
  have first_outside : first.native = none →
      query ∉ keysOf ((occurrences.drop (group * P.groupSize)).take P.groupSize) .native :=
    fun absent => outside (by
      by_contra present
      exact first_found.kept present absent)
  obtain ⟨second, second_search, second_found, second_equal⟩ :=
    searchRoute_ok capture .secondary first indexes routed native_first
      (borrowed_first .secondary) (borrowed_last .secondary) first_found.captures first_outside
      (first_found.others .secondary (by decide)) compares
  refine ⟨second, ?_, second_found.captures, ?_, ?_⟩
  · simp only [searchWindow, require_true accepted, ok_bind, projected, matched, List.foldlM_cons,
      first_search, second_search, List.foldlM_nil, pure_eq_ok]
  · intro member absent
    have no_native := first_outside (by
      by_contra present
      exact second_found.kept present absent)
    obtain ⟨rfl, nonzero, -⟩ := routed.native_before indexes.native_keys member no_native
    have moved : group * P.groupSize ≠ 0 := by
      intro zero
      rw [zero] at nonzero
      simp [before, keysOf] at nonzero
    obtain ⟨⟨origin, key⟩, at_first, rfl⟩ := Option.map_eq_some_iff.mp (routed.at_anchor moved)
    -- The group starts with an equal borrow, so the search passes it.
    have in_group : (origin, key) ∈ (occurrences.drop (group * P.groupSize)).take P.groupSize := by
      refine List.mem_of_getElem? (i := 0) ?_
      rw [List.getElem?_take_of_lt P.groupSize_pos, List.getElem?_drop, Nat.add_zero, at_first]
    cases origin with
    | native => exact no_native ((mem_keysOf _ _).mpr in_group)
    | main =>
        exact second_found.kept (first_equal ((mem_keysOf _ _).mpr in_group) member) absent
    | secondary => exact second_equal ((mem_keysOf _ _).mpr in_group) member absent
  · intro route
    cases route with
    | main =>
        rw [second_found.others .main (by decide)]
        exact ⟨first_found.absent, first_found.present⟩
    | secondary => exact ⟨second_found.absent, second_found.present⟩

end Route

end ColaIndex

end Everett

import Everett.Cola.Builder
import Everett.Native.Writer

/-!
# What a builder builds

The stable merge of the sources of a builder is fixed when the builder opens.  After `count`
occurrences the builder has written the navigation of that prefix of the merge, and its cursors
hold the rest.
-/

namespace Everett

open Word Outcome Occurrences

variable {P : StoragePolicy}

/-- The nodes of a chain navigate the augmented occurrences of their main targets. -/
def MainPointer.Indexes : MainPointer P → Occurrences → Prop
  | [], occurrences => occurrences = []
  | node :: rest, occurrences => ∃ target, MainPointer.Indexes rest target ∧
      node.value.Indexes (target.map Prod.snd) occurrences

namespace Occurrences

variable {occurrences : Occurrences} {position : Nat} {x : ColaOrigin × BitString}

theorem keysOf_take_succ (next : occurrences[position]? = some x) (origin : ColaOrigin) :
    keysOf (occurrences.take (position + 1)) origin =
      keysOf (occurrences.take position) origin ++ if x.1 = origin then [x.2] else [] := by
  rw [List.take_add_one, keysOf_append, next]
  by_cases same : x.1 = origin <;> simp [keysOf, same]

theorem before_succ (next : occurrences[position]? = some x) (origin : ColaOrigin) :
    before occurrences origin (position + 1) =
      before occurrences origin position + if x.1 = origin then 1 else 0 := by
  rw [before, keysOf_take_succ next, List.length_append, before]
  split <;> rfl

end Occurrences

namespace ColaIndexBuilder

/-- The navigation of the first `count` occurrences has been written. -/
structure Navigates (builder : ColaIndexBuilder P) (occurrences : Occurrences) : Prop where
  bound : builder.count ≤ occurrences.length
  width : builder.width = builder.count % P.groupSize
  ranks : ∀ route : ColaTarget, builder.ranks route =
    ⟨(List.range (builder.count / P.groupSize)).map fun group =>
      (keysOf ((occurrences.drop (group * P.groupSize)).take P.groupSize) route.origin).length,
      builder.count / P.groupSize * P.groupSize⟩
  population : ∀ route : ColaTarget, builder.population route +
    before occurrences route.origin (builder.count / P.groupSize * P.groupSize) =
      before occurrences route.origin builder.count
  cuts : ∀ route : ColaTarget, builder.cuts route =
    (List.range (ceilDiv builder.count P.groupSize)).map fun group =>
      cutBefore occurrences route.origin (group * P.groupSize)
  flags : ∀ route : ColaTarget, builder.flags route =
    (keysOf (occurrences.take builder.count) route.origin).map fun key =>
      decide (key ∈ builder.native.value.keys)
  borrowed : ∀ route : ColaTarget, ∃ entries : List Entry,
    builder.borrowed route = entries.map (Entry.frame P) ∧
    entries.map Entry.key = keysOf (occurrences.take builder.count) route.origin ∧
    Retains P [] entries
  unfinished : builder.finished = false

/-- The last occurrence taken, or the empty key. -/
def lastKey (occurrences : Occurrences) (count : Nat) : BitString :=
  ((occurrences.take count).getLast?.map Prod.snd).getD []

/-- The cursors hold these remaining keys of each source. -/
structure Holds (builder : ColaIndexBuilder P) (remaining : ColaOrigin → List BitString) :
    Prop where
  native : ∃ cursor previous entries, builder.nativeCursor = some cursor ∧
    cursor.Tracks P previous entries ∧ entries.map Entry.key = remaining .native ∧
    (remaining .native).Pairwise (· < ·)
  main : match builder.primaryCursor with
    | none => remaining .main = []
    | some cursor => ∃ last rest, cursor.Samples P last rest ∧
        remaining .main = sample P.groupSize (rest.map Prod.snd)
  secondary : match builder.secondaryCursor with
    | none => remaining .secondary = []
    | some cursor => ∃ previous entries, cursor.Tracks P previous entries ∧
        remaining .secondary = sample P.groupSize (entries.map Entry.key) ∧
        (entries.map Entry.key).Pairwise (· < ·)

/-- The cursors hold the rest of the merge and know what it shares with the last occurrence. -/
structure Merges (builder : ColaIndexBuilder P) (occurrences : Occurrences) : Prop where
  remaining : ∃ remaining, builder.Holds remaining ∧
    StableMerge remaining (occurrences.drop builder.count) ∧
    ∀ origin, ∀ key ∈ (remaining origin).head?,
      builder.prefixes origin = lcp (lastKey occurrences builder.count) key
  previousLength : builder.previousLength = (lastKey occurrences builder.count).length
  cutCommon : ∀ route : ColaTarget, ∀ earlier ∈
    (keysOf (occurrences.take builder.count) route.origin).getLast?,
      builder.cutCommon route = lcp earlier (lastKey occurrences builder.count)
  nativeEqual : builder.count ≠ 0 →
    builder.nativeEqual = decide (lastKey occurrences builder.count ∈ builder.native.value.keys)
  borrowedCount : ∀ route : ColaTarget,
    builder.borrowedCount route = before occurrences route.origin builder.count

/-- What the merge of the sources of a builder satisfies. -/
structure Merged (builder : ColaIndexBuilder P) (mainKeys : List BitString)
    (occurrences : Occurrences) : Prop where
  merged : StableMerge (ColaIndex.sources builder.native.value mainKeys builder.secondary)
    occurrences
  sorted : occurrences.Pairwise MergeOrder
  aligned : ∀ x ∈ occurrences, P.Aligned x.2
  count_le : occurrences.length ≤ maximum64
  main_le : mainKeys.length ≤ maximum64

namespace Merged

variable {builder : ColaIndexBuilder P} {mainKeys : List BitString} {occurrences : Occurrences}

theorem native_keys (merged : builder.Merged mainKeys occurrences) :
    builder.native.value.keys = keysOf occurrences .native :=
  (merged.merged.filter_eq .native).symm

theorem lastKey_le (merged : builder.Merged mainKeys occurrences) {count : Nat}
    {x : ColaOrigin × BitString} (member : x ∈ occurrences.drop count) :
    lastKey occurrences count ≤ x.2 := by
  have sorted := merged.sorted
  rw [← List.take_append_drop count occurrences] at sorted
  rw [lastKey]
  cases last : (occurrences.take count).getLast? with
  | none => simp
  | some y =>
      exact ((List.pairwise_append.mp sorted).2.2 y (List.mem_of_getLast? last) x member).le

/-- A native occurrence never repeats the preceding key. -/
theorem native_ne_last (merged : builder.Merged mainKeys occurrences) {count : Nat}
    {key : BitString} (nonzero : count ≠ 0) (bound : count ≤ occurrences.length)
    (next : occurrences[count]? = some (.native, key)) : lastKey occurrences count ≠ key := by
  intro same
  have last_lt : count - 1 < occurrences.length := by omega
  obtain ⟨count_lt, at_count⟩ := List.getElem?_eq_some_iff.mp next
  have last_eq : lastKey occurrences count = (occurrences[count - 1]).2 := by
    rw [lastKey, getElem?_getLast nonzero bound, List.getElem?_eq_getElem last_lt]
    rfl
  have ordered := List.pairwise_iff_getElem.mp merged.sorted (count - 1) count last_lt count_lt
    (by omega)
  rw [at_count] at ordered
  have is_native : (occurrences[count - 1]).1 = .native := by
    rcases ordered with less | ⟨-, before⟩
    · rw [last_eq] at same
      exact absurd same less.ne
    · exact ColaOrigin.eq_native_of_le before
  have strict := builder.native.value.sorted
  have keys : builder.native.value.entries.map Entry.key = keysOf occurrences .native :=
    merged.native_keys
  rw [keys, keysOf, List.pairwise_map, List.pairwise_filter] at strict
  have less := List.pairwise_iff_getElem.mp strict (count - 1) count last_lt count_lt (by omega)
    (by simpa using is_native) (by simp [at_count])
  rw [at_count, ← last_eq, same] at less
  exact lt_irrefl _ less

/-- Whether an occurrence repeats a native key, from whether its predecessor does. -/
theorem mem_native_iff (merged : builder.Merged mainKeys occurrences) {count : Nat}
    {x : ColaOrigin × BitString} (bound : count ≤ occurrences.length)
    (next : occurrences[count]? = some x) :
    x.2 ∈ builder.native.value.keys ↔ x.1 = .native ∨
      ((count ≠ 0 ∧ lastKey occurrences count = x.2) ∧
        lastKey occurrences count ∈ builder.native.value.keys) := by
  obtain ⟨count_lt, at_count⟩ := List.getElem?_eq_some_iff.mp next
  constructor
  · intro member
    rw [merged.native_keys, mem_keysOf] at member
    by_cases native : x.1 = .native
    · exact .inl native
    · obtain ⟨index, at_index⟩ := List.mem_iff_getElem?.mp member
      obtain ⟨index_lt, index_eq⟩ := List.getElem?_eq_some_iff.mp at_index
      have sorted := List.pairwise_iff_getElem.mp merged.sorted
      rcases lt_trichotomy index count with less | rfl | greater
      · have nonzero : count ≠ 0 := by omega
        have in_take : (ColaOrigin.native, x.2) ∈ occurrences.take count :=
          List.mem_of_getElem? (by rw [List.getElem?_take_of_lt less]; exact at_index)
        have last_above : x.2 ≤ lastKey occurrences count := by
          have last_lt : count - 1 < occurrences.length := by omega
          have last_eq : lastKey occurrences count = (occurrences[count - 1]).2 := by
            rw [lastKey, getElem?_getLast nonzero bound, List.getElem?_eq_getElem last_lt]
            rfl
          rw [last_eq]
          rcases Nat.lt_or_ge index (count - 1) with before | after
          · have ordered := sorted index (count - 1) index_lt last_lt before
            rw [index_eq] at ordered
            exact ordered.le
          · obtain rfl : index = count - 1 := by omega
            rw [index_eq]
        have in_drop : x ∈ occurrences.drop count :=
          List.mem_of_getElem? (i := 0) (by rw [List.getElem?_drop, Nat.add_zero, next])
        have equal := (merged.lastKey_le in_drop).antisymm last_above
        refine .inr ⟨⟨nonzero, equal⟩, ?_⟩
        rwa [equal, merged.native_keys, mem_keysOf]
      · rw [next, Option.some.injEq] at at_index
        exact absurd (congrArg Prod.fst at_index) native
      · have ordered := sorted count index count_lt index_lt greater
        rw [at_count, index_eq] at ordered
        rcases ordered with less | ⟨-, before⟩
        · exact absurd less (lt_irrefl _)
        · exact absurd (ColaOrigin.eq_native_of_le before) native
  · rintro (native | ⟨⟨-, same⟩, member⟩)
    · rw [merged.native_keys, mem_keysOf, ← native]
      exact List.mem_of_getElem? next
    · rwa [← same]

end Merged

/-- Stepping a native cursor reports what its consecutive keys share. -/
theorem advanceNative_ok {cursor : ProfileCursor} {previous : BitString} {entry : Entry}
    {entries : List Entry} (tracks : cursor.Tracks P previous (entry :: entries))
    (sorted : ((entry :: entries).map Entry.key).Pairwise (· < ·)) :
    ∃ following shared, advanceNative P cursor = .ok (following, shared) ∧
      following.Tracks P entry.key entries ∧
      ∀ next ∈ entries.head?, shared = lcp entry.key next.key := by
  obtain ⟨following, advanced, following_tracks, -⟩ :=
    ProfileCursor.advanceComparison_tracks tracks
  rw [List.map_cons, List.pairwise_cons] at sorted
  have ordered : ∀ comparison ∈
      entries.head?.map fun next => compareCommonBits entry.key next.key,
        comparison.order = .lt := by
    intro comparison member
    obtain ⟨next, is_next, rfl⟩ := Option.map_eq_some_iff.mp member
    exact order_eq_lt.mpr (sorted.1 _ (List.mem_map_of_mem (List.mem_of_head? is_next)))
  have stepped : advanceNative P cursor = .ok (following,
      ((entries.head?.map fun next => compareCommonBits entry.key next.key).map
        BitComparison.commonBits).getD 0) := by
    simp only [advanceNative, advanced, ok_bind, require_true ordered]
  refine ⟨following, _, stepped, following_tracks, ?_⟩
  intro next is_next
  rw [Option.mem_def.mp is_next]
  rfl

/-- Stepping to the next sample accumulates what it shares with an earlier key. -/
theorem advanceSecondary_ok {first : BitString} (stride : Nat) {cursor : ProfileCursor}
    {previous : BitString} {entries : List Entry} {common : Nat}
    (tracks : cursor.Tracks P previous entries)
    (sorted : (entries.map Entry.key).Pairwise (· < ·))
    (shares : ∀ entry ∈ entries.head?, first ≤ entry.key ∧ common = lcp first entry.key) :
    ∃ following shared, advanceSecondary P stride cursor common = .ok (following, shared) ∧
      (∃ previous, following.Tracks P previous (entries.drop stride)) ∧
      ∀ entry ∈ (entries.drop stride).head?, shared = lcp first entry.key := by
  induction stride generalizing cursor previous entries common with
  | zero => exact ⟨cursor, common, rfl, ⟨previous, tracks⟩, fun entry head => (shares entry head).2⟩
  | succ stride induction =>
      rw [advanceSecondary, ProfileCursor.done_iff tracks]
      cases entries with
      | nil => exact ⟨cursor, common, rfl, ⟨previous, tracks⟩, by simp⟩
      | cons entry entries =>
          obtain ⟨following, shared, advanced, following_tracks, next_shares⟩ :=
            advanceNative_ok tracks sorted
          obtain ⟨lower, common_eq⟩ := shares entry rfl
          rw [List.map_cons, List.pairwise_cons] at sorted
          have accumulated : ∀ next ∈ entries.head?,
              first ≤ next.key ∧ min common shared = lcp first next.key := by
            intro next is_next
            have above : entry.key ≤ next.key :=
              (sorted.1 _ (List.mem_map_of_mem (List.mem_of_head? is_next))).le
            refine ⟨lower.trans above, ?_⟩
            rw [common_eq, next_shares next is_next, lcp_sorted lower above]
          obtain ⟨last, total, ok, last_tracks, last_shares⟩ :=
            induction following_tracks sorted.2 accumulated
          refine ⟨last, total, ?_, last_tracks, last_shares⟩
          simp only [List.isEmpty_cons, Bool.false_eq_true, if_false, advanced, ok_bind, ok]

theorem Holds.heads_ok {builder : ColaIndexBuilder P} {remaining : ColaOrigin → List BitString}
    (holds : builder.Holds remaining) :
    builder.heads = .ok fun origin => (remaining origin).head? := by
  have scratch : ∀ {cursor : ProfileCursor} {previous : BitString} {entries : List Entry},
      cursor.Tracks P previous entries →
        ((some cursor).filter fun cursor => ! cursor.done).map ProfileCursor.scratch =
          (entries.map Entry.key).head? := by
    intro cursor previous entries tracks
    have done := ProfileCursor.done_iff tracks
    cases entries with
    | nil => simp [Option.filter, done]
    | cons entry entries =>
        have at_head := tracks.2.2 entry rfl
        simp [Option.filter, done, at_head]
  obtain ⟨native, previous, entries, native_eq, native_tracks, native_keys, -⟩ := holds.native
  have native_head := scratch native_tracks
  rw [native_keys] at native_head
  have primary : builder.primaryHead = .ok (remaining .main).head? := by
    have main := holds.main
    unfold primaryHead
    cases cursor_eq : builder.primaryCursor with
    | none =>
        rw [cursor_eq] at main
        simp only at main
        simp [main]
    | some cursor =>
        rw [cursor_eq] at main
        obtain ⟨last, rest, samples, main⟩ := main
        rw [main, head?_sample]
        cases rest with
        | nil => simp [samples.done_iff.mpr rfl]
        | cons x rest =>
            have live : ¬ cursor.done = true := by simp [samples.done_iff]
            simp only [if_neg live, samples.peek_ok]
            rfl
  have secondary_head : ((builder.secondaryCursor.filter fun cursor => ! cursor.done).map
      ProfileCursor.scratch) = (remaining .secondary).head? := by
    have secondary := holds.secondary
    cases cursor_eq : builder.secondaryCursor with
    | none =>
        rw [cursor_eq] at secondary
        simp only at secondary
        simp [secondary]
    | some cursor =>
        rw [cursor_eq] at secondary
        obtain ⟨previous, entries, tracks, secondary, -⟩ := secondary
        rw [secondary, head?_sample, scratch tracks]
  simp only [heads, primary, ok_bind, native_eq, secondary_head, native_head]
  congr 1
  funext origin
  cases origin <;> rfl

/-- Borrowing a key of known common prefix extends the borrowed array of its route. -/
theorem borrow_ok {builder : ColaIndexBuilder P} {route : ColaTarget} {key : BitString}
    {entries : List Entry} (frames : builder.borrowed route = entries.map (Entry.frame P))
    (retains : Retains P [] entries) (aligned : P.Aligned key)
    (count : builder.borrowedCount route = entries.length)
    (shares : ∀ last ∈ entries.getLast?, builder.cutCommon route = lcp last.key key)
    (bound : entries.length < maximum64) :
    ∃ entry : Entry, entry.key = key ∧ Retains P [] (entries ++ [entry]) ∧
      builder.borrow route key = .ok { builder with
        borrowed := Function.update builder.borrowed route
          ((entries ++ [entry]).map (Entry.frame P))
        flags := Function.update builder.flags route
          (builder.flags route ++ [builder.nativeEqual])
        borrowedCount := Function.update builder.borrowedCount route
          (builder.borrowedCount route + 1)
        population := Function.update builder.population route (builder.population route + 1)
        cutCommon := Function.update builder.cutCommon route key.length } := by
  set common := if builder.borrowedCount route ≠ 0 then builder.cutCommon route else 0
    with common_eq
  have common_le : common ≤ lcp ((entries.getLast?.map Entry.key).getD []) key := by
    rw [common_eq]
    split
    · rename_i nonzero
      cases last : entries.getLast? with
      | none =>
          rw [List.getLast?_eq_none_iff.mp last] at count
          exact absurd count nonzero
      | some entry => exact (shares entry last).le
    · exact Nat.zero_le _
  have added : ProfileDetail.add entries.length 1 = .ok (entries.length + 1) := by
    rw [ProfileDetail.add, if_pos (by omega)]
  refine ⟨⟨key, common / P.bitsPerUnit, []⟩, rfl,
    retains.append_singleton ((Nat.div_mul_le_self _ _).trans common_le) aligned, ?_⟩
  simp only [borrow, ← common_eq, appendKnown, frames, List.length_map, added, ok_bind,
    List.map_append, List.map_cons, List.map_nil, Entry.frame]

theorem length_keysOf_take {builder : ColaIndexBuilder P} {occurrences : Occurrences}
    {entries : List Entry} {origin : ColaOrigin}
    (keys : entries.map Entry.key = keysOf (occurrences.take builder.count) origin) :
    entries.length = before occurrences origin builder.count := by
  rw [before, ← keys, List.length_map]

section Step

variable {builder : ColaIndexBuilder P} {mainKeys : List BitString} {occurrences : Occurrences}
variable {x : ColaOrigin × BitString}

theorem lastKey_succ {count : Nat} (next : occurrences[count]? = some x) :
    lastKey occurrences (count + 1) = x.2 := by
  rw [lastKey, List.take_add_one, next]
  simp

/-- Taking an occurrence lowers what the last borrow shares with the last key. -/
theorem cut_succ (merged : builder.Merged mainKeys occurrences) (merges : builder.Merges occurrences)
    (next : occurrences[builder.count]? = some x)
    (shares : builder.prefixes x.1 = lcp (lastKey occurrences builder.count) x.2)
    (route : ColaTarget) : ∀ earlier ∈
      (keysOf (occurrences.take builder.count) route.origin).getLast?,
        min (builder.cutCommon route) (builder.prefixes x.1) = lcp earlier x.2 := by
  intro earlier last
  have member := (mem_keysOf _ _).mp (List.mem_of_getLast? last)
  have in_drop : x ∈ occurrences.drop builder.count :=
    List.mem_of_getElem? (i := 0) (by rw [List.getElem?_drop, Nat.add_zero, next])
  have lower : earlier ≤ lastKey occurrences builder.count := by
    obtain ⟨index, at_index⟩ := List.mem_iff_getElem?.mp member
    obtain ⟨index_lt, index_eq⟩ := List.getElem?_eq_some_iff.mp at_index
    have nonempty : occurrences.take builder.count ≠ [] := List.ne_nil_of_mem member
    rw [lastKey, List.getLast?_eq_some_getLast nonempty, Option.map_some, Option.getD_some,
      List.getLast_eq_getElem]
    rcases Nat.lt_or_ge index ((occurrences.take builder.count).length - 1) with less | equal
    · have sorted := merged.sorted.sublist (List.take_sublist builder.count occurrences)
      have ordered := List.pairwise_iff_getElem.mp sorted index _ index_lt (by omega) less
      rw [index_eq] at ordered
      exact ordered.le
    · obtain rfl : index = (occurrences.take builder.count).length - 1 := by omega
      rw [index_eq]
  rw [merges.cutCommon route earlier last, shares, lcp_sorted lower (merged.lastKey_le in_drop)]

/-- Accounting for an occurrence and borrowing it extends the navigation by it. -/
theorem record_ok (merged : builder.Merged mainKeys occurrences)
    (navigates : builder.Navigates occurrences) (merges : builder.Merges occurrences)
    (next : occurrences[builder.count]? = some x)
    (shares : builder.prefixes x.1 = lcp (lastKey occurrences builder.count) x.2)
    {accounted : ColaIndexBuilder P} {equal : Bool}
    (accounted_eq : accounted = builder.account x.1 x.2 equal)
    (nativeEqual : accounted.nativeEqual = decide (x.2 ∈ builder.native.value.keys)) :
    ∃ borrowed flags borrowedCount population cutCommon,
      accounted.record x.1 x.2 = .ok { accounted with
        borrowed, flags, borrowedCount, population, cutCommon } ∧
      (∀ route : ColaTarget, ∃ entries : List Entry,
        borrowed route = entries.map (Entry.frame P) ∧
        entries.map Entry.key = keysOf (occurrences.take (builder.count + 1)) route.origin ∧
        Retains P [] entries) ∧
      (∀ route : ColaTarget, flags route =
        (keysOf (occurrences.take (builder.count + 1)) route.origin).map fun key =>
          decide (key ∈ builder.native.value.keys)) ∧
      (∀ route : ColaTarget,
        borrowedCount route = before occurrences route.origin (builder.count + 1)) ∧
      (∀ route : ColaTarget, population route = builder.population route +
        if x.1 = route.origin then 1 else 0) ∧
      (∀ route : ColaTarget, ∀ earlier ∈
        (keysOf (occurrences.take (builder.count + 1)) route.origin).getLast?,
          cutCommon route = lcp earlier x.2) := by
  have cut := cut_succ merged merges next shares
  have accounted_cut : ∀ route : ColaTarget, ∀ earlier ∈
      (keysOf (occurrences.take builder.count) route.origin).getLast?,
        accounted.cutCommon route = lcp earlier x.2 := by
    intro route earlier last
    have nonzero : builder.borrowedCount route ≠ 0 := by
      rw [merges.borrowedCount, before, ne_eq, List.length_eq_zero_iff]
      exact List.ne_nil_of_mem (List.mem_of_getLast? last)
    rw [accounted_eq]
    simp only [account, if_pos nonzero]
    exact cut route earlier last
  have fields : accounted.borrowed = builder.borrowed ∧ accounted.flags = builder.flags ∧
      accounted.borrowedCount = builder.borrowedCount ∧
      accounted.population = builder.population := by
    rw [accounted_eq]
    exact ⟨rfl, rfl, rfl, rfl⟩
  obtain ⟨borrowed_eq, flags_eq, count_eq, population_eq⟩ := fields
  have same_keys : ∀ origin, x.1 ≠ origin → keysOf (occurrences.take (builder.count + 1)) origin =
      keysOf (occurrences.take builder.count) origin := by
    intro origin different
    rw [keysOf_take_succ next, if_neg different, List.append_nil]
  have recorded : ∀ route : ColaTarget, x.1 = route.origin →
      accounted.record x.1 x.2 = accounted.borrow route x.2 := by
    intro route same
    rw [same]
    cases route <;> rfl
  by_cases native : x.1 = .native
  · have not_route : ∀ route : ColaTarget, x.1 ≠ route.origin := by
      intro route same
      exact route.origin_ne_native (same.symm.trans native)
    have unchanged : accounted.record x.1 x.2 = .ok accounted := by
      rw [native]
      rfl
    refine ⟨accounted.borrowed, accounted.flags, accounted.borrowedCount, accounted.population,
      accounted.cutCommon, unchanged, ?_, ?_, ?_, ?_, ?_⟩
    · intro route
      rw [borrowed_eq, same_keys _ (not_route route)]
      exact navigates.borrowed route
    · intro route
      rw [flags_eq, same_keys _ (not_route route)]
      exact navigates.flags route
    · intro route
      rw [count_eq, before_succ next, if_neg (not_route route)]
      exact merges.borrowedCount route
    · intro route
      rw [population_eq, if_neg (not_route route), Nat.add_zero]
    · intro route earlier last
      rw [same_keys _ (not_route route)] at last
      exact accounted_cut route earlier last
  · obtain ⟨route, same⟩ : ∃ route : ColaTarget, x.1 = route.origin := by
      cases origin : x.1 with
      | native => exact absurd origin native
      | main => exact ⟨.main, rfl⟩
      | secondary => exact ⟨.secondary, rfl⟩
    have other_route : ∀ other : ColaTarget, other ≠ route → x.1 ≠ other.origin := by
      intro other different equal
      exact different (ColaTarget.origin_injective (equal.symm.trans same))
    obtain ⟨entries, frames, keys, retains⟩ := navigates.borrowed route
    have length := length_keysOf_take keys
    obtain ⟨count_lt, -⟩ := List.getElem?_eq_some_iff.mp next
    have short := before_succ next route.origin
    have within := (before_le occurrences route.origin (builder.count + 1)).trans
      ((length_keysOf_le occurrences route.origin).trans merged.count_le)
    rw [if_pos same] at short
    have accounted_frames : accounted.borrowed route = entries.map (Entry.frame P) := by
      rw [borrowed_eq, frames]
    have accounted_count : accounted.borrowedCount route = entries.length := by
      rw [count_eq, merges.borrowedCount, length]
    have accounted_shares : ∀ last ∈ entries.getLast?,
        accounted.cutCommon route = lcp last.key x.2 := by
      intro last is_last
      refine accounted_cut route last.key ?_
      rw [← keys, List.getLast?_map, Option.mem_def.mp is_last]
      rfl
    obtain ⟨entry, entry_key, entry_retains, borrow_eq⟩ := borrow_ok accounted_frames retains
      (merged.aligned x (List.mem_of_getElem? next)) accounted_count accounted_shares (by omega)
    refine ⟨_, _, _, _, _, (recorded route same).trans borrow_eq, ?_, ?_, ?_, ?_, ?_⟩
    · intro other
      by_cases equal : other = route
      · subst equal
        refine ⟨entries ++ [entry], by simp, ?_, entry_retains⟩
        rw [keysOf_take_succ next, if_pos same, List.map_append, keys, List.map_singleton,
          entry_key]
      · rw [Function.update_of_ne equal, borrowed_eq, same_keys _ (other_route other equal)]
        exact navigates.borrowed other
    · intro other
      by_cases equal : other = route
      · subst equal
        rw [Function.update_self, flags_eq, navigates.flags, keysOf_take_succ next, if_pos same,
          nativeEqual]
        simp
      · rw [Function.update_of_ne equal, flags_eq, same_keys _ (other_route other equal)]
        exact navigates.flags other
    · intro other
      rw [before_succ next]
      by_cases equal : other = route
      · subst equal
        rw [Function.update_self, count_eq, merges.borrowedCount, if_pos same]
      · rw [Function.update_of_ne equal, count_eq, merges.borrowedCount,
          if_neg (other_route other equal), Nat.add_zero]
    · intro other
      by_cases equal : other = route
      · subst equal
        rw [Function.update_self, population_eq, if_pos same]
      · rw [Function.update_of_ne equal, population_eq, if_neg (other_route other equal),
          Nat.add_zero]
    · intro other earlier last
      by_cases equal : other = route
      · subst equal
        rw [keysOf_take_succ next, if_pos same, List.getLast?_concat] at last
        cases last
        rw [Function.update_self, lcp_self]
      · rw [same_keys _ (other_route other equal)] at last
        rw [Function.update_of_ne equal]
        exact accounted_cut other earlier last

/-- Advancing the source of the least head holds the rest of the merge. -/
theorem advanceSource_ok {builder : ColaIndexBuilder P} {remaining : ColaOrigin → List BitString}
    (holds : builder.Holds remaining) (least : LeastHead remaining x.1 x.2)
    (common : ∀ origin, ∀ key ∈ (remaining origin).head?,
      builder.prefixes origin = lcp x.2 key) :
    ∃ nativeCursor primaryCursor secondaryCursor prefixes,
      builder.advanceSource x.1 x.2 = .ok { builder with
        nativeCursor, primaryCursor, secondaryCursor, prefixes } ∧
      { builder with nativeCursor, primaryCursor, secondaryCursor, prefixes }.Holds
        (Function.update remaining x.1 (remaining x.1).tail) ∧
      ∀ origin, ∀ key ∈ (Function.update remaining x.1 (remaining x.1).tail origin).head?,
        prefixes origin = lcp x.2 key := by
  obtain ⟨origin, key⟩ := x
  dsimp only at least common ⊢
  have source := least.source_eq
  obtain ⟨⟨native, previous, entries, native_eq, native_tracks, native_keys, native_sorted⟩,
    main, secondary⟩ := holds
  have others : ∀ (value : Nat) other, other ≠ origin →
      ∀ head ∈ (Function.update remaining origin (remaining origin).tail other).head?,
        Function.update builder.prefixes origin value other = lcp key head := by
    intro value other different head is_head
    rw [Function.update_of_ne different] at is_head ⊢
    exact common other head is_head
  cases origin with
  | native =>
      cases entries with
      | nil => rw [← native_keys] at source; cases source
      | cons entry entries =>
          obtain ⟨following, shared, advanced, tracks, next_shares⟩ :=
            advanceNative_ok native_tracks (native_keys ▸ native_sorted)
          rw [← native_keys, List.map_cons, List.cons.injEq] at source
          have tail : (remaining .native).tail = entries.map Entry.key := by
            rw [← native_keys, List.map_cons, List.tail_cons]
          refine ⟨some following, builder.primaryCursor, builder.secondaryCursor,
            Function.update builder.prefixes .native shared, ?_, ⟨?_, ?_, ?_⟩, ?_⟩
          · simp only [advanceSource, native_eq, demand_some, ok_bind, advanced]
          · refine ⟨following, entry.key, entries, rfl, tracks, ?_, ?_⟩
            · rw [Function.update_self, tail]
            · rw [Function.update_self]
              exact native_sorted.tail
          · simpa using main
          · simpa using secondary
          · intro other head is_head
            by_cases same : other = .native
            · subst same
              rw [Function.update_self, tail, List.head?_map] at is_head
              obtain ⟨next, is_next, rfl⟩ := Option.map_eq_some_iff.mp is_head
              rw [Function.update_self, next_shares next is_next, source.1]
            · exact others shared other same head is_head
  | main =>
      cases primary_eq : builder.primaryCursor with
      | none => simp only [primary_eq] at main; simp [main] at source
      | some cursor =>
          simp only [primary_eq] at main
          obtain ⟨last, rest, samples, main⟩ := main
          cases rest with
          | nil => simp [main] at source
          | cons y rest =>
              obtain ⟨following, advanced, following_last, following_samples⟩ :=
                samples.advanceComparison_ok
              have head_key : y.2 = key := by
                rw [main, List.map_cons, sample_cons P.groupSize_pos, List.cons.injEq] at source
                exact source.1
              have tail : (remaining .main).tail =
                  sample P.groupSize (((y :: rest).drop P.groupSize).map Prod.snd) := by
                rw [main, tail_sample P.groupSize_pos, List.map_drop]
              refine ⟨builder.nativeCursor, some following, builder.secondaryCursor,
                Function.update builder.prefixes .main
                  (((((y :: rest).drop P.groupSize).head?.map fun z =>
                    compareCommonBits y.2 z.2).map BitComparison.commonBits).getD 0),
                ?_, ⟨?_, ?_, ?_⟩, ?_⟩
              · simp only [advanceSource, primary_eq, demand_some, ok_bind, advanced]
              · exact ⟨native, previous, entries, native_eq, native_tracks, by simpa using native_keys,
                  by simpa using native_sorted⟩
              · refine ⟨following_last, _, following_samples, ?_⟩
                rw [Function.update_self, tail]
              · simpa using secondary
              · intro other head is_head
                by_cases same : other = .main
                · subst same
                  rw [Function.update_self, tail, head?_sample, List.head?_map] at is_head
                  obtain ⟨next, is_next, rfl⟩ := Option.map_eq_some_iff.mp is_head
                  rw [Function.update_self, is_next, ← head_key]
                  rfl
                · exact others _ other same head is_head
  | secondary =>
      cases secondary_eq : builder.secondaryCursor with
      | none => simp only [secondary_eq] at secondary; simp [secondary] at source
      | some cursor =>
          simp only [secondary_eq] at secondary
          obtain ⟨earlier, leaf, tracks, secondary, sorted⟩ := secondary
          cases leaf with
          | nil => simp [secondary] at source
          | cons entry leaf =>
              have head_key : entry.key = key := by
                rw [secondary, List.map_cons, sample_cons P.groupSize_pos, List.cons.injEq]
                  at source
                exact source.1
              have own_length : ∀ first ∈ (entry :: leaf).head?,
                  key ≤ first.key ∧ key.length = lcp key first.key := by
                intro first is_first
                cases is_first
                rw [head_key]
                exact ⟨le_rfl, (lcp_self key).symm⟩
              obtain ⟨following, shared, advanced, ⟨after, following_tracks⟩, next_shares⟩ :=
                advanceSecondary_ok P.groupSize tracks sorted own_length
              have tail : (remaining .secondary).tail =
                  sample P.groupSize (((entry :: leaf).drop P.groupSize).map Entry.key) := by
                rw [secondary, tail_sample P.groupSize_pos, List.map_drop]
              refine ⟨builder.nativeCursor, builder.primaryCursor, some following,
                Function.update builder.prefixes .secondary shared, ?_, ⟨?_, ?_, ?_⟩, ?_⟩
              · simp only [advanceSource, secondary_eq, demand_some, ok_bind, advanced]
              · exact ⟨native, previous, entries, native_eq, native_tracks, by simpa using native_keys,
                  by simpa using native_sorted⟩
              · simpa using main
              · refine ⟨after, _, following_tracks, ?_, ?_⟩
                · rw [Function.update_self, tail]
                · rw [List.map_drop]
                  exact sorted.sublist (List.drop_sublist _ _)
              · intro other head is_head
                by_cases same : other = .secondary
                · subst same
                  rw [Function.update_self, tail, head?_sample, List.head?_map] at is_head
                  obtain ⟨next, is_next, rfl⟩ := Option.map_eq_some_iff.mp is_head
                  rw [Function.update_self, next_shares next is_next]
                · exact others shared other same head is_head

end Step

/-- The open group has taken `width` occurrences after some whole groups. -/
structure OpenGroup (builder : ColaIndexBuilder P) (occurrences : Occurrences) (group : Nat) :
    Prop where
  bound : builder.count ≤ occurrences.length
  count : builder.count = group * P.groupSize + builder.width
  positive : 0 < builder.width
  within : builder.width ≤ P.groupSize
  ranks : ∀ route : ColaTarget, builder.ranks route =
    ⟨(List.range group).map fun group =>
      (keysOf ((occurrences.drop (group * P.groupSize)).take P.groupSize) route.origin).length,
      group * P.groupSize⟩
  population : ∀ route : ColaTarget, builder.population route +
    before occurrences route.origin (group * P.groupSize) =
      before occurrences route.origin builder.count
  cuts : ∀ route : ColaTarget, builder.cuts route =
    (List.range (group + 1)).map fun group =>
      cutBefore occurrences route.origin (group * P.groupSize)
  flags : ∀ route : ColaTarget, builder.flags route =
    (keysOf (occurrences.take builder.count) route.origin).map fun key =>
      decide (key ∈ builder.native.value.keys)
  borrowed : ∀ route : ColaTarget, ∃ entries : List Entry,
    builder.borrowed route = entries.map (Entry.frame P) ∧
    entries.map Entry.key = keysOf (occurrences.take builder.count) route.origin ∧
    Retains P [] entries
  unfinished : builder.finished = false

section Group

variable {builder : ColaIndexBuilder P} {occurrences : Occurrences} {group : Nat}

/-- Flushing a whole group, or the last one, appends its population classes. -/
theorem OpenGroup.flushGroup_ok (group_open : builder.OpenGroup occurrences group)
    (count_le : occurrences.length ≤ maximum64)
    (whole : builder.width = P.groupSize ∨ builder.count = occurrences.length) :
    builder.flushGroup = .ok { builder with
      ranks := fun route => ⟨(List.range (group + 1)).map fun group =>
        (keysOf ((occurrences.drop (group * P.groupSize)).take P.groupSize) route.origin).length,
        group * P.groupSize + builder.width⟩
      population := fun _ => 0
      width := 0 } := by
  have bound := group_open.bound
  have count := group_open.count
  have class_eq : ∀ route : ColaTarget, builder.population route =
      (keysOf ((occurrences.drop (group * P.groupSize)).take P.groupSize) route.origin).length := by
    intro route
    have added := before_add occurrences route.origin (group * P.groupSize) P.groupSize
    have population := group_open.population route
    have ends : before occurrences route.origin (group * P.groupSize + P.groupSize) =
        before occurrences route.origin builder.count := by
      rcases whole with full | last
      · rw [count, full]
      · rw [last, before, before, List.take_length, List.take_of_length_le]
        have := group_open.within
        omega
    omega
  have population_le : ∀ route : ColaTarget, builder.population route ≤ builder.width := by
    intro route
    rw [class_eq route]
    refine (length_keysOf_le _ _).trans ?_
    rw [List.length_take, List.length_drop]
    have := group_open.within
    rcases whole with full | last <;> omega
  have appended : ∀ route : ColaTarget, (builder.ranks route).append P (builder.population route)
      builder.width = .ok ⟨(List.range (group + 1)).map fun group =>
        (keysOf ((occurrences.drop (group * P.groupSize)).take P.groupSize) route.origin).length,
        group * P.groupSize + builder.width⟩ := by
    intro route
    have positive := group_open.positive
    have within := group_open.within
    have small := population_le route
    rw [RankGroups.append, group_open.ranks route, if_neg, if_neg]
    · rw [List.range_succ, List.map_append, class_eq route]
      rfl
    · dsimp only
      omega
    · dsimp only
      rw [Nat.mul_mod_left]
      omega
  simp only [flushGroup, appended, ok_bind]
  congr 2
  funext route
  cases route <;> rfl

/-- Closing a full group returns to the start of the following one. -/
theorem OpenGroup.closeGroup_ok (group_open : builder.OpenGroup occurrences group)
    (count_le : occurrences.length ≤ maximum64) :
    ∃ ranks population width, builder.closeGroup =
        .ok { builder with ranks, population, width } ∧
      { builder with ranks, population, width }.Navigates occurrences := by
  have count := group_open.count
  have positive := group_open.positive
  have within := group_open.within
  unfold closeGroup
  by_cases full : builder.width = P.groupSize
  · rw [if_pos full, group_open.flushGroup_ok count_le (.inl full)]
    have count_eq : builder.count = (group + 1) * P.groupSize := by
      rw [count, full, Nat.succ_mul]
    have quotient : builder.count / P.groupSize = group + 1 := by
      rw [count_eq, Nat.mul_div_cancel _ P.groupSize_pos]
    have rest : builder.count % P.groupSize = 0 := by
      rw [count_eq, Nat.mul_mod_left]
    refine ⟨_, _, _, rfl, ⟨group_open.bound, rest.symm, ?_, ?_, ?_, group_open.flags,
      group_open.borrowed, group_open.unfinished⟩⟩
    · intro route
      dsimp only
      rw [quotient, full, Nat.succ_mul]
    · intro route
      dsimp only
      rw [quotient, ← count_eq, Nat.zero_add]
    · intro route
      rw [ceilDiv_of_dvd rest, quotient]
      exact group_open.cuts route
  · rw [if_neg full]
    have quotient : builder.count / P.groupSize = group := by
      rw [count, Nat.mul_comm, Nat.mul_add_div P.groupSize_pos, Nat.div_eq_of_lt (by omega),
        Nat.add_zero]
    have rest : builder.count % P.groupSize = builder.width := by
      rw [count, Nat.mul_comm, Nat.mul_add_mod, Nat.mod_eq_of_lt (by omega)]
    refine ⟨builder.ranks, builder.population, builder.width, rfl,
      ⟨group_open.bound, rest.symm, ?_, ?_, ?_, group_open.flags, group_open.borrowed,
        group_open.unfinished⟩⟩
    · rw [quotient]
      exact group_open.ranks
    · rw [quotient]
      exact group_open.population
    · have partly : builder.count % P.groupSize ≠ 0 := by omega
      rw [ceilDiv_of_not_dvd partly, quotient]
      exact group_open.cuts

end Group

section Merge

variable {builder : ColaIndexBuilder P} {mainKeys : List BitString} {occurrences : Occurrences}

/-- The least head is the next occurrence of the merge, and the builder selects it. -/
theorem select_ok {x : ColaOrigin × BitString} {remaining : ColaOrigin → List BitString}
    {rest : Occurrences} {last : BitString} (merge : StableMerge remaining (x :: rest))
    (prefixes : ∀ origin, ∀ key ∈ (remaining origin).head?,
      last ≤ key ∧ builder.prefixes origin = lcp last key) :
    ∃ selection, chooseFrontier builder.prefixes (fun origin => (remaining origin).head?) =
        .ok selection ∧ selection.origin = x.1 ∧ selection.key = x.2 ∧
      LeastHead remaining x.1 x.2 ∧
      StableMerge (Function.update remaining x.1 (remaining x.1).tail) rest ∧
      ∀ origin, ∀ key ∈ (remaining origin).head?, selection.common origin = lcp x.2 key := by
  cases merge with
  | @cons _ origin key _ least merge =>
      have follows : Follows last builder.prefixes fun origin => (remaining origin).head? :=
        fun other head is_head => prefixes other head is_head
      obtain ⟨selection, chosen, selects⟩ := chooseFrontier_selects follows ⟨_, _, least.1⟩
      obtain ⟨same_origin, same_key⟩ := selects.leastHead.unique least
      refine ⟨selection, chosen, same_origin, same_key, least, merge, ?_⟩
      intro other head is_head
      rw [selects.common other (by cases other <;> simp) head is_head, same_key]

/-- One iteration takes the next occurrence of the merge. -/
theorem mergeOne_ok (merged : builder.Merged mainKeys occurrences)
    (navigates : builder.Navigates occurrences) (merges : builder.Merges occurrences)
    (more : builder.count < occurrences.length) :
    ∃ following, builder.mergeOne = .ok following ∧ following.Navigates occurrences ∧
      following.Merges occurrences ∧ following.count = builder.count + 1 ∧
      following.native = builder.native ∧ following.main = builder.main ∧
      following.secondary = builder.secondary := by
  obtain ⟨remaining, holds, merge, prefixes⟩ := merges.remaining
  set x := occurrences[builder.count] with x_eq
  have next : occurrences[builder.count]? = some x := List.getElem?_eq_getElem more
  have dropped : occurrences.drop builder.count = x :: occurrences.drop (builder.count + 1) :=
    List.drop_eq_getElem_cons more
  rw [dropped] at merge
  have in_drop : ∀ origin, ∀ key ∈ (remaining origin).head?,
      (origin, key) ∈ occurrences.drop builder.count := by
    intro origin key is_head
    rw [dropped, merge.mem_iff]
    exact List.mem_of_head? is_head
  obtain ⟨selection, chosen, origin_eq, key_eq, least, rest, common⟩ := select_ok merge
    fun origin key is_head => ⟨merged.lastKey_le (in_drop origin key is_head),
      prefixes origin key is_head⟩
  have shares := prefixes x.1 x.2 least.1
  set equal : Bool := decide (builder.count ≠ 0 ∧
    builder.prefixes x.1 = builder.previousLength ∧ x.2.length = builder.previousLength)
    with equal_eq
  have equal_iff : equal = true ↔
      builder.count ≠ 0 ∧ lastKey occurrences builder.count = x.2 := by
    rw [equal_eq, decide_eq_true_iff, merges.previousLength, shares]
    constructor
    · rintro ⟨nonzero, whole, same_length⟩
      exact ⟨nonzero, eq_of_lcp whole.ge (same_length.le.trans whole.ge)⟩
    · rintro ⟨nonzero, same⟩
      rw [same, lcp_self]
      exact ⟨nonzero, rfl, rfl⟩
  have ordered : ¬ (x.1 = .native ∧ equal = true) := by
    rintro ⟨native, repeated⟩
    obtain ⟨nonzero, same⟩ := equal_iff.mp repeated
    refine merged.native_ne_last nonzero navigates.bound ?_ same
    rw [next, ← native]
  have accounted_native : (builder.account x.1 x.2 equal).nativeEqual =
      decide (x.2 ∈ builder.native.value.keys) := by
    rw [Bool.eq_iff_iff, decide_eq_true_iff, merged.mem_native_iff navigates.bound next,
      ← equal_iff]
    simp only [account, Bool.or_eq_true, Bool.and_eq_true, decide_eq_true_iff]
    refine or_congr Iff.rfl (and_congr_right fun repeated => ?_)
    rw [merges.nativeEqual (equal_iff.mp repeated).1, decide_eq_true_iff]
  obtain ⟨borrowed, flags, borrowedCount, population, cutCommon, recorded, borrowed_ok, flags_ok,
    count_ok, population_ok, cut_ok⟩ := record_ok merged navigates merges next shares rfl
      accounted_native
  set ready : ColaIndexBuilder P := { builder.account x.1 x.2 equal with
    borrowed, flags, borrowedCount, population, cutCommon, prefixes := selection.common }
    with ready_eq
  have ready_holds : ready.Holds remaining := by
    obtain ⟨native, main, secondary⟩ := holds
    exact ⟨native, main, secondary⟩
  obtain ⟨nativeCursor, primaryCursor, secondaryCursor, following_prefixes, advanced,
    advanced_holds, advanced_prefixes⟩ := advanceSource_ok ready_holds least common
  set counted : ColaIndexBuilder P := { ready with
    nativeCursor, primaryCursor, secondaryCursor
    prefixes := following_prefixes
    count := builder.count + 1
    width := builder.width + 1 } with counted_eq
  have group_open : counted.OpenGroup occurrences (builder.count / P.groupSize) := by
    have split := Nat.div_add_mod' builder.count P.groupSize
    have small := Nat.mod_lt builder.count P.groupSize_pos
    have width := navigates.width
    refine ⟨more, ?_, Nat.succ_pos _, ?_, navigates.ranks, ?_, ?_, flags_ok, borrowed_ok,
      navigates.unfinished⟩
    · change builder.count + 1 = builder.count / P.groupSize * P.groupSize + (builder.width + 1)
      omega
    · change builder.width + 1 ≤ P.groupSize
      omega
    · intro route
      have population_eq : counted.population route = population route := rfl
      have counted_count : counted.count = builder.count + 1 := rfl
      rw [population_eq, population_ok, counted_count, before_succ next,
        ← navigates.population route]
      omega
    · intro route
      have cuts_eq : counted.cuts route = (builder.account x.1 x.2 equal).cuts route := rfl
      rw [cuts_eq]
      simp only [account, width]
      by_cases fresh : builder.count % P.groupSize = 0
      · have position : builder.count / P.groupSize * P.groupSize = builder.count := by omega
        rw [if_pos fresh, navigates.cuts, ceilDiv_of_dvd fresh, List.range_succ, List.map_append,
          List.map_singleton, position, cutBefore, next]
        congr 2
        by_cases none_yet : builder.borrowedCount route = 0
        · rw [if_neg (not_not.mpr none_yet)]
          have empty := (merges.borrowedCount route).symm.trans none_yet
          rw [before, List.length_eq_zero_iff] at empty
          rw [empty]
          rfl
        · rw [if_pos none_yet, if_pos none_yet]
          cases last : (keysOf (occurrences.take builder.count) route.origin).getLast? with
          | none =>
              have empty := List.getLast?_eq_none_iff.mp last
              rw [merges.borrowedCount, before, empty] at none_yet
              exact absurd rfl none_yet
          | some earlier => exact cut_succ merged merges next shares route earlier last
      · rw [if_neg fresh, navigates.cuts, ceilDiv_of_not_dvd fresh]
  obtain ⟨ranks, population', width', closed, closed_navigates⟩ :=
    group_open.closeGroup_ok merged.count_le
  have result : builder.mergeOne =
      .ok { counted with ranks, population := population', width := width' } := by
    simp only [mergeOne, holds.heads_ok, ok_bind, chosen, origin_eq, key_eq, ← equal_eq,
      require_true ordered, recorded]
    exact bind_eq_ok.mpr ⟨_, advanced, closed⟩
  have last_eq := lastKey_succ next
  refine ⟨_, result, closed_navigates, ⟨⟨_, ?_, rest, ?_⟩, ?_, ?_, ?_, count_ok⟩, rfl, rfl, rfl,
    rfl⟩
  · obtain ⟨native, main, secondary⟩ := advanced_holds
    exact ⟨native, main, secondary⟩
  · intro origin key is_head
    exact (advanced_prefixes origin key is_head).trans (congrArg (lcp · key) last_eq.symm)
  · exact (congrArg List.length last_eq).symm
  · intro route earlier last
    exact (cut_ok route earlier last).trans (congrArg (lcp earlier) last_eq.symm)
  · intro _
    exact accounted_native.trans
      (congrArg (fun key => decide (key ∈ builder.native.value.keys)) last_eq.symm)

end Merge

/-- Between steps the open group has taken the occurrences after the last whole one. -/
theorem Navigates.openGroup {builder : ColaIndexBuilder P} {occurrences : Occurrences}
    (navigates : builder.Navigates occurrences) (partly : builder.width ≠ 0) :
    builder.OpenGroup occurrences (builder.count / P.groupSize) := by
  have width := navigates.width
  have split := Nat.div_add_mod' builder.count P.groupSize
  have small := Nat.mod_lt builder.count P.groupSize_pos
  refine ⟨navigates.bound, by omega, Nat.pos_of_ne_zero partly, by omega, navigates.ranks,
    navigates.population, ?_, navigates.flags, navigates.borrowed, navigates.unfinished⟩
  have rest : builder.count % P.groupSize ≠ 0 := by omega
  intro route
  rw [navigates.cuts, ceilDiv_of_not_dvd rest]

/-- Taking further occurrences of a group which holds no borrow only counts them. -/
theorem Navigates.count_ok {builder : ColaIndexBuilder P} {occurrences : Occurrences}
    (navigates : builder.Navigates occurrences)
    (no_borrow : ∀ route : ColaTarget, keysOf occurrences route.origin = []) (chunk : Nat)
    (positive : 0 < chunk) (more : builder.count + chunk ≤ occurrences.length)
    (fits : chunk ≤ P.groupSize - builder.width) :
    { builder with
      cuts := fun route =>
        if builder.width = 0 then builder.cuts route ++ [0] else builder.cuts route
      count := builder.count + chunk
      width := builder.width + chunk }.OpenGroup occurrences (builder.count / P.groupSize) := by
  have width := navigates.width
  have split := Nat.div_add_mod' builder.count P.groupSize
  have small := Nat.mod_lt builder.count P.groupSize_pos
  have none_taken : ∀ (route : ColaTarget) count, keysOf (occurrences.take count) route.origin = [] := by
    intro route count
    have whole := keysOf_split occurrences route.origin count
    rw [no_borrow] at whole
    exact (List.append_eq_nil_iff.mp whole.symm).1
  have none_before : ∀ (route : ColaTarget) count, before occurrences route.origin count = 0 := by
    intro route count
    rw [before, none_taken]
    rfl
  refine ⟨more, ?_, by dsimp only; omega, by dsimp only; omega, navigates.ranks, ?_, ?_, ?_, ?_,
    navigates.unfinished⟩
  · dsimp only
    omega
  · intro route
    have population := navigates.population route
    rw [none_before, none_before] at population ⊢
    exact population
  · intro route
    dsimp only
    rw [width]
    by_cases fresh : builder.count % P.groupSize = 0
    · rw [if_pos fresh, navigates.cuts, ceilDiv_of_dvd fresh, List.range_succ, List.map_append,
        List.map_singleton, cutBefore, none_taken]
      rfl
    · rw [if_neg fresh, navigates.cuts, ceilDiv_of_not_dvd fresh]
  · intro route
    have flags := navigates.flags route
    rw [none_taken] at flags ⊢
    exact flags
  · intro route
    obtain ⟨entries, frames, keys, retains⟩ := navigates.borrowed route
    rw [none_taken] at keys ⊢
    exact ⟨entries, frames, keys, retains⟩

/-- Without targets a step counts as many occurrences as it may. -/
theorem stepTerminal_ok {occurrences : Occurrences} {fuel budget : Nat}
    {builder : ColaIndexBuilder P} (enough : budget < fuel)
    (navigates : builder.Navigates occurrences) (count_le : occurrences.length ≤ maximum64)
    (no_borrow : ∀ route : ColaTarget, keysOf occurrences route.origin = [])
    (size : builder.native.value.size = occurrences.length) :
    ∃ cuts ranks population width,
      stepTerminal fuel builder budget = .ok ({ builder with
        cuts, ranks, population, width
        count := builder.count + min budget (occurrences.length - builder.count) },
        min budget (occurrences.length - builder.count)) ∧
      { builder with
        cuts, ranks, population, width
        count := builder.count + min budget (occurrences.length - builder.count) }.Navigates
          occurrences := by
  induction fuel generalizing builder budget with
  | zero => omega
  | succ fuel induction =>
      have bound := navigates.bound
      have width := navigates.width
      have small := Nat.mod_lt builder.count P.groupSize_pos
      rw [stepTerminal, size]
      by_cases stop : budget = 0 ∨ occurrences.length ≤ builder.count
      · have none_left : min budget (occurrences.length - builder.count) = 0 := by omega
        rw [if_pos stop, none_left]
        exact ⟨builder.cuts, builder.ranks, builder.population, builder.width, rfl, navigates⟩
      · rw [if_neg stop]
        set chunk := min budget (min (occurrences.length - builder.count)
          (P.groupSize - builder.width)) with chunk_eq
        have group_open := navigates.count_ok no_borrow chunk (by omega) (by omega)
          (by omega)
        obtain ⟨ranks, population, width', closed, closed_navigates⟩ :=
          group_open.closeGroup_ok count_le
        have remaining_budget : budget - chunk < fuel := by omega
        obtain ⟨cuts, ranks', population', width'', stepped, stepped_navigates⟩ :=
          induction remaining_budget closed_navigates size
        dsimp only at stepped stepped_navigates
        have total : builder.count + chunk + min (budget - chunk)
            (occurrences.length - (builder.count + chunk)) =
              builder.count + min budget (occurrences.length - builder.count) := by
          omega
        have consumed : chunk + min (budget - chunk)
            (occurrences.length - (builder.count + chunk)) =
              min budget (occurrences.length - builder.count) := by
          omega
        rw [total] at stepped stepped_navigates
        refine ⟨cuts, ranks', population', width'', ?_, stepped_navigates⟩
        simp only [closed, ok_bind, stepped, consumed]

/-- A merge holds the native keys and the samples of both targets. -/
theorem length_of_merge {native : NativeArray P} {main : MainPointer P}
    {secondary : Option (Shared (NativeArray P))} {target occurrences : Occurrences}
    (chain : main.Indexes target)
    (merge : StableMerge (ColaIndex.sources native (target.map Prod.snd) secondary) occurrences) :
    occurrences.length = native.size + main.groupCount + secondaryCount P secondary := by
  have total := length_keysOf_total occurrences
  have keys := merge.filter_eq
  have native_count : (keysOf occurrences .native).length = native.size := by
    have native_keys : keysOf occurrences .native = native.keys := keys .native
    rw [native_keys, ProfileArray.length_keys]
  have main_count : (keysOf occurrences .main).length = main.groupCount := by
    have main_keys : keysOf occurrences .main = sample P.groupSize (target.map Prod.snd) :=
      keys .main
    rw [main_keys, length_sample P.groupSize_pos, List.length_map]
    cases main with
    | nil =>
        have empty : target = [] := chain
        simp [empty, MainPointer.groupCount]
    | cons node rest =>
        obtain ⟨deeper, -, indexes⟩ := chain
        rw [MainPointer.groupCount, indexes.groupCount_eq]
  have secondary_count : (keysOf occurrences .secondary).length =
      secondaryCount P secondary := by
    have secondary_keys : keysOf occurrences .secondary = sample P.groupSize
        ((secondary.map fun leaf => leaf.value.keys).getD []) := keys .secondary
    rw [secondary_keys, length_sample P.groupSize_pos]
    cases secondary <;> simp [secondaryCount]
  omega

/-- A builder part of the way through the merge of its sources. -/
structure Building (builder : ColaIndexBuilder P) (target occurrences : Occurrences) : Prop where
  chain : builder.main.Indexes target
  merged : builder.Merged (target.map Prod.snd) occurrences
  navigates : builder.Navigates occurrences
  terminal : builder.nativeCursor = none → builder.main = [] ∧ builder.secondary = none
  merges : builder.nativeCursor ≠ none → builder.Merges occurrences

namespace Building

variable {builder : ColaIndexBuilder P} {target occurrences : Occurrences}

/-- Number of occurrences: the native keys and the samples of both targets. -/
theorem length_eq (building : builder.Building target occurrences) : occurrences.length =
    builder.native.value.size + builder.main.groupCount + secondaryCount P builder.secondary :=
  length_of_merge building.chain building.merged.merged

theorem no_borrow (building : builder.Building target occurrences)
    (closed : builder.nativeCursor = none) (route : ColaTarget) :
    keysOf occurrences route.origin = [] := by
  obtain ⟨main, secondary⟩ := building.terminal closed
  have chain := building.chain
  rw [main] at chain
  have keys : keysOf occurrences route.origin =
      ColaIndex.sources builder.native.value (target.map Prod.snd) builder.secondary route.origin :=
    building.merged.merged.filter_eq route.origin
  rw [keys, secondary, show target = [] from chain]
  cases route <;> simp [ColaIndex.sources, ColaTarget.origin]

/-- A builder is done when it has taken every occurrence. -/
theorem done_iff (building : builder.Building target occurrences) :
    builder.done = true ↔ builder.count = occurrences.length := by
  cases native : builder.nativeCursor with
  | none =>
      obtain ⟨main, secondary⟩ := building.terminal native
      have length := building.length_eq
      rw [main, secondary] at length
      simp only [MainPointer.groupCount, secondaryCount, Nat.add_zero] at length
      simp [done, native, length]
  | some cursor =>
      obtain ⟨remaining, holds, merge, -⟩ :=
        (building.merges (by simp [native])).remaining
      have bound := building.navigates.bound
      have exhausted : builder.count = occurrences.length ↔ ∀ origin, remaining origin = [] := by
        constructor
        · intro whole
          rw [whole, List.drop_length] at merge
          exact merge.sources_nil
        · intro empty
          have rest := merge.eq_nil empty
          rw [List.drop_eq_nil_iff] at rest
          omega
      have native_live : builder.live .native = ! (remaining .native).isEmpty := by
        obtain ⟨at_native, previous, entries, cursor_eq, tracks, keys, -⟩ := holds.native
        rw [live, cursor_eq, Option.any_some, ProfileCursor.done_iff tracks, ← keys,
          List.isEmpty_map]
      have main_live : builder.live .main = ! (remaining .main).isEmpty := by
        have main := holds.main
        rw [live]
        cases cursor_eq : builder.primaryCursor with
        | none => simp only [cursor_eq] at main; simp [main]
        | some primary =>
            simp only [cursor_eq] at main
            obtain ⟨last, rest, samples, main⟩ := main
            rw [Option.any_some, main]
            cases rest with
            | nil => simp [samples.done_iff.mpr rfl]
            | cons x rest =>
                have not_done : primary.done = false := by
                  rw [← Bool.not_eq_true, samples.done_iff]
                  simp
                rw [not_done, List.map_cons, sample_cons P.groupSize_pos]
                rfl
      have secondary_live : builder.live .secondary = ! (remaining .secondary).isEmpty := by
        have secondary := holds.secondary
        rw [live]
        cases cursor_eq : builder.secondaryCursor with
        | none => simp only [cursor_eq] at secondary; simp [secondary]
        | some leaf =>
            simp only [cursor_eq] at secondary
            obtain ⟨previous, entries, tracks, secondary, -⟩ := secondary
            rw [Option.any_some, ProfileCursor.done_iff tracks, secondary]
            cases entries with
            | nil => simp
            | cons entry entries => rw [List.map_cons, sample_cons P.groupSize_pos]; rfl
      rw [done, native, exhausted]
      simp only [native_live, main_live, secondary_live, Bool.not_not, Bool.and_eq_true,
        List.isEmpty_iff]
      constructor
      · rintro ⟨⟨none_native, none_main⟩, none_secondary⟩ origin
        cases origin <;> assumption
      · exact fun empty => ⟨⟨empty .native, empty .main⟩, empty .secondary⟩

/-- With targets a step takes one occurrence after another. -/
theorem stepMerge_ok {budget : Nat} {builder : ColaIndexBuilder P}
    (building : builder.Building target occurrences) (opened : builder.nativeCursor ≠ none) :
    ∃ following, stepMerge budget builder =
        .ok (following, min budget (occurrences.length - builder.count)) ∧
      following.Building target occurrences ∧
      following.count = builder.count + min budget (occurrences.length - builder.count) ∧
      following.native = builder.native ∧ following.main = builder.main ∧
      following.secondary = builder.secondary := by
  induction budget generalizing builder with
  | zero => exact ⟨builder, by simp [stepMerge], building, by simp, rfl, rfl, rfl⟩
  | succ budget induction =>
      have bound := building.navigates.bound
      rw [stepMerge]
      by_cases done : builder.done = true
      · have whole := building.done_iff.mp done
        rw [if_pos done, whole, Nat.sub_self, Nat.min_zero]
        exact ⟨builder, rfl, building, by rw [whole, Nat.add_zero], rfl, rfl, rfl⟩
      · have more : builder.count < occurrences.length :=
          lt_of_le_of_ne bound fun whole => done (building.done_iff.mpr whole)
        obtain ⟨next, merged_one, navigates, merges, count, native, main, secondary⟩ :=
          mergeOne_ok building.merged building.navigates (building.merges opened) more
        have still_open : next.nativeCursor ≠ none := by
          obtain ⟨remaining, holds, -, -⟩ := merges.remaining
          obtain ⟨cursor, -, -, cursor_eq, -⟩ := holds.native
          simp [cursor_eq]
        obtain ⟨merge, sorted, aligned, count_le, main_le⟩ := building.merged
        have next_building : next.Building target occurrences :=
          ⟨main ▸ building.chain, ⟨by rw [native, secondary]; exact merge, sorted, aligned,
            count_le, main_le⟩, navigates, fun closed => absurd closed still_open,
            fun _ => merges⟩
        obtain ⟨following, stepped, following_building, following_count, native', main',
          secondary'⟩ := induction next_building still_open
        have consumed : min budget (occurrences.length - next.count) + 1 =
            min (budget + 1) (occurrences.length - builder.count) := by
          omega
        simp only [if_neg done, merged_one, ok_bind, stepped, consumed]
        exact ⟨following, rfl, following_building, by omega, native'.trans native,
          main'.trans main, secondary'.trans secondary⟩

/-- A step consumes as many occurrences as its budget and the merge allow. -/
theorem step_ok (building : builder.Building target occurrences) (budget : Nat) :
    ∃ following, builder.step budget =
        .ok (following, min budget (occurrences.length - builder.count)) ∧
      following.Building target occurrences ∧
      following.count = builder.count + min budget (occurrences.length - builder.count) ∧
      following.native = builder.native ∧ following.main = builder.main ∧
      following.secondary = builder.secondary := by
  have active : ¬ builder.finished = true := by simp [building.navigates.unfinished]
  rw [step, if_neg active]
  cases native : builder.nativeCursor with
  | none =>
      obtain ⟨main, secondary⟩ := building.terminal native
      have length := building.length_eq
      rw [main, secondary] at length
      simp only [MainPointer.groupCount, secondaryCount, Nat.add_zero] at length
      obtain ⟨cuts, ranks, population, width, stepped, navigates⟩ :=
        stepTerminal_ok (Nat.lt_succ_self budget) building.navigates building.merged.count_le
          (building.no_borrow native) length.symm
      obtain ⟨merge, sorted, aligned, count_le, main_le⟩ := building.merged
      rw [Option.isNone_none, if_pos rfl]
      refine ⟨_, stepped, ⟨building.chain, ⟨merge, sorted, aligned, count_le, main_le⟩, navigates,
        fun _ => ⟨main, secondary⟩, fun opened => absurd native opened⟩, rfl, rfl, rfl, rfl⟩
  | some cursor =>
      rw [Option.isNone_some, if_neg (by simp)]
      exact stepMerge_ok building (by simp [native])

/-- Finishing yields the index of the whole merge. -/
theorem finish_ok (building : builder.Building target occurrences)
    (whole : builder.count = occurrences.length) :
    ∃ following index, builder.finish = .ok (following, index) ∧
      index.Indexes (target.map Prod.snd) occurrences ∧ index.native = builder.native ∧
      index.secondary = builder.secondary := by
  have active : ¬ builder.finished = true := by simp [building.navigates.unfinished]
  have done : (! builder.done) = false := by simp [building.done_iff.mpr whole]
  have navigates := building.navigates
  obtain ⟨merge, sorted, aligned, count_le, main_le⟩ := building.merged
  have borrowed : ∀ route : ColaTarget, ∃ array : BorrowedArray P,
      builder.borrowed route = array.frames ∧
        array.keys = keysOf occurrences route.origin := by
    intro route
    obtain ⟨entries, frames, keys, retains⟩ := navigates.borrowed route
    rw [whole, List.take_length] at keys
    have keys_sorted : (entries.map Entry.key).Pairwise (· ≤ ·) := by
      rw [keys, keysOf, List.pairwise_map]
      exact (sorted.imp MergeOrder.le).sublist List.filter_sublist
    have size : entries.length ≤ maximum64 := by
      rw [← List.length_map (f := Entry.key), keys]
      exact (length_keysOf_le _ _).trans count_le
    exact ⟨⟨entries, retains, keys_sorted, size⟩, frames, keys⟩
  have flags := navigates.flags
  have cuts := navigates.cuts
  rw [whole, List.take_length] at flags
  rw [whole] at cuts
  rw [finish, if_neg active, done, if_neg (by simp)]
  by_cases partly : builder.width ≠ 0
  · have group_open := navigates.openGroup partly
    have flushed := group_open.flushGroup_ok count_le (.inr whole)
    have rest : builder.count % P.groupSize ≠ 0 := navigates.width ▸ partly
    have count := group_open.count
    rw [closeLast, if_pos partly, flushed, ok_bind]
    refine ⟨_, _, rfl, ⟨merge, sorted, whole, count_le, main_le, aligned, borrowed, ?_, flags,
      cuts⟩, rfl, rfl⟩
    intro route
    dsimp only
    rw [← whole, ceilDiv_of_not_dvd rest, ← count]
  · rw [not_not] at partly
    have rest : builder.count % P.groupSize = 0 := navigates.width ▸ partly
    rw [closeLast, if_neg (not_not.mpr partly), ok_bind]
    refine ⟨_, _, rfl, ⟨merge, sorted, whole, count_le, main_le, aligned, borrowed, ?_, flags,
      cuts⟩, rfl, rfl⟩
    intro route
    dsimp only
    rw [navigates.ranks, ← whole, ceilDiv_of_dvd rest, Nat.div_mul_cancel (Nat.dvd_of_mod_eq_zero rest)]

end Building

/-- Opening a builder within 64-bit counts fixes the merge of its sources. -/
theorem start_ok {native : Shared (NativeArray P)} {main : MainPointer P}
    {secondary : Option (Shared (NativeArray P))} {target : Occurrences}
    (chain : main.Indexes target)
    (fits : native.value.size + main.groupCount + secondaryCount P secondary ≤ maximum64) :
    ∃ builder occurrences, start native main secondary = .ok builder ∧
      builder.Building target occurrences ∧ builder.count = 0 ∧ builder.native = native ∧
      builder.main = main ∧ builder.secondary = secondary := by
  obtain ⟨occurrences, merge⟩ := StableMerge.exists_merge
    (ColaIndex.sources native.value (target.map Prod.snd) secondary)
  have target_facts : target.Pairwise MergeOrder ∧ target.length ≤ maximum64 ∧
      ∀ x ∈ target, P.Aligned x.2 := by
    cases main with
    | nil =>
        have empty : target = [] := chain
        simp [empty]
    | cons node rest =>
        obtain ⟨deeper, -, indexes⟩ := chain
        exact ⟨indexes.sorted, indexes.count_le, indexes.aligned⟩
  obtain ⟨target_sorted, target_le, target_aligned⟩ := target_facts
  have leaf_keys : ∀ leaf, secondary = some leaf → leaf.value.keys.Pairwise (· < ·) ∧
      ∀ key ∈ leaf.value.keys, P.Aligned key := by
    rintro leaf -
    refine ⟨leaf.value.sorted, fun key member => ?_⟩
    obtain ⟨entry, inside, rfl⟩ := List.mem_map.mp member
    exact leaf.value.retains.aligned inside
  have sources_sorted : ∀ origin, (ColaIndex.sources native.value (target.map Prod.snd) secondary
      origin).Pairwise (· ≤ ·) := by
    intro origin
    cases origin with
    | native => exact native.value.sorted.imp le_of_lt
    | main =>
        exact ((List.pairwise_map.mpr (target_sorted.imp MergeOrder.le)).sublist
          (sublist_sample _ _))
    | secondary =>
        cases leaf_eq : secondary with
        | none => simp [ColaIndex.sources]
        | some leaf =>
            exact ((leaf_keys leaf leaf_eq).1.imp le_of_lt).sublist (sublist_sample _ _)
  have aligned : ∀ x ∈ occurrences, P.Aligned x.2 := by
    rintro ⟨origin, key⟩ member
    rw [merge.mem_iff] at member
    cases origin with
    | native =>
        obtain ⟨entry, inside, rfl⟩ := List.mem_map.mp member
        exact native.value.retains.aligned inside
    | main =>
        obtain ⟨x, inside, rfl⟩ := List.mem_map.mp ((sublist_sample _ _).subset member)
        exact target_aligned x inside
    | secondary =>
        have inside := (sublist_sample _ _).subset member
        cases leaf_eq : secondary with
        | none => simp [leaf_eq] at inside
        | some leaf =>
            rw [leaf_eq] at inside
            exact (leaf_keys leaf leaf_eq).2 key inside
  have length := length_of_merge chain merge
  have guarded : main.groupCount ≤ maximum64 - native.value.size ∧
      secondaryCount P secondary ≤ maximum64 - native.value.size - main.groupCount := by
    omega
  obtain ⟨native_cursor, native_ok, native_tracks, -⟩ :=
    ProfileCursor.seek_zero_tracks native.value
  have primary_ok : ∃ primary, openPrimary main = .ok primary ∧
      match primary with
      | none => sample P.groupSize (target.map Prod.snd) = []
      | some cursor => ∃ last rest, cursor.Samples P last rest ∧
          sample P.groupSize (target.map Prod.snd) = sample P.groupSize (rest.map Prod.snd) := by
    cases main with
    | nil =>
        have empty : target = [] := chain
        exact ⟨none, rfl, by simp [empty]⟩
    | cons node rest =>
        obtain ⟨deeper, -, indexes⟩ := chain
        obtain ⟨cursor, bound, samples⟩ := SampleCursor.bind_ok indexes
        exact ⟨some cursor, by rw [openPrimary, bound]; rfl, [], target, samples, rfl⟩
  have secondary_ok : ∃ cursor, openSecondary secondary = .ok cursor ∧
      match cursor with
      | none => ColaIndex.sources native.value (target.map Prod.snd) secondary .secondary = []
      | some cursor => ∃ previous entries, cursor.Tracks P previous entries ∧
          ColaIndex.sources native.value (target.map Prod.snd) secondary .secondary =
            sample P.groupSize (entries.map Entry.key) ∧
          (entries.map Entry.key).Pairwise (· < ·) := by
    cases secondary with
    | none => exact ⟨none, rfl, by simp [ColaIndex.sources]⟩
    | some leaf =>
        obtain ⟨cursor, started, tracks, -⟩ := ProfileCursor.seek_zero_tracks leaf.value
        exact ⟨some cursor, by rw [openSecondary, started]; rfl, [], leaf.value.entries, tracks, rfl,
          leaf.value.sorted⟩
  obtain ⟨primary, primary_opened, primary_holds⟩ := primary_ok
  obtain ⟨leaf_cursor, secondary_opened, secondary_holds⟩ := secondary_ok
  have opened : ∃ cursor, openNative native main secondary = .ok cursor ∧
      (cursor = none → main = [] ∧ secondary = none) ∧
      (cursor ≠ none → cursor = some native_cursor) := by
    unfold openNative
    by_cases closed : (main.isEmpty && secondary.isNone) = true
    · rw [if_pos closed]
      rw [Bool.and_eq_true, List.isEmpty_iff, Option.isNone_iff_eq_none] at closed
      exact ⟨none, rfl, fun _ => closed, by simp⟩
    · rw [if_neg closed, native_ok]
      exact ⟨some native_cursor, rfl, by simp, fun _ => rfl⟩
  obtain ⟨cursor, native_opened, terminal, open_cursor⟩ := opened
  have started : start native main secondary = .ok {
      native, main, secondary
      nativeCursor := cursor
      primaryCursor := primary
      secondaryCursor := leaf_cursor
      borrowed := fun _ => []
      ranks := fun _ => .empty
      flags := fun _ => []
      cuts := fun _ => []
      borrowedCount := fun _ => 0
      cutCommon := fun _ => 0
      population := fun _ => 0
      prefixes := fun _ => 0
      previousLength := 0
      count := 0
      width := 0
      nativeEqual := false
      finished := false } := by
    simp only [start, require_true guarded, ok_bind, native_opened, primary_opened,
      secondary_opened]
  refine ⟨_, occurrences, started, ⟨chain, ⟨merge, merge.sorted sources_sorted, aligned,
    length.le.trans fits, by simpa using target_le⟩, ⟨Nat.zero_le _, ?_, ?_, ?_, ?_, ?_, ?_, rfl⟩,
    terminal, fun live => ⟨⟨_, ⟨⟨native_cursor, [], native.value.entries, open_cursor live,
      native_tracks, rfl, native.value.sorted⟩, primary_holds, secondary_holds⟩, merge, ?_⟩, ?_, ?_,
      by simp, ?_⟩⟩, rfl, rfl, rfl, rfl⟩
  · simp
  · intro route
    simp [RankGroups.empty]
  · intro route
    simp
  · intro route
    simp
  · intro route
    simp [keysOf]
  · intro route
    exact ⟨[], rfl, rfl, trivial⟩
  · intro origin key is_head
    simp [lastKey]
  · simp [lastKey]
  · intro route earlier last
    simp [keysOf] at last
  · intro route
    simp [before, keysOf]

end ColaIndexBuilder

end Everett

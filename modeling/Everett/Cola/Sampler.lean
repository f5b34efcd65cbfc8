import Everett.Cola.Occurrences

/-!
# Sampling a target in order

`cola_sample_cursor` walks the three arrays of a target in merge order and stops at every
`group_size`-th occurrence.  It reports the exact comparison of consecutive samples, accumulated
over the occurrences it passes.
-/

namespace Everett

open Word Outcome

variable (P : StoragePolicy)

/-- `cola_sample_cursor`. -/
structure SampleCursor where
  /-- Cursors over the native and the borrowed arrays of the target. -/
  sources : ColaOrigin → ProfileCursor
  /-- Prefix of the preceding occurrence which each live head shares. -/
  prefixes : ColaOrigin → Nat
  /-- Number of augmented occurrences of the target. -/
  count : Nat
  /-- Ordinal of the current occurrence. -/
  ordinal : Nat

namespace SampleCursor

/-- `done`. -/
def done (cursor : SampleCursor) : Bool := cursor.ordinal = cursor.count

/-- Heads of the live sources. -/
def heads (cursor : SampleCursor) (origin : ColaOrigin) : Option BitString :=
  if (cursor.sources origin).done then none else some (cursor.sources origin).scratch

/-- `choose`. -/
def choose (cursor : SampleCursor) : Result FrontierSelection :=
  chooseFrontier cursor.prefixes cursor.heads

/-- `peek`: the key of the current sample. -/
def peek (cursor : SampleCursor) : Result BitString :=
  if cursor.done then .error "COLA sampler at end"
  else do
    let selection ← cursor.choose
    .ok selection.key

/-- Open a sampler at the first occurrence of a target. -/
def bind (target : ColaIndex P) : Result SampleCursor := do
  target.view
  let native ← ProfileCursor.start P target.native.value.frames
  let main ← ProfileCursor.start P (target.borrowed .main)
  let secondary ← ProfileCursor.start P (target.borrowed .secondary)
  .ok {
    sources := fun
      | .native => native
      | .main => main
      | .secondary => secondary
    prefixes := fun _ => 0
    count := target.virtualSize
    ordinal := 0 }

/-- Step past the selected occurrence. -/
def pass (cursor : SampleCursor) (selection : FrontierSelection) : Result SampleCursor := do
  let (source, next) ← (cursor.sources selection.origin).advanceComparison P
  require (∀ comparison ∈ next, comparison.order = .lt ∨
    (selection.origin ≠ .native ∧ comparison.order = .eq)) "COLA sample source order mismatch"
  .ok { cursor with
    sources := Function.update cursor.sources selection.origin source
    prefixes := Function.update selection.common selection.origin
      ((next.map BitComparison.commonBits).getD 0)
    ordinal := cursor.ordinal + 1 }

/-- The loop of `advance_impl`, keeping the prefix shared with the first occurrence. -/
def passAll : Nat → SampleCursor → FrontierSelection → Nat →
    Result (SampleCursor × FrontierSelection × Nat)
  | 0, cursor, selection, common => .ok (cursor, selection, common)
  | width + 1, cursor, selection, common => do
      let cursor ← cursor.pass P selection
      if cursor.done then passAll width cursor selection common
      else do
        let selection ← cursor.choose
        passAll width cursor selection (min common (cursor.prefixes selection.origin))

/-- `advance_comparison`: step to the next sample, comparing it with the current one. -/
def advanceComparison (cursor : SampleCursor) : Result (SampleCursor × Option BitComparison) :=
  if cursor.done then .error "COLA sampler at end"
  else do
    let selected ← cursor.choose
    let firstLength := selected.common selected.origin
    let width := min P.groupSize (cursor.count - cursor.ordinal)
    let (cursor, selected, common) ← passAll P width cursor selected firstLength
    if cursor.done then .ok (cursor, none)
    else .ok (cursor, some ⟨common,
      if common = firstLength ∧ selected.common selected.origin = firstLength then .eq
      else .lt⟩)

/-- The sampler has reached this part of the merge of its sources, after the given key. -/
structure Samples (cursor : SampleCursor) (last : BitString) (rest : Occurrences) : Prop where
  sources : ∃ (previous : ColaOrigin → BitString) (entries : ColaOrigin → List Entry),
    (∀ origin, (cursor.sources origin).Tracks P (previous origin) (entries origin)) ∧
    (∀ origin, (entries origin).Pairwise fun a b => a.key ≤ b.key) ∧
    (entries .native).Pairwise (fun a b => a.key < b.key) ∧
    (∀ origin, ∀ entry ∈ (entries origin).head?, last ≤ entry.key ∧
      cursor.prefixes origin = lcp last entry.key) ∧
    StableMerge (fun origin => (entries origin).map Entry.key) rest
  count : cursor.ordinal + rest.length = cursor.count

variable {P}

theorem Samples.done_iff {cursor : SampleCursor} {last : BitString} {rest : Occurrences}
    (samples : cursor.Samples P last rest) : cursor.done = true ↔ rest = [] := by
  have count := samples.count
  rw [done, decide_eq_true_iff, ← List.length_eq_zero_iff]
  omega

/-- The sampler selects the current occurrence and knows what every live head shares with it. -/
theorem Samples.choose_ok {cursor : SampleCursor} {last : BitString} {x : ColaOrigin × BitString}
    {rest : Occurrences} (samples : cursor.Samples P last (x :: rest)) :
    ∃ selection, cursor.choose = .ok selection ∧ selection.origin = x.1 ∧ selection.key = x.2 ∧
      selection.Selects cursor.heads [.native, .main, .secondary] := by
  obtain ⟨previous, entries, tracks, -, -, lower, merge⟩ := samples.sources
  have heads : cursor.heads = fun origin => ((entries origin).map Entry.key).head? := by
    funext origin
    have at_head := (tracks origin).2.2
    rw [SampleCursor.heads, ProfileCursor.done_iff (tracks origin)]
    cases remaining : entries origin with
    | nil => rfl
    | cons entry entries =>
        rw [remaining] at at_head
        simp [at_head entry rfl]
  have follows : Follows last cursor.prefixes cursor.heads := by
    intro origin key head
    simp only [heads, List.head?_map] at head
    obtain ⟨entry, first, rfl⟩ := Option.map_eq_some_iff.mp head
    exact lower origin entry first
  cases merge with
  | cons least merge =>
      have live : ∃ origin key, cursor.heads origin = some key := ⟨_, _, by rw [heads]; exact least.1⟩
      obtain ⟨selection, chosen, selects⟩ := chooseFrontier_selects follows live
      obtain ⟨origin, key⟩ := (heads ▸ selects).leastHead.unique least
      exact ⟨selection, chosen, origin, key, selects⟩

theorem Samples.peek_ok {cursor : SampleCursor} {last : BitString} {x : ColaOrigin × BitString}
    {rest : Occurrences} (samples : cursor.Samples P last (x :: rest)) :
    cursor.peek = .ok x.2 := by
  obtain ⟨selection, chosen, -, key, -⟩ := samples.choose_ok
  have live : ¬ cursor.done = true := by simp [samples.done_iff]
  rw [peek, if_neg live, chosen, ok_bind, key]

/-- Passing the selected occurrence reaches the following one. -/
theorem Samples.pass_ok {cursor : SampleCursor} {last : BitString} {x : ColaOrigin × BitString}
    {rest : Occurrences} {selection : FrontierSelection}
    (samples : cursor.Samples P last (x :: rest)) (origin : selection.origin = x.1)
    (key : selection.key = x.2)
    (selects : selection.Selects cursor.heads [.native, .main, .secondary]) :
    ∃ following, cursor.pass P selection = .ok following ∧ following.Samples P x.2 rest ∧
      following.count = cursor.count ∧ following.ordinal = cursor.ordinal + 1 := by
  obtain ⟨previous, entries, tracks, sorted, strict, lower, merge⟩ := samples.sources
  obtain ⟨chosen, word⟩ := x
  dsimp only at origin key
  subst origin key
  cases merge with
  | @cons _ _ _ _ least merge =>
  have head := least.source_eq
  cases remaining : entries selection.origin with
  | nil => simp [remaining] at head
  | cons entry later =>
  have first_key : selection.key = entry.key := by
    rw [remaining, List.map_cons, List.cons.injEq] at head
    exact head.1.symm
  have at_entry := tracks selection.origin
  rw [remaining] at at_entry
  obtain ⟨source, advanced, source_tracks, -⟩ := ProfileCursor.advanceComparison_tracks at_entry
  have source_sorted := sorted selection.origin
  rw [remaining, List.pairwise_cons] at source_sorted
  have ordered : ∀ comparison ∈ later.head?.map fun next => compareCommonBits entry.key next.key,
      comparison.order = .lt ∨ (selection.origin ≠ .native ∧ comparison.order = .eq) := by
    intro comparison member
    obtain ⟨next, is_next, rfl⟩ := Option.map_eq_some_iff.mp member
    have next_member : next ∈ later := List.mem_of_head? is_next
    by_cases native : selection.origin = .native
    · rw [native] at remaining
      rw [remaining, List.pairwise_cons] at strict
      exact .inl (order_eq_lt.mpr (strict.1 next next_member))
    · rcases (source_sorted.1 next next_member).lt_or_eq with less | same
      · exact .inl (order_eq_lt.mpr less)
      · exact .inr ⟨native, order_eq_eq.mpr same⟩
  have heads_eq : ∀ other, other ≠ selection.origin → ∀ next ∈ (entries other).head?,
      cursor.heads other = some next.key := by
    intro other different next is_head
    have at_head := (tracks other).2.2 next is_head
    have nonempty : (entries other).isEmpty = false := by
      cases contents : entries other with
      | nil => simp [contents] at is_head
      | cons => rfl
    rw [SampleCursor.heads, ProfileCursor.done_iff (tracks other), nonempty, at_head]
    rfl
  have all_origins : ∀ other : ColaOrigin, other ∈ [ColaOrigin.native, .main, .secondary] := by
    intro other
    cases other <;> simp
  have passed : cursor.pass P selection = .ok { cursor with
      sources := Function.update cursor.sources selection.origin source
      prefixes := Function.update selection.common selection.origin
        (((later.head?.map fun next => compareCommonBits entry.key next.key).map
          BitComparison.commonBits).getD 0)
      ordinal := cursor.ordinal + 1 } := by
    simp only [pass, advanced, ok_bind, require_true ordered]
  refine ⟨_, passed, ⟨⟨Function.update previous selection.origin entry.key,
      Function.update entries selection.origin later, ?_, ?_, ?_, ?_, ?_⟩, ?_⟩, rfl, rfl⟩
  · intro other
    by_cases same : other = selection.origin
    · subst same
      simpa using source_tracks
    · simpa [Function.update_of_ne same] using tracks other
  · intro other
    by_cases same : other = selection.origin
    · subst same
      simpa using source_sorted.2
    · simpa [Function.update_of_ne same] using sorted other
  · by_cases same : ColaOrigin.native = selection.origin
    · rw [← same] at remaining
      rw [remaining, List.pairwise_cons] at strict
      rw [← same, Function.update_self]
      exact strict.2
    · rwa [Function.update_of_ne same]
  · intro other next is_head
    by_cases same : other = selection.origin
    · subst same
      rw [Function.update_self] at is_head
      simp only [Function.update_self, Option.mem_def.mp is_head, Option.map_some,
        Option.getD_some, compareCommonBits, first_key, and_true]
      exact source_sorted.1 next (List.mem_of_head? is_head)
    · rw [Function.update_of_ne same] at is_head
      have is_live := heads_eq other same next is_head
      simp only [Function.update_of_ne same]
      refine ⟨?_, selects.common other (all_origins other) next.key is_live⟩
      exact (selects.least other (all_origins other) next.key is_live).elim le_of_lt
        fun equal => equal.1.le
  · convert merge using 1
    funext other
    by_cases same : other = selection.origin
    · subst same
      simp [remaining]
    · simp [Function.update_of_ne same]
  · have count := samples.count
    rw [List.length_cons] at count
    dsimp only
    omega

theorem Samples.shares {cursor : SampleCursor} {last : BitString} {x : ColaOrigin × BitString}
    {rest : Occurrences} (samples : cursor.Samples P last (x :: rest)) :
    last ≤ x.2 ∧ cursor.prefixes x.1 = lcp last x.2 := by
  obtain ⟨previous, entries, -, -, -, lower, merge⟩ := samples.sources
  cases merge with
  | @cons _ origin key _ least merge =>
      have head := least.1
      dsimp only at head
      rw [List.head?_map] at head
      obtain ⟨entry, is_head, rfl⟩ := Option.map_eq_some_iff.mp head
      exact lower origin entry is_head

/-- Passing several occurrences keeps the prefix shared with the first of them. -/
theorem Samples.passAll_ok {first : BitString} (width : Nat) {cursor : SampleCursor}
    {last : BitString} {x : ColaOrigin × BitString} {rest : Occurrences}
    {selection : FrontierSelection} {common : Nat} (samples : cursor.Samples P last (x :: rest))
    (origin : selection.origin = x.1) (key : selection.key = x.2)
    (selects : selection.Selects cursor.heads [.native, .main, .secondary])
    (lower : first ≤ x.2) (shared : common = lcp first x.2) (bound : width ≤ rest.length + 1) :
    ∃ following selected shared', passAll P width cursor selection common =
        .ok (following, selected, shared') ∧
      (∃ last, following.Samples P last ((x :: rest).drop width)) ∧
      following.count = cursor.count ∧ following.ordinal = cursor.ordinal + width ∧
      ∀ y ∈ ((x :: rest).drop width).head?, selected.origin = y.1 ∧ selected.key = y.2 ∧
        selected.Selects following.heads [.native, .main, .secondary] ∧ first ≤ y.2 ∧
        shared' = lcp first y.2 := by
  induction width generalizing cursor last x rest selection common with
  | zero =>
      refine ⟨cursor, selection, common, rfl, ⟨last, samples⟩, rfl, rfl, ?_⟩
      rintro y is_head
      cases is_head
      exact ⟨origin, key, selects, lower, shared⟩
  | succ width induction =>
      obtain ⟨passed, pass_ok, passed_samples, count, ordinal⟩ :=
        samples.pass_ok origin key selects
      simp only [passAll, pass_ok, ok_bind]
      cases rest with
      | nil =>
          have done := passed_samples.done_iff.mpr rfl
          obtain rfl : width = 0 := by simpa using bound
          rw [if_pos done]
          exact ⟨passed, selection, common, rfl, ⟨_, passed_samples⟩, count, ordinal, by simp⟩
      | cons y rest =>
          have live : ¬ passed.done = true := by simp [passed_samples.done_iff]
          obtain ⟨next, chosen, next_origin, next_key, next_selects⟩ := passed_samples.choose_ok
          obtain ⟨above, prefix_eq⟩ := passed_samples.shares
          have accumulated : min common (passed.prefixes next.origin) = lcp first y.2 := by
            rw [next_origin, prefix_eq, shared, lcp_sorted lower above]
          rw [if_neg live, chosen, ok_bind]
          obtain ⟨following, selected, shared', ok, samples', count', ordinal', heads⟩ :=
            induction passed_samples next_origin next_key next_selects (lower.trans above)
              accumulated (by simpa using bound)
          exact ⟨following, selected, shared', ok, samples', count'.trans count, by omega, heads⟩

/-- Advancing reaches the next sample and compares it exactly with the current one. -/
theorem Samples.advanceComparison_ok {cursor : SampleCursor} {last : BitString}
    {x : ColaOrigin × BitString} {rest : Occurrences}
    (samples : cursor.Samples P last (x :: rest)) :
    ∃ following, cursor.advanceComparison P = .ok (following,
        ((x :: rest).drop P.groupSize).head?.map fun y => compareCommonBits x.2 y.2) ∧
      ∃ last, following.Samples P last ((x :: rest).drop P.groupSize) := by
  have live : ¬ cursor.done = true := by simp [samples.done_iff]
  obtain ⟨selection, chosen, origin, key, selects⟩ := samples.choose_ok
  have count := samples.count
  rw [List.length_cons] at count
  have common_self : selection.common selection.origin = x.2.length := by
    have same := selects.common selection.origin selects.member selection.key selects.chosen
    rw [same, lcp_self, key]
  obtain ⟨following, selected, common, ok, ⟨last', samples'⟩, -, -, heads⟩ :=
    samples.passAll_ok (min P.groupSize (cursor.count - cursor.ordinal)) origin key selects le_rfl
      (common_self.trans (lcp_self x.2).symm) (by omega)
  have drop_eq : (x :: rest).drop (min P.groupSize (cursor.count - cursor.ordinal)) =
      (x :: rest).drop P.groupSize := by
    rcases Nat.le_total P.groupSize (cursor.count - cursor.ordinal) with le | ge
    · rw [min_eq_left le]
    · rw [min_eq_right ge, List.drop_eq_nil_of_le (by simp; omega),
        List.drop_eq_nil_of_le (by simp; omega)]
  rw [drop_eq] at samples' heads
  simp only [advanceComparison, if_neg live, chosen, ok_bind, ok]
  cases remaining : (x :: rest).drop P.groupSize with
  | nil =>
      rw [remaining] at samples'
      have done := samples'.done_iff.mpr rfl
      exact ⟨following, by simp [done], last', samples'⟩
  | cons y later =>
      rw [remaining] at samples' heads
      have not_done : ¬ following.done = true := by simp [samples'.done_iff]
      obtain ⟨-, selected_key, selected_selects, lower, shared⟩ := heads y rfl
      have selected_self : selected.common selected.origin = y.2.length := by
        have same := selected_selects.common selected.origin selected_selects.member selected.key
          selected_selects.chosen
        rw [same, lcp_self, selected_key]
      have order_eq : (if common = x.2.length ∧ y.2.length = x.2.length then Ordering.eq
          else .lt) = order x.2 y.2 := by
        split
        · rename_i whole
          refine (order_eq_eq.mpr (eq_of_lcp ?_ ?_)).symm
          · rw [← shared, whole.1]
          · rw [← shared, whole.1, whole.2]
        · rename_i partly
          refine (order_eq_lt.mpr (lt_of_le_of_ne lower ?_)).symm
          intro same
          rw [← same, lcp_self] at shared
          exact partly ⟨shared, by rw [same]⟩
      refine ⟨following, ?_, last', samples'⟩
      rw [if_neg not_done, common_self, selected_self, order_eq, shared]
      rfl

/-- A sampler opens at the first occurrence of its target. -/
theorem bind_ok {target : ColaIndex P} {mainKeys : List BitString} {occurrences : Occurrences}
    (indexes : target.Indexes mainKeys occurrences) :
    ∃ cursor, bind P target = .ok cursor ∧ cursor.Samples P [] occurrences := by
  obtain ⟨native, native_ok, native_tracks, -⟩ :=
    ProfileCursor.seek_zero_tracks target.native.value
  obtain ⟨main_array, main_frames, main_keys⟩ := indexes.borrowed .main
  obtain ⟨main, main_ok, main_tracks, -⟩ := ProfileCursor.seek_zero_tracks main_array
  obtain ⟨secondary_array, secondary_frames, secondary_keys⟩ := indexes.borrowed .secondary
  obtain ⟨secondary, secondary_ok, secondary_tracks, -⟩ :=
    ProfileCursor.seek_zero_tracks secondary_array
  have opened : bind P target = .ok {
      sources := fun
        | .native => native
        | .main => main
        | .secondary => secondary
      prefixes := fun _ => 0
      count := target.virtualSize
      ordinal := 0 } := by
    simp only [bind, indexes.view_ok, ok_bind, native_ok, main_frames, main_ok,
      secondary_frames, secondary_ok]
  let entries : ColaOrigin → List Entry := fun
    | .native => target.native.value.entries
    | .main => main_array.entries
    | .secondary => secondary_array.entries
  have entries_keys : ∀ origin : ColaOrigin, (entries origin).map Entry.key =
      ColaIndex.sources target.native.value mainKeys target.secondary origin := by
    intro origin
    cases origin with
    | native => rfl
    | main => exact main_keys.trans (indexes.keysOf_eq .main)
    | secondary => exact secondary_keys.trans (indexes.keysOf_eq .secondary)
  refine ⟨_, opened, ⟨fun _ => [], entries, ?_, ?_, ?_, ?_, ?_⟩, ?_⟩
  · intro origin
    cases origin with
    | native => exact native_tracks
    | main => exact main_tracks
    | secondary => exact secondary_tracks
  · intro origin
    cases origin with
    | native => exact (List.pairwise_map.mp target.native.value.sorted).imp le_of_lt
    | main => exact List.pairwise_map.mp main_array.sorted
    | secondary => exact List.pairwise_map.mp secondary_array.sorted
  · exact List.pairwise_map.mp target.native.value.sorted
  · intro origin entry _
    simp
  · have sources_eq := funext entries_keys
    rw [sources_eq]
    exact indexes.merged
  · dsimp only [ColaIndex.virtualSize]
    rw [indexes.count, Nat.zero_add]

end SampleCursor

end Everett

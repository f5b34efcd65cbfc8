import Everett.Native.Source

/-!
# The predecessor of an encoded source

An encoded source keeps the current key as a stack of literal spans.  However many records it has
passed, and however little of the shared prefixes the frames retain, the stack spells the current
key and every advance compares it exactly with the next one.
-/

namespace Everett

open Word Outcome

variable {P : StoragePolicy}

namespace Span

/-- Every span ends after the span below it, newest first. -/
def Increasing (spans : List Span) : Prop :=
  spans.Pairwise fun above below => below.endUnits < above.endUnits

theorem top_le_of_increasing {span : Span} {spans : List Span} (member : span ∈ spans)
    (increasing : Increasing spans) : span.endUnits ≤ top spans := by
  cases spans with
  | nil => cases member
  | cons first below =>
      rcases List.mem_cons.mp member with rfl | later
      · exact le_rfl
      · exact (List.rel_of_pairwise_cons increasing later).le

theorem Sound.increasing {spans : List Span} (sound : Sound P spans) : Increasing spans := by
  induction spans with
  | nil => exact List.Pairwise.nil
  | cons span below induction =>
      obtain ⟨below_sound, longer, -⟩ := sound
      have below_increasing := induction below_sound
      refine List.Pairwise.cons (fun deeper member => ?_) below_increasing
      exact (top_le_of_increasing member below_increasing).trans_lt longer

end Span

/-- How each key compares with the next one; the last has none. -/
def successiveComparisons : List BitString → List (Option BitComparison)
  | [] => []
  | [_] => [none]
  | key :: next :: rest => some (compareCommonBits key next) :: successiveComparisons (next :: rest)

theorem successiveComparisons_cons (key : BitString) (rest : List BitString) :
    successiveComparisons (key :: rest) =
      rest.head?.map (compareCommonBits key) :: successiveComparisons rest := by
  cases rest <;> rfl

namespace EncodedSource

variable (P) in
/-- Advance a source some records further, noting the comparisons. -/
def advances : Nat → EncodedSource → Result (EncodedSource × List (Option BitComparison))
  | 0, source => .ok (source, [])
  | count + 1, source => do
      let (source, comparison) ← source.advanceComparison P
      let (source, comparisons) ← advances count source
      .ok (source, comparison :: comparisons)

/-- Advancing keeps a stack of nonempty spans, also past the last record. -/
theorem sound_of_advance {source following : EncodedSource} {previous : BitString}
    {entry : Entry} {entries : List Entry} {comparison : Option BitComparison}
    (tracks : source.Tracks (P := P) previous (entry :: entries))
    (advanced : source.advanceComparison P = .ok (following, comparison))
    (after : following.Tracks (P := P) entry.key entries) : Span.Sound P following.spans := by
  cases entries with
  | cons next rest => exact (after.2.2 next rfl).1
  | nil =>
      rw [advanceComparison, tracks.1] at advanced
      cases advanced
      exact (tracks.2.2 entry rfl).1

/-- A source over sorted entries advances to each of them. -/
theorem advances_ok (count : Nat) {source : EncodedSource} {previous : BitString}
    {entries : List Entry} (tracks : source.Tracks (P := P) previous entries)
    (sound : Span.Sound P source.spans) (sorted : (entries.map Entry.key).Pairwise (· < ·))
    (within : count ≤ entries.length) :
    ∃ following last, advances P count source =
        .ok (following, (successiveComparisons (entries.map Entry.key)).take count) ∧
      following.Tracks (P := P) last (entries.drop count) ∧ Span.Sound P following.spans := by
  induction count generalizing source previous entries with
  | zero => exact ⟨source, previous, rfl, tracks, sound⟩
  | succ count induction =>
      cases entries with
      | nil => cases within
      | cons entry entries =>
          rw [List.map_cons, List.pairwise_cons] at sorted
          have next_later : ∀ next ∈ entries.head?, entry.key < next.key := fun next is_next =>
            sorted.1 next.key (List.mem_map_of_mem (List.mem_of_mem_head? is_next))
          obtain ⟨following, advanced, after⟩ := advanceComparison_tracks tracks next_later
          have still_sound := sound_of_advance tracks advanced after
          obtain ⟨final, last, ran, at_end, end_sound⟩ :=
            induction after still_sound sorted.2 (Nat.le_of_succ_le_succ within)
          refine ⟨final, last, ?_, at_end, end_sound⟩
          have compared : (entries.map Entry.key).head?.map (compareCommonBits entry.key) =
              entries.head?.map fun next => compareCommonBits entry.key next.key := by
            rw [List.head?_map, Option.map_map]
            rfl
          rw [advances, advanced, ok_bind]
          dsimp only
          rw [ran, ok_bind, List.map_cons, successiveComparisons_cons, compared,
            List.take_succ_cons]

end EncodedSource

/-- After any number of advances over a front-coded array, the span stack of an encoded source has
increasing ends and spells the current key, and every advance has compared consecutive keys. -/
theorem span_stack_predecessor (array : NativeArray P) (count : Fin (array.size + 1)) :
    ∃ source, EncodedSource.advances P count (EncodedSource.start P array.frames) =
        .ok (source, (successiveComparisons array.keys).take count) ∧
      source.frames = array.frames.drop count ∧ Span.Increasing source.spans ∧
      ∀ key ∈ array.keys[count.val]?, Span.materialize P source.spans = key := by
  have tracks := EncodedSource.start_tracks array
  have opened : Span.Sound P (EncodedSource.start P array.frames).spans := by
    cases entries : array.entries with
    | nil =>
        have no_frames : array.frames = [] := by rw [ProfileArray.frames, entries]; rfl
        rw [no_frames]
        trivial
    | cons entry rest =>
        have at_first := tracks.2.2 entry
        rw [entries] at at_first
        exact (at_first rfl).1
  obtain ⟨source, last, ran, after, sound⟩ := EncodedSource.advances_ok count.val tracks opened
    array.sorted (Nat.le_of_lt_succ count.isLt)
  refine ⟨source, ran, ?_, sound.increasing, fun key found => ?_⟩
  · rw [after.1, ProfileArray.frames, List.map_drop]
  · have here : (array.entries[count.val]?).map Entry.key = some key := by
      rw [← List.getElem?_map]
      exact found
    obtain ⟨entry, is_entry, rfl⟩ := Option.map_eq_some_iff.mp here
    have head : entry ∈ (array.entries.drop count.val).head? := by
      rw [List.head?_drop]
      exact is_entry
    exact (after.2.2 entry head).2

end Everett

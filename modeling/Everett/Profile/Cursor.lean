import Everett.Profile.Frame

/-!
# Sequential cursors over frames

`profile_cursor` reconstructs one key at a time.  Advancing compares the old and the new key from
the retained prefix onward, before the old key is overwritten.
-/

namespace Everett

open Word Outcome

variable (P : StoragePolicy)

/-- `profile_cursor`: the frames from the current one on, and the current key. -/
structure ProfileCursor where
  /-- Current and following frames; empty at the end. -/
  frames : List Frame
  /-- Key of the current frame. -/
  scratch : BitString
  /-- Ordinal of the current frame. -/
  ordinal : Nat

/-- Comparison of the current key with the one a following frame stands for. -/
def successorComparison (previous : BitString) (next : Frame) : BitComparison :=
  let retained := next.retainedBits P
  if retained = previous.length ∨ next.suffix = [] then
    ⟨retained, if retained ≠ previous.length then .gt else if next.suffix = [] then .eq else .lt⟩
  else
    let before := (previous.drop retained).take P.bitsPerUnit
    let after := next.suffix.take P.bitsPerUnit
    if before ≠ after then ⟨retained + lcp before after, order before after⟩
    else
      let suffix := compareCommonBits (previous.drop retained) next.suffix
      ⟨retained + suffix.commonBits, suffix.order⟩

namespace ProfileCursor

/-- Open a cursor at an ordinal, the query supplying the prefix the first frame inherits. -/
def seek (frames : List Frame) (ordinal : Nat) (query : BitString) : Result ProfileCursor :=
  if frames.length < ordinal then .error "profile cursor ordinal"
  else match frames.drop ordinal with
    | [] => .ok ⟨[], [], ordinal⟩
    | frame :: rest =>
        if query.length < frame.retainedBits P then .error "profile cursor missing query prefix"
        else do
          let scratch ← decodeInto P frame (query.take (frame.retainedBits P))
          .ok ⟨frame :: rest, scratch, ordinal⟩

/-- `cursor()`: open at the first record. -/
def start (frames : List Frame) : Result ProfileCursor := seek P frames 0 []

/-- `done()`. -/
def done (cursor : ProfileCursor) : Bool := cursor.frames.isEmpty

/-- `advance_comparison()`: step to the next record, comparing the two keys. -/
def advanceComparison (cursor : ProfileCursor) : Result (ProfileCursor × Option BitComparison) :=
  match cursor.frames with
  | [] => .error "profile cursor at end"
  | [_] => .ok (⟨[], cursor.scratch, cursor.ordinal + 1⟩, none)
  | frame :: next :: rest =>
      if frame.keyUnits P < next.retained then
        .error "profile retained prefix exceeds predecessor"
      else do
        let comparison := successorComparison P cursor.scratch next
        let scratch ← decodeInto P next cursor.scratch
        .ok (⟨next :: rest, scratch, cursor.ordinal + 1⟩, some comparison)

/-- The cursor stands at the first of the remaining entries and knows its key. -/
def Tracks (cursor : ProfileCursor) (previous : BitString) (entries : List Entry) : Prop :=
  cursor.frames = entries.map (Entry.frame P) ∧ Retains P previous entries ∧
    ∀ entry ∈ entries.head?, cursor.scratch = entry.key

end ProfileCursor

variable {P}

theorem successorComparison_frame {previous : BitString} {entry : Entry}
    (aligned : P.Aligned previous) (entry_aligned : P.Aligned entry.key)
    (shares : entry.retained * P.bitsPerUnit ≤ lcp previous entry.key) :
    successorComparison P previous (entry.frame P) = compareCommonBits previous entry.key := by
  have common := lcp_drop shares
  have ordered := order_drop shares
  set retained := entry.retained * P.bitsPerUnit with retained_eq
  have previous_le := shares.trans (lcp_le_left _ _)
  have key_le := shares.trans (lcp_le_right _ _)
  have bits : (entry.frame P).retainedBits P = retained := rfl
  have suffix : (entry.frame P).suffix = entry.key.drop retained := rfl
  have whole_comparison : compareCommonBits previous entry.key =
      ⟨retained + lcp (previous.drop retained) (entry.key.drop retained),
        order (previous.drop retained) (entry.key.drop retained)⟩ := by
    rw [compareCommonBits, common, ordered]
  rw [whole_comparison]
  simp only [successorComparison, compareCommonBits, bits, suffix]
  by_cases ends : retained = previous.length ∨ entry.key.drop retained = []
  · rw [if_pos ends]
    by_cases whole : retained = previous.length
    · have rest : previous.drop retained = [] := List.drop_eq_nil_of_le whole.ge
      rw [rest]
      cases remaining : entry.key.drop retained <;> simp [whole, order]
    · have rest : entry.key.drop retained = [] := ends.resolve_left whole
      rw [rest]
      have longer : previous.drop retained ≠ [] := by
        rw [ne_eq, List.drop_eq_nil_iff]
        omega
      cases remaining : previous.drop retained with
      | nil => exact absurd remaining longer
      | cons bit bits => simp [whole, order]
  · rw [if_neg ends]
    have inside := not_or.mp ends
    by_cases differ : (previous.drop retained).take P.bitsPerUnit ≠
        (entry.key.drop retained).take P.bitsPerUnit
    · rw [if_pos differ]
      have unit_divides : ∀ word : BitString, P.Aligned word → retained ≤ word.length →
          retained ≠ word.length → P.bitsPerUnit ≤ (word.drop retained).length := by
        intro word word_aligned within strict
        rw [List.length_drop]
        refine Nat.le_of_dvd (by omega) (Nat.dvd_sub word_aligned ?_)
        exact Dvd.intro_left _ rfl
      have before := unit_divides previous aligned previous_le inside.1
      have after := unit_divides entry.key entry_aligned key_le (by
        intro whole
        exact inside.2 (List.drop_eq_nil_of_le whole.ge))
      have blocks := append_of_ne differ (by simp only [List.length_take]; omega)
        ((previous.drop retained).drop P.bitsPerUnit)
        ((entry.key.drop retained).drop P.bitsPerUnit)
      rw [List.take_append_drop, List.take_append_drop] at blocks
      rw [blocks.1, blocks.2]
    · rw [if_neg differ]

namespace ProfileCursor

theorem seek_zero_tracks {related : BitString → BitString → Prop}
    (array : ProfileArray P related) :
    ∃ cursor, start P array.frames = .ok cursor ∧ cursor.Tracks P [] array.entries ∧
      cursor.ordinal = 0 := by
  have retains := array.retains
  unfold start seek
  simp only [Nat.not_lt_zero, if_false, List.drop_zero, ProfileArray.frames]
  cases entries : array.entries with
  | nil => exact ⟨⟨[], [], 0⟩, rfl, ⟨rfl, trivial, by simp⟩, rfl⟩
  | cons entry rest =>
      rw [entries] at retains
      have shares : entry.retained * P.bitsPerUnit = 0 := by
        simpa using retains.1
      have literal : (entry.frame P).retainedBits P = 0 := shares
      have decoded : decodeInto P (entry.frame P) [] = .ok entry.key := decodeInto_frame (by simp [shares])
      refine ⟨⟨(entry :: rest).map (Entry.frame P), entry.key, 0⟩, ?_, ⟨rfl, retains, by simp⟩, rfl⟩
      simp [literal, decoded]

/-- Advancing yields the exact comparison of consecutive keys and never fails. -/
theorem advanceComparison_tracks {cursor : ProfileCursor} {previous : BitString} {entry : Entry}
    {entries : List Entry} (tracks : cursor.Tracks P previous (entry :: entries)) :
    ∃ following, cursor.advanceComparison P =
        .ok (following, entries.head?.map fun next => compareCommonBits entry.key next.key) ∧
      following.Tracks P entry.key entries ∧ following.ordinal = cursor.ordinal + 1 := by
  obtain ⟨frames_eq, retains, at_key⟩ := tracks
  have scratch : cursor.scratch = entry.key := at_key entry (by simp)
  unfold advanceComparison
  cases entries with
  | nil =>
      rw [frames_eq]
      exact ⟨_, rfl, ⟨rfl, trivial, by simp⟩, rfl⟩
  | cons next rest =>
      obtain ⟨shares, aligned, later⟩ := retains
      have fits : ¬ (entry.frame P).keyUnits P < (next.frame P).retained := by
        rw [frame_keyUnits shares, Nat.not_lt, StoragePolicy.units,
          Nat.le_div_iff_mul_le P.bitsPerUnit_pos]
        exact later.1.trans (lcp_le_left _ _)
      rw [frames_eq]
      simp only [List.map_cons, fits, if_false, scratch, decodeInto_frame later.1, ok_bind,
        successorComparison_frame aligned later.2.1 later.1]
      exact ⟨_, rfl, ⟨by simp, later, by simp⟩, rfl⟩

theorem done_iff {cursor : ProfileCursor} {previous : BitString} {entries : List Entry}
    (tracks : cursor.Tracks P previous entries) : cursor.done = entries.isEmpty := by
  simp [done, tracks.1]

end ProfileCursor

end Everett

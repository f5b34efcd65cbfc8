import Everett.Native.Writer

/-!
# Input cursors of a merge

A key-aware composition needs complete keys, so its inputs are read through materialising cursors.
Otherwise the preceding key is kept as a stack of literal spans, each of which ends where the next
one starts, and consecutive keys are compared without copying an inherited prefix.
-/

namespace Everett

open Word Outcome

variable (P : StoragePolicy)

/-- `bit_view::subview` from a position to the end. -/
def subviewFrom (bits : BitString) (first : Nat) : Result BitString := do
  require (first ≤ bits.length) "bit subview"
  .ok (bits.drop first)

/-- A span of a key: literal bits from the end of the span below to its own end. -/
structure Span where
  /-- Literal bits from the start of the span. -/
  literal : BitString
  /-- Unit position in the key where the span ends. -/
  endUnits : Nat

namespace Span

/-- Unit position where a stack of spans ends, newest first. -/
def top : List Span → Nat
  | [] => 0
  | span :: _ => span.endUnits

/-- `materialize`: the key which a stack of spans spells. -/
def materialize : List Span → BitString
  | [] => []
  | span :: below =>
      materialize below ++ span.literal.take ((span.endUnits - top below) * P.bitsPerUnit)

/-- The part of `retain` which truncates the stack to the retained prefix. -/
def truncate (retained : Nat) : List Span → List Span
  | [] => []
  | span :: below =>
      if retained ≤ top below then truncate retained below
      else { span with endUnits := min span.endUnits retained } :: below

/-- `retain`: replace everything past the retained prefix by the literal of a frame. -/
def retain (frame : Frame) (spans : List Span) : List Span :=
  if frame.suffix = [] then truncate frame.retained spans
  else ⟨frame.suffix, frame.keyUnits P⟩ :: truncate frame.retained spans

/-- Literal bits of the key past the retained prefix, by span, oldest first. -/
def fragments (retained : Nat) : List Span → List BitString
  | [] => []
  | span :: below =>
      if span.endUnits ≤ retained then []
      else fragments retained below ++
        [(span.literal.drop ((retained - top below) * P.bitsPerUnit)).take
          ((span.endUnits - max retained (top below)) * P.bitsPerUnit)]

/-- The fragment walk of `compare_successor` after `compared` equal bits. -/
def compareFragments (remaining : Nat) (suffix : BitString) :
    (compared : Nat) → List BitString → BitComparison
  | compared, [] => ⟨compared, compare remaining suffix.length⟩
  | compared, fragment :: rest =>
      if compared = suffix.length then ⟨compared, compare remaining suffix.length⟩
      else
        let count := min fragment.length (suffix.length - compared)
        let result := compareCommonBits (fragment.take count) ((suffix.drop compared).take count)
        if result.order ≠ .eq then ⟨compared + result.commonBits, result.order⟩
        else compareFragments remaining suffix (compared + count) rest

/-- `compare_successor`: compare the spelled key with the one a frame puts in its place. -/
def compareSuccessor (spans : List Span) (next : Frame) : BitComparison :=
  let crossed := fragments P next.retained spans
  let walk := compareFragments ((top spans - next.retained) * P.bitsPerUnit) next.suffix 0 crossed
  let slow := ⟨next.retainedBits P + walk.commonBits, walk.order⟩
  match crossed with
  | [] => slow
  | fragment :: _ =>
      -- Ordinary front coding differs in the first remaining unit.
      let before := fragment.take P.bitsPerUnit
      let after := next.suffix.take P.bitsPerUnit
      if next.suffix ≠ [] ∧ before ≠ after then
        ⟨next.retainedBits P + lcp before after, order before after⟩
      else slow

end Span

/-- `encoded_source`. -/
structure EncodedSource where
  /-- Current and following frames; empty at the end. -/
  frames : List Frame
  /-- Spans which spell the current key, newest first. -/
  spans : List Span

namespace EncodedSource

/-- Open a source at its first record. -/
def start (frames : List Frame) : EncodedSource :=
  match frames with
  | [] => ⟨[], []⟩
  | frame :: _ => ⟨frames, Span.retain P frame []⟩

/-- `advance_comparison()`. -/
def advanceComparison (source : EncodedSource) : Result (EncodedSource × Option BitComparison) :=
  match source.frames with
  | [] => .error "encoded profile cursor at end"
  | [_] => .ok (⟨[], source.spans⟩, none)
  | frame :: next :: rest => do
      require (next.retained ≤ frame.keyUnits P) "profile retained prefix exceeds predecessor"
      let result := Span.compareSuccessor P source.spans next
      require (result.order = .lt) "native merge inputs must have unique sorted keys"
      .ok (⟨next :: rest, Span.retain P next source.spans⟩, some result)

end EncodedSource

/-- `cursor_type` of a merge. -/
inductive MergeSource
  | encoded (source : EncodedSource)
  | materialized (cursor : ProfileCursor)

namespace MergeSource

/-- Current and following frames. -/
def frames : MergeSource → List Frame
  | encoded source => source.frames
  | materialized cursor => cursor.frames

/-- `done()`. -/
def done (source : MergeSource) : Bool := source.frames.isEmpty

/-- `peek()`. -/
def peek (source : MergeSource) : Result Frame :=
  match source.frames with
  | [] => .error "profile cursor at end"
  | frame :: _ => .ok frame

/-- The complete current key, which an encoded source has to materialise. -/
def key : MergeSource → BitString
  | encoded source => Span.materialize P source.spans
  | materialized cursor => cursor.scratch

/-- Open a source, materialising its keys if the composition reads them. -/
def start (keyAware : Bool) (frames : List Frame) : Result MergeSource :=
  if keyAware then materialized <$> ProfileCursor.start P frames
  else .ok (encoded (EncodedSource.start P frames))

/-- `suffix`: what follows a retained prefix in the current key. -/
def suffix (source : MergeSource) (retained : Nat) : Result BitString :=
  match source with
  | encoded _ => do
      let item ← source.peek
      require (item.retained ≤ retained) "native merge output prefix precedes input prefix"
      subviewFrom item.suffix ((retained - item.retained) * P.bitsPerUnit)
  | materialized cursor => subviewFrom cursor.scratch (retained * P.bitsPerUnit)

/-- `advance_comparison()`. -/
def advanceComparison : MergeSource → Result (MergeSource × Option BitComparison)
  | encoded source => do
      let (source, next) ← source.advanceComparison P
      .ok (encoded source, next)
  | materialized cursor => do
      let (cursor, next) ← cursor.advanceComparison P
      .ok (materialized cursor, next)

end MergeSource

variable {P}

/-! ## Spans spell keys -/

/-- Every span of a stack is nonempty and has its literal bits. -/
def Span.Sound (P : StoragePolicy) : List Span → Prop
  | [] => True
  | span :: below => Span.Sound P below ∧ top below < span.endUnits ∧
      (span.endUnits - top below) * P.bitsPerUnit ≤ span.literal.length

namespace Span

theorem Sound.length_materialize {spans : List Span} (sound : Sound P spans) :
    (materialize P spans).length = top spans * P.bitsPerUnit := by
  induction spans with
  | nil => simp [materialize, top]
  | cons span below induction =>
      obtain ⟨below_sound, longer, enough⟩ := sound
      rw [materialize, List.length_append, induction below_sound, List.length_take,
        Nat.min_eq_left enough, ← Nat.add_mul, top, Nat.add_sub_cancel' longer.le]

/-- Truncating a stack keeps the retained prefix of its key. -/
theorem Sound.truncate_ok {spans : List Span} (sound : Sound P spans) {retained : Nat}
    (within : retained ≤ top spans) : Sound P (truncate retained spans) ∧
      top (truncate retained spans) = retained ∧
      materialize P (truncate retained spans) =
        (materialize P spans).take (retained * P.bitsPerUnit) := by
  induction spans with
  | nil =>
      have zero : retained = 0 := by simpa [top] using within
      simp [truncate, Sound, top, materialize, zero]
  | cons span below induction =>
      obtain ⟨below_sound, longer, enough⟩ := sound
      have length := below_sound.length_materialize
      rw [truncate]
      split
      · rename_i inside
        obtain ⟨kept, kept_top, kept_key⟩ := induction below_sound inside
        refine ⟨kept, kept_top, ?_⟩
        rw [kept_key, materialize, List.take_append_of_le_length]
        rw [length]
        exact Nat.mul_le_mul_right _ inside
      · rename_i outside
        have shortened : min span.endUnits retained = retained := Nat.min_eq_right within
        have part : (retained - top below) * P.bitsPerUnit ≤
            (span.endUnits - top below) * P.bitsPerUnit :=
          Nat.mul_le_mul_right _ (Nat.sub_le_sub_right within _)
        refine ⟨⟨below_sound, ?_, ?_⟩, ?_, ?_⟩
        · rw [shortened]
          exact Nat.not_le.mp outside
        · rw [shortened]
          exact part.trans enough
        · simp [top, shortened]
        · have below_le : top below * P.bitsPerUnit ≤ retained * P.bitsPerUnit :=
            Nat.mul_le_mul_right _ (Nat.not_le.mp outside).le
          simp only [materialize, shortened]
          rw [List.take_append, List.take_of_length_le (length.trans_le below_le), length,
            ← Nat.sub_mul, List.take_take, Nat.min_eq_left part]

/-- Replacing everything past the retained prefix by a literal spells the framed key. -/
theorem Sound.retain_ok {spans : List Span} (sound : Sound P spans) {frame : Frame}
    (within : frame.retained ≤ top spans) (aligned : P.Aligned frame.suffix) :
    Sound P (retain P frame spans) ∧ materialize P (retain P frame spans) =
      (materialize P spans).take (frame.retainedBits P) ++ frame.suffix := by
  obtain ⟨kept, kept_top, kept_key⟩ := sound.truncate_ok within
  unfold retain
  split
  · rename_i bare
    exact ⟨kept, by simp [bare, kept_key, Frame.retainedBits]⟩
  · rename_i literal
    have units := P.units_mul aligned
    have some_units : 0 < P.units frame.suffix := by
      rw [Nat.pos_iff_ne_zero]
      intro none
      rw [none, Nat.zero_mul] at units
      exact literal (List.length_eq_zero_iff.mp units.symm)
    have whole : (frame.keyUnits P - frame.retained) * P.bitsPerUnit = frame.suffix.length := by
      rw [Frame.keyUnits, Nat.add_sub_cancel_left, units]
    refine ⟨⟨kept, ?_, ?_⟩, ?_⟩
    · rw [kept_top]
      exact Nat.lt_add_of_pos_right some_units
    · rw [kept_top, whole]
    · rw [materialize, kept_top, whole, List.take_length, kept_key, Frame.retainedBits]

theorem Sound.flatten_fragments {spans : List Span} (sound : Sound P spans) (retained : Nat) :
    (fragments P retained spans).flatten =
      (materialize P spans).drop (retained * P.bitsPerUnit) := by
  induction spans with
  | nil => simp [fragments, materialize]
  | cons span below induction =>
      have length := sound.length_materialize
      obtain ⟨below_sound, longer, enough⟩ := sound
      have below_length := below_sound.length_materialize
      rw [fragments]
      split
      · rename_i covered
        rw [List.flatten_nil, List.drop_eq_nil_of_le]
        rw [length]
        exact Nat.mul_le_mul_right _ covered
      · rw [List.flatten_append, induction below_sound, materialize, List.drop_append,
          below_length, ← Nat.sub_mul, List.drop_take, ← Nat.sub_mul]
        have extent : span.endUnits - max retained (top below) =
            span.endUnits - top below - (retained - top below) := by omega
        simp [extent]

theorem fragments_ne_nil {spans : List Span} {retained : Nat} {fragment : BitString}
    (sound : Sound P spans) (member : fragment ∈ fragments P retained spans) :
    P.bitsPerUnit ≤ fragment.length := by
  induction spans with
  | nil => cases member
  | cons span below induction =>
      obtain ⟨below_sound, longer, enough⟩ := sound
      rw [fragments] at member
      split at member
      · cases member
      · rename_i beyond
        rcases List.mem_append.mp member with early | last
        · exact induction below_sound early
        · rw [List.mem_singleton.mp last, List.length_take, List.length_drop]
          have some_units : 1 ≤ span.endUnits - max retained (top below) := by omega
          have available : (span.endUnits - max retained (top below)) * P.bitsPerUnit ≤
              span.literal.length - (retained - top below) * P.bitsPerUnit := by
            have extent : span.endUnits - top below =
                (span.endUnits - max retained (top below)) + (retained - top below) := by omega
            rw [extent, Nat.add_mul] at enough
            omega
          have unit := Nat.mul_le_mul_right P.bitsPerUnit some_units
          omega

/-- The walk compares the whole rest of the key with the whole literal. -/
theorem compareFragments_eq {remaining : Nat} {suffix : BitString} {pieces : List BitString}
    {compared : Nat} (within : compared ≤ suffix.length)
    (size : remaining = compared + pieces.flatten.length) :
    compareFragments remaining suffix compared pieces =
      ⟨compared + lcp pieces.flatten (suffix.drop compared),
        order pieces.flatten (suffix.drop compared)⟩ := by
  induction pieces generalizing compared with
  | nil =>
      simp only [compareFragments, List.flatten_nil, List.length_nil, Nat.add_zero] at size ⊢
      rw [lcp_nil_left, size]
      cases rest : suffix.drop compared with
      | nil =>
          have whole : compared = suffix.length :=
            le_antisymm within (List.drop_eq_nil_iff.mp rest)
          simp [whole, order]
      | cons bit bits =>
          have less : compared < suffix.length := by
            by_contra all
            rw [List.drop_eq_nil_of_le (Nat.not_lt.mp all)] at rest
            cases rest
          simp [order, compare_lt_iff_lt, less]
  | cons fragment rest induction =>
      rw [List.flatten_cons, List.length_append] at size
      rw [compareFragments, List.flatten_cons]
      split
      · rename_i whole
        subst whole
        rw [List.drop_length, lcp_nil_right]
        cases pieces : fragment ++ rest.flatten with
        | nil =>
            have none := congrArg List.length pieces
            rw [List.length_append, List.length_nil] at none
            have equal : remaining = suffix.length := by omega
            simp [order, equal]
        | cons bit bits =>
            have some := congrArg List.length pieces
            rw [List.length_append, List.length_cons] at some
            have more : suffix.length < remaining := by omega
            simp [order, compare_gt_iff_gt, more]
      · rename_i partial_literal
        set count := min fragment.length (suffix.length - compared) with count_eq
        have left_size : (fragment.take count).length = count := by
          rw [List.length_take]
          omega
        have right_size : ((suffix.drop compared).take count).length = count := by
          rw [List.length_take, List.length_drop]
          omega
        have split_left : fragment ++ rest.flatten =
            fragment.take count ++ (fragment.drop count ++ rest.flatten) := by
          rw [← List.append_assoc, List.take_append_drop]
        have split_right : suffix.drop compared =
            (suffix.drop compared).take count ++ (suffix.drop compared).drop count :=
          (List.take_append_drop _ _).symm
        by_cases agree : (compareCommonBits (fragment.take count)
            ((suffix.drop compared).take count)).order = .eq
        rotate_left
        · rw [if_pos agree, compareCommonBits]
          have ne : fragment.take count ≠ (suffix.drop compared).take count := fun equal =>
            agree (order_eq_eq.mpr equal)
          have blocks := append_of_ne ne (left_size.trans right_size.symm)
            (fragment.drop count ++ rest.flatten) ((suffix.drop compared).drop count)
          rw [← split_left, ← split_right] at blocks
          rw [blocks.1, blocks.2]
        · rw [if_neg (not_not.mpr agree)]
          have equal : fragment.take count = (suffix.drop compared).take count :=
            order_eq_eq.mp agree
          have shared : count ≤ lcp (fragment ++ rest.flatten) (suffix.drop compared) := by
            rw [le_lcp_iff]
            refine ⟨by rw [List.length_append]; omega, by rw [List.length_drop]; omega, ?_⟩
            rw [List.take_append_of_le_length (by omega), equal]
          rw [lcp_drop shared, order_drop shared, List.drop_drop]
          by_cases ends : fragment.length ≤ suffix.length - compared
          · have all : count = fragment.length := by omega
            rw [induction (by omega) (by omega), List.drop_append_of_le_length (by omega), all,
              List.drop_length, List.nil_append]
            simp only [BitComparison.mk.injEq, and_true]
            omega
          · -- The literal ends inside this fragment, so the walk stops at the next one.
            have exhausted : compared + count = suffix.length := by omega
            have more : suffix.length < remaining := by omega
            have left : (fragment ++ rest.flatten).drop count ≠ [] := by
              rw [ne_eq, List.drop_eq_nil_iff, List.length_append]
              omega
            rw [exhausted, List.drop_length, lcp_nil_right]
            have stops : compareFragments remaining suffix suffix.length rest =
                ⟨suffix.length, compare remaining suffix.length⟩ := by
              cases rest <;> simp [compareFragments]
            rw [stops]
            cases remains : (fragment ++ rest.flatten).drop count with
            | nil => exact absurd remains left
            | cons bit bits =>
                simp only [order, compare_gt_iff_gt.mpr more, BitComparison.mk.injEq, and_true]
                omega

/-- Spans are compared exactly with the key which a frame puts in their place. -/
theorem Sound.compareSuccessor_eq {spans : List Span} (sound : Sound P spans) {next : Frame}
    (within : next.retained ≤ top spans) (aligned : P.Aligned next.suffix) :
    compareSuccessor P spans next = compareCommonBits (materialize P spans)
      ((materialize P spans).take (next.retainedBits P) ++ next.suffix) := by
  have length := sound.length_materialize
  have flat := sound.flatten_fragments next.retained
  set key := materialize P spans with key_eq
  have bits : next.retainedBits P = next.retained * P.bitsPerUnit := rfl
  have inside : next.retainedBits P ≤ key.length := by
    rw [length]
    exact Nat.mul_le_mul_right _ within
  have shared : next.retainedBits P ≤ lcp key (key.take (next.retainedBits P) ++ next.suffix) := by
    rw [le_lcp_iff]
    refine ⟨inside, by rw [List.length_append, List.length_take]; omega, ?_⟩
    rw [List.take_append_of_le_length (by rw [List.length_take]; omega), List.take_take,
      Nat.min_self]
  have rest : (key.take (next.retainedBits P) ++ next.suffix).drop (next.retainedBits P) =
      next.suffix := by
    rw [List.drop_append_of_le_length (by rw [List.length_take]; omega),
      List.drop_eq_nil_of_le (by rw [List.length_take]; omega), List.nil_append]
  have whole : compareCommonBits key (key.take (next.retainedBits P) ++ next.suffix) =
      ⟨next.retainedBits P + lcp (fragments P next.retained spans).flatten next.suffix,
        order (fragments P next.retained spans).flatten next.suffix⟩ := by
    rw [compareCommonBits, lcp_drop shared, order_drop shared, rest, flat, bits]
  have walked : compareFragments ((top spans - next.retained) * P.bitsPerUnit) next.suffix 0
      (fragments P next.retained spans) =
      ⟨lcp (fragments P next.retained spans).flatten next.suffix,
        order (fragments P next.retained spans).flatten next.suffix⟩ := by
    have size : (top spans - next.retained) * P.bitsPerUnit =
        0 + (fragments P next.retained spans).flatten.length := by
      rw [flat, List.length_drop, length, Nat.sub_mul, Nat.zero_add]
    rw [compareFragments_eq (Nat.zero_le _) size]
    simp
  rw [whole]
  unfold compareSuccessor
  simp only [walked]
  cases crossed : fragments P next.retained spans with
  | nil => rfl
  | cons fragment others =>
      simp only
      split
      · rename_i differ
        have unit_left : P.bitsPerUnit ≤ fragment.length :=
          fragments_ne_nil sound (crossed ▸ List.mem_cons_self)
        have unit_right : P.bitsPerUnit ≤ next.suffix.length :=
          Nat.le_of_dvd (List.length_pos_iff.mpr differ.1) aligned
        have blocks := append_of_ne differ.2 (by simp only [List.length_take]; omega)
          (fragment.drop P.bitsPerUnit ++ others.flatten) (next.suffix.drop P.bitsPerUnit)
        rw [← List.append_assoc, List.take_append_drop, List.take_append_drop] at blocks
        rw [List.flatten_cons, blocks.1, blocks.2]
      · rfl

end Span

namespace EncodedSource

/-- The source stands at the first of the remaining entries and its spans spell that key. -/
def Tracks (source : EncodedSource) (previous : BitString) (entries : List Entry) : Prop :=
  source.frames = entries.map (Entry.frame P) ∧ Retains P previous entries ∧
    ∀ entry ∈ entries.head?, Span.Sound P source.spans ∧
      Span.materialize P source.spans = entry.key

theorem suffix_aligned {previous : BitString} {entry : Entry} {entries : List Entry}
    (retains : Retains P previous (entry :: entries)) : P.Aligned (entry.frame P).suffix := by
  unfold StoragePolicy.Aligned Entry.frame
  rw [List.length_drop]
  exact Nat.dvd_sub retains.2.1 (Dvd.intro_left _ rfl)

theorem start_tracks (array : NativeArray P) :
    (start P array.frames).Tracks (P := P) [] array.entries := by
  have retains := array.retains
  unfold ProfileArray.frames
  cases entries : array.entries with
  | nil => exact ⟨rfl, trivial, by simp⟩
  | cons entry rest =>
      rw [entries] at retains
      have literal : entry.retained * P.bitsPerUnit = 0 := by simpa using retains.1
      have none : (entry.frame P).retained = 0 :=
        (Nat.mul_eq_zero.mp literal).resolve_right P.bitsPerUnit_pos.ne'
      have spelled := @Span.Sound.retain_ok P [] trivial _ none.le
        (suffix_aligned retains)
      refine ⟨rfl, retains, fun head is_head => ?_⟩
      cases Option.mem_some_iff.mp is_head
      refine ⟨spelled.1, spelled.2.trans ?_⟩
      simp [Span.materialize, Entry.frame, literal]

/-- Advancing yields the exact comparison of consecutive keys of a sorted array. -/
theorem advanceComparison_tracks {source : EncodedSource} {previous : BitString} {entry : Entry}
    {entries : List Entry} (tracks : source.Tracks (P := P) previous (entry :: entries))
    (sorted : ∀ next ∈ entries.head?, entry.key < next.key) :
    ∃ following, source.advanceComparison P =
        .ok (following, entries.head?.map fun next => compareCommonBits entry.key next.key) ∧
      following.Tracks (P := P) entry.key entries := by
  obtain ⟨frames_eq, retains, at_key⟩ := tracks
  obtain ⟨sound, spelled⟩ := at_key entry rfl
  unfold advanceComparison
  cases entries with
  | nil =>
      rw [frames_eq]
      exact ⟨_, rfl, rfl, trivial, by simp⟩
  | cons next rest =>
      obtain ⟨shares, aligned, later⟩ := retains
      have key_bits := sound.length_materialize
      rw [spelled] at key_bits
      have within : (next.frame P).retained ≤ Span.top source.spans := by
        have bits := later.1.trans (lcp_le_left _ _)
        rw [key_bits] at bits
        exact Nat.le_of_mul_le_mul_right bits P.bitsPerUnit_pos
      have fits : (next.frame P).retained ≤ (entry.frame P).keyUnits P := by
        rw [frame_keyUnits shares, StoragePolicy.units,
          Nat.le_div_iff_mul_le P.bitsPerUnit_pos]
        exact later.1.trans (lcp_le_left _ _)
      have next_aligned := suffix_aligned later
      have framed : (Span.materialize P source.spans).take ((next.frame P).retainedBits P) ++
          (next.frame P).suffix = next.key := by
        have agrees := take_eq_of_le_lcp later.1
        rw [spelled]
        simp only [Entry.frame, Frame.retainedBits]
        rw [agrees, List.take_append_drop]
      have compared : Span.compareSuccessor P source.spans (next.frame P) =
          compareCommonBits entry.key next.key := by
        rw [sound.compareSuccessor_eq within next_aligned, framed, spelled]
      have ordered : (compareCommonBits entry.key next.key).order = .lt :=
        order_eq_lt.mpr (sorted next rfl)
      obtain ⟨next_sound, next_spelled⟩ := sound.retain_ok within next_aligned
      rw [frames_eq]
      simp only [List.map_cons, compared]
      rw [require_true fits, require_true ordered]
      refine ⟨_, rfl, rfl, later, fun head is_head => ?_⟩
      cases Option.mem_some_iff.mp is_head
      exact ⟨next_sound, next_spelled.trans framed⟩

end EncodedSource

namespace MergeSource

/-- The source stands at the first of the remaining entries. -/
def Tracks (source : MergeSource) (previous : BitString) (entries : List Entry) : Prop :=
  match source with
  | encoded source => source.Tracks (P := P) previous entries
  | materialized cursor => cursor.Tracks P previous entries

variable {source : MergeSource} {previous : BitString} {entry : Entry} {entries : List Entry}

theorem start_ok (keyAware : Bool) (array : NativeArray P) :
    ∃ source, start P keyAware array.frames = .ok source ∧
      source.Tracks (P := P) [] array.entries := by
  cases keyAware with
  | false => exact ⟨_, rfl, EncodedSource.start_tracks array⟩
  | true =>
      obtain ⟨cursor, opened, tracks, _⟩ := ProfileCursor.seek_zero_tracks array
      refine ⟨materialized cursor, ?_, tracks⟩
      simp [start, opened]

theorem Tracks.frames_eq (tracks : source.Tracks (P := P) previous entries) :
    source.frames = entries.map (Entry.frame P) := by
  cases source with
  | encoded source => exact tracks.1
  | materialized cursor => exact tracks.1

theorem Tracks.retains (tracks : source.Tracks (P := P) previous entries) :
    Retains P previous entries := by
  cases source with
  | encoded source => exact tracks.2.1
  | materialized cursor => exact tracks.2.1

theorem Tracks.done_iff (tracks : source.Tracks (P := P) previous entries) :
    source.done = entries.isEmpty := by
  rw [done, tracks.frames_eq, List.isEmpty_map]

theorem Tracks.peek_ok (tracks : source.Tracks (P := P) previous (entry :: entries)) :
    source.peek = .ok (entry.frame P) := by
  rw [peek, tracks.frames_eq]
  rfl

theorem Tracks.key_eq (tracks : source.Tracks (P := P) previous (entry :: entries)) :
    source.key P = entry.key := by
  cases source with
  | encoded source => exact (tracks.2.2 entry rfl).2
  | materialized cursor => exact tracks.2.2 entry rfl

/-- Past a prefix which the frame retains, the suffix is the rest of the complete key. -/
theorem Tracks.suffix_ok (tracks : source.Tracks (P := P) previous (entry :: entries))
    {retained : Nat} (retains : entry.retained ≤ retained)
    (within : retained * P.bitsPerUnit ≤ entry.key.length) :
    source.suffix P retained = .ok (entry.key.drop (retained * P.bitsPerUnit)) := by
  have peeked := tracks.peek_ok
  have key := tracks.key_eq
  cases source with
  | encoded source =>
      have bits : entry.retained * P.bitsPerUnit ≤ retained * P.bitsPerUnit :=
        Nat.mul_le_mul_right _ retains
      have inside : (retained - entry.retained) * P.bitsPerUnit ≤
          (entry.frame P).suffix.length := by
        simp only [Entry.frame, List.length_drop, Nat.sub_mul]
        omega
      have rest : (entry.frame P).suffix.drop ((retained - entry.retained) * P.bitsPerUnit) =
          entry.key.drop (retained * P.bitsPerUnit) := by
        simp only [Entry.frame, List.drop_drop, Nat.sub_mul]
        rw [Nat.add_sub_cancel' bits]
      simp only [suffix, peeked, ok_bind]
      rw [require_true (show (entry.frame P).retained ≤ retained from retains), ok_bind,
        subviewFrom]
      simp only [show (entry.frame P).retained = entry.retained from rfl]
      rw [require_true inside, ok_bind, rest]
  | materialized cursor =>
      have scratch : cursor.scratch = entry.key := key
      simp only [suffix, scratch, subviewFrom]
      rw [require_true within, ok_bind]

theorem Tracks.advanceComparison_ok
    (tracks : source.Tracks (P := P) previous (entry :: entries))
    (sorted : ∀ next ∈ entries.head?, entry.key < next.key) :
    ∃ following, source.advanceComparison P =
        .ok (following, entries.head?.map fun next => compareCommonBits entry.key next.key) ∧
      following.Tracks (P := P) entry.key entries := by
  cases source with
  | encoded source =>
      obtain ⟨following, advanced, after⟩ :=
        EncodedSource.advanceComparison_tracks tracks sorted
      exact ⟨encoded following, by simp [advanceComparison, advanced], after⟩
  | materialized cursor =>
      obtain ⟨following, advanced, after, _⟩ := ProfileCursor.advanceComparison_tracks tracks
      exact ⟨materialized following, by simp [advanceComparison, advanced], after⟩

end MergeSource

end Everett

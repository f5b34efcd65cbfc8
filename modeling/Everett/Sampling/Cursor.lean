import Everett.Library.StableMerge
import Everett.Profile.Cursor

/-!
# Samples of a blob pair

`sample_cursor` merges the native and the borrowed stream of one pair and stops at every
`group_size`-th occurrence.  Native keys come before equal borrowed ones, and duplicates remain.
-/

namespace Everett

open Word Outcome

/-- `stream_role`. -/
inductive StreamRole
  | native
  | borrowed
  deriving Repr

namespace StreamRole

/-- Position of a role among ties. -/
def index : StreamRole → Nat
  | native => 0
  | borrowed => 1

theorem index_injective : Function.Injective index := by
  intro a b same
  cases a <;> cases b <;> first | rfl | cases same

instance : LinearOrder StreamRole := LinearOrder.lift' index index_injective

instance : Fintype StreamRole :=
  ⟨{native, borrowed}, fun role => by cases role <;> decide⟩

end StreamRole

variable (P : StoragePolicy)

/-- `profile_blob`: a native and a borrowed array with their common count. -/
structure ProfileBlob where
  native : NativeArray P
  borrowed : BorrowedArray P
  /-- `check_count`. -/
  counted : native.size + borrowed.size ≤ maximum64

/-- `profile_sample_view`. -/
structure SampleView where
  key : BitString
  targetOrdinal : Nat
  sourceRole : StreamRole
  sourceOrdinal : Nat
  deriving DecidableEq

namespace ProfileCursor

/-- `advance()`: step to the next record without a comparison. -/
def advance (cursor : ProfileCursor) : Result ProfileCursor :=
  match cursor.frames with
  | [] => .error "profile cursor at end"
  | [_] => .ok ⟨[], cursor.scratch, cursor.ordinal + 1⟩
  | frame :: next :: rest =>
      if frame.keyUnits P < next.retained then
        .error "profile retained prefix exceeds predecessor"
      else do
        let scratch ← decodeInto P next cursor.scratch
        .ok ⟨next :: rest, scratch, cursor.ordinal + 1⟩

/-- `peek()`: ordinal and key of the current record. -/
def peek (cursor : ProfileCursor) : Result (Nat × BitString) :=
  if cursor.done then .error "profile cursor at end" else .ok (cursor.ordinal, cursor.scratch)

end ProfileCursor

/-- `sample_cursor`. -/
structure ProfileSampleCursor where
  native : ProfileCursor
  borrowed : ProfileCursor
  virtualSize : Nat
  ordinal : Nat
  nextBorrowed : Bool

namespace ProfileSampleCursor

/-- `done`. -/
def done (cursor : ProfileSampleCursor) : Bool := cursor.native.done && cursor.borrowed.done

/-- `choose_next`. -/
def chooseNext (cursor : ProfileSampleCursor) : Result ProfileSampleCursor :=
  if cursor.native.done then .ok { cursor with nextBorrowed := true }
  else if cursor.borrowed.done then .ok { cursor with nextBorrowed := false }
  else do
    let borrowed ← cursor.borrowed.peek
    let native ← cursor.native.peek
    .ok { cursor with nextBorrowed := compareBits borrowed.2 native.2 = .lt }

/-- Bind a cursor to a pair. -/
def start (blob : ProfileBlob P) : Result ProfileSampleCursor := do
  let native ← ProfileCursor.start P blob.native.frames
  let borrowed ← ProfileCursor.start P blob.borrowed.frames
  chooseNext ⟨native, borrowed, blob.native.size + blob.borrowed.size, 0, false⟩

/-- `peek`. -/
def peek (cursor : ProfileSampleCursor) : Result SampleView :=
  if cursor.done then .error "sample cursor at end"
  else do
    let item ← if cursor.nextBorrowed then cursor.borrowed.peek else cursor.native.peek
    .ok ⟨item.2, cursor.ordinal, if cursor.nextBorrowed then .borrowed else .native, item.1⟩

/-- One occurrence of the loop of `advance`. -/
def pass (cursor : ProfileSampleCursor) : Result ProfileSampleCursor := do
  let cursor ←
    if cursor.nextBorrowed then do
      let borrowed ← cursor.borrowed.advance P
      .ok { cursor with borrowed }
    else do
      let native ← cursor.native.advance P
      .ok { cursor with native }
  chooseNext { cursor with ordinal := cursor.ordinal + 1 }

/-- The loop of `advance`. -/
def passAll : Nat → ProfileSampleCursor → Result ProfileSampleCursor
  | 0, cursor => .ok cursor
  | count + 1, cursor => do
      let cursor ← cursor.pass P
      passAll count cursor

/-- `advance`. -/
def advance (cursor : ProfileSampleCursor) : Result ProfileSampleCursor :=
  if cursor.done then .error "sample cursor at end"
  else cursor.passAll P (min P.groupSize (cursor.virtualSize - cursor.ordinal))

/-- The samples a consumer takes, within a number of turns. -/
def samples : Nat → ProfileSampleCursor → Result (List SampleView)
  | 0, _ => .ok []
  | turns + 1, cursor =>
      if cursor.done then .ok []
      else do
        let first ← cursor.peek
        let cursor ← cursor.advance P
        let rest ← samples turns cursor
        .ok (first :: rest)

end ProfileSampleCursor

/-- Occurrences of a pair, each with the stream it came from. -/
abbrev PairOccurrences := List (StreamRole × BitString)

/-- The occurrence at a position as a cursor shows it. -/
def PairOccurrences.view (occurrences : PairOccurrences) (position : Nat)
    (occurrence : StreamRole × BitString) : SampleView :=
  ⟨occurrence.2, position, occurrence.1,
    (occurrences.take position).countP fun earlier => earlier.1 = occurrence.1⟩

/-- The two streams of a pair. -/
def pairSources (native borrowed : List Entry) : StreamRole → List BitString
  | .native => native.map Entry.key
  | .borrowed => borrowed.map Entry.key

variable {P}

namespace ProfileCursor

theorem advance_of_comparison {cursor following : ProfileCursor}
    {comparison : Option BitComparison}
    (compared : cursor.advanceComparison P = .ok (following, comparison)) :
    cursor.advance P = .ok following := by
  obtain ⟨frames, scratch, ordinal⟩ := cursor
  match frames with
  | [] => cases compared
  | [_] =>
      cases compared
      rfl
  | frame :: next :: rest =>
      simp only [advanceComparison] at compared
      simp only [advance]
      split_ifs at compared ⊢
      obtain ⟨decoded_scratch, decoded, same⟩ := bind_eq_ok.mp compared
      cases same
      rw [decoded, ok_bind]

theorem advance_tracks {cursor : ProfileCursor} {previous : BitString} {entry : Entry}
    {entries : List Entry} (tracks : cursor.Tracks P previous (entry :: entries)) :
    ∃ following, cursor.advance P = .ok following ∧ following.Tracks P entry.key entries ∧
      following.ordinal = cursor.ordinal + 1 := by
  obtain ⟨following, compared, tracks', ordinal⟩ := advanceComparison_tracks tracks
  exact ⟨following, advance_of_comparison compared, tracks', ordinal⟩

theorem peek_tracks {cursor : ProfileCursor} {previous : BitString} {entry : Entry}
    {entries : List Entry} (tracks : cursor.Tracks P previous (entry :: entries)) :
    cursor.peek = .ok (cursor.ordinal, entry.key) := by
  have live : ¬cursor.done = true := by simp [done_iff tracks]
  rw [peek, if_neg live, tracks.2.2 entry rfl]

end ProfileCursor

namespace ProfileSampleCursor

variable (P) in
/-- The cursor stands at a position of the merge of its streams. -/
structure Stands (cursor : ProfileSampleCursor) (occurrences : PairOccurrences) (position : Nat)
    (native borrowed : List Entry) : Prop where
  native_tracks : ∃ previous, cursor.native.Tracks P previous native
  borrowed_tracks : ∃ previous, cursor.borrowed.Tracks P previous borrowed
  native_ordinal : cursor.native.ordinal =
    (occurrences.take position).countP fun earlier => earlier.1 = .native
  borrowed_ordinal : cursor.borrowed.ordinal =
    (occurrences.take position).countP fun earlier => earlier.1 = .borrowed
  ordinal : cursor.ordinal = position
  size : cursor.virtualSize = occurrences.length
  merge : StableMerge (pairSources native borrowed) (occurrences.drop position)

/-- The flag names the stream of the next occurrence. -/
def Chosen (cursor : ProfileSampleCursor) (occurrences : PairOccurrences) (position : Nat) : Prop :=
  ∀ next, occurrences[position]? = some next →
    cursor.nextBorrowed = decide (next.1 = StreamRole.borrowed)

variable {cursor : ProfileSampleCursor} {occurrences : PairOccurrences} {position : Nat}
  {native borrowed : List Entry}

theorem Stands.native_done (stands : cursor.Stands P occurrences position native borrowed) :
    cursor.native.done = native.isEmpty :=
  stands.native_tracks.elim fun _ tracks => ProfileCursor.done_iff tracks

theorem Stands.borrowed_done
    (stands : cursor.Stands P occurrences position native borrowed) :
    cursor.borrowed.done = borrowed.isEmpty :=
  stands.borrowed_tracks.elim fun _ tracks => ProfileCursor.done_iff tracks

theorem Stands.done_iff (stands : cursor.Stands P occurrences position native borrowed) :
    cursor.done = true ↔ occurrences.drop position = [] := by
  rw [done, stands.native_done, stands.borrowed_done, Bool.and_eq_true, List.isEmpty_iff,
    List.isEmpty_iff]
  constructor
  · rintro ⟨rfl, rfl⟩
    exact stands.merge.eq_nil fun role => by cases role <;> rfl
  · intro finished
    have merge := stands.merge
    rw [finished] at merge
    exact ⟨List.map_eq_nil_iff.mp (merge.sources_nil .native),
      List.map_eq_nil_iff.mp (merge.sources_nil .borrowed)⟩

/-- The next occurrence is the least head of the two streams. -/
theorem Stands.least (stands : cursor.Stands P occurrences position native borrowed)
    {next : StreamRole × BitString} (is_next : occurrences[position]? = some next) :
    LeastHead (pairSources native borrowed) next.1 next.2 ∧
      StableMerge (Function.update (pairSources native borrowed) next.1
        (pairSources native borrowed next.1).tail) (occurrences.drop (position + 1)) := by
  have merge := stands.merge
  have inside := (List.getElem?_eq_some_iff.mp is_next).1
  have value := (List.getElem?_eq_some_iff.mp is_next).2
  rw [List.drop_eq_getElem_cons inside, value] at merge
  cases merge with
  | cons least rest => exact ⟨least, rest⟩

/-- `choose_next` finds the stream of the next occurrence. -/
theorem Stands.choose (stands : cursor.Stands P occurrences position native borrowed) :
    ∃ chosen, cursor.chooseNext = .ok chosen ∧
      chosen.Stands P occurrences position native borrowed ∧
      chosen.Chosen occurrences position := by
  have kept : ∀ flag, ({ cursor with nextBorrowed := flag } : ProfileSampleCursor).Stands P
      occurrences position native borrowed := fun flag =>
    ⟨stands.native_tracks, stands.borrowed_tracks, stands.native_ordinal,
      stands.borrowed_ordinal, stands.ordinal, stands.size, stands.merge⟩
  have flagged : ∀ role key, LeastHead (pairSources native borrowed) role key →
      ({ cursor with nextBorrowed := decide (role = StreamRole.borrowed) } :
        ProfileSampleCursor).Chosen occurrences position := by
    intro role key head next is_next
    rw [(head.unique (stands.least is_next).1).1]
  unfold chooseNext
  rw [stands.native_done, stands.borrowed_done]
  cases native with
  | nil =>
      refine ⟨_, rfl, kept true, fun next is_next => ?_⟩
      have head := (stands.least is_next).1.1
      cases role : next.1 with
      | native =>
          rw [role] at head
          cases head
      | borrowed => rfl
  | cons first native =>
      cases borrowed with
      | nil =>
          refine ⟨_, rfl, kept false, fun next is_next => ?_⟩
          have head := (stands.least is_next).1.1
          cases role : next.1 with
          | native => rfl
          | borrowed =>
              rw [role] at head
              cases head
      | cons second borrowed =>
          obtain ⟨_, native_tracks⟩ := stands.native_tracks
          obtain ⟨_, borrowed_tracks⟩ := stands.borrowed_tracks
          rw [ProfileCursor.peek_tracks native_tracks, ProfileCursor.peek_tracks borrowed_tracks]
          refine ⟨_, rfl, kept _, ?_⟩
          by_cases less : compareBits second.key first.key = .lt
          · have head : LeastHead (pairSources (first :: native) (second :: borrowed)) .borrowed
                second.key := by
              refine ⟨rfl, fun other key is_head => ?_⟩
              cases other with
              | native =>
                  cases is_head
                  exact .inl (order_eq_lt.mp less)
              | borrowed =>
                  cases is_head
                  exact .inr ⟨rfl, le_rfl⟩
            have chosen := flagged _ _ head
            rwa [decide_eq_true rfl, ← decide_eq_true less] at chosen
          · have above : first.key ≤ second.key := not_lt.mp fun under =>
              less (order_eq_lt.mpr under)
            have head : LeastHead (pairSources (first :: native) (second :: borrowed)) .native
                first.key := by
              refine ⟨rfl, fun other key is_head => ?_⟩
              cases other with
              | native =>
                  cases is_head
                  exact .inr ⟨rfl, le_rfl⟩
              | borrowed =>
                  cases is_head
                  exact above.lt_or_eq.imp id fun same => ⟨same, by decide⟩
            have chosen := flagged _ _ head
            rwa [decide_eq_false (by decide), ← decide_eq_false less] at chosen

/-- A cursor shows the occurrence it stands at. -/
theorem Stands.peek_ok (stands : cursor.Stands P occurrences position native borrowed)
    (chosen : cursor.Chosen occurrences position) {next : StreamRole × BitString}
    (is_next : occurrences[position]? = some next) :
    cursor.peek = .ok (occurrences.view position next) := by
  have inside := (List.getElem?_eq_some_iff.mp is_next).1
  have live : ¬cursor.done = true := by
    rw [stands.done_iff, List.drop_eq_nil_iff]
    omega
  have least := (stands.least is_next).1
  have flag := chosen next is_next
  obtain ⟨role, key⟩ := next
  rw [peek, if_neg live, flag, stands.ordinal, PairOccurrences.view]
  cases role with
  | native =>
      obtain ⟨_, tracks⟩ := stands.native_tracks
      cases native with
      | nil => cases least.1
      | cons entry native =>
          have same : entry.key = key := Option.some.inj least.1
          rw [decide_eq_false (by simp), if_neg Bool.false_ne_true,
            ProfileCursor.peek_tracks tracks, ok_bind, stands.native_ordinal, same]
          rfl
  | borrowed =>
      obtain ⟨_, tracks⟩ := stands.borrowed_tracks
      cases borrowed with
      | nil => cases least.1
      | cons entry borrowed =>
          have same : entry.key = key := Option.some.inj least.1
          rw [decide_eq_true rfl, if_pos rfl, ProfileCursor.peek_tracks tracks, ok_bind,
            stands.borrowed_ordinal, same]
          rfl

theorem countP_take_succ {next : StreamRole × BitString} (role : StreamRole)
    (is_next : occurrences[position]? = some next) :
    (occurrences.take (position + 1)).countP (fun earlier => earlier.1 = role) =
      (occurrences.take position).countP (fun earlier => earlier.1 = role) +
        if next.1 = role then 1 else 0 := by
  rw [List.take_add_one, is_next, List.countP_append]
  simp only [Option.toList_some, List.countP_singleton, decide_eq_true_eq]

/-- Passing an occurrence reaches the following one. -/
theorem Stands.pass_ok (stands : cursor.Stands P occurrences position native borrowed)
    (chosen : cursor.Chosen occurrences position) {next : StreamRole × BitString}
    (is_next : occurrences[position]? = some next) :
    ∃ following native' borrowed', cursor.pass P = .ok following ∧
      following.Stands P occurrences (position + 1) native' borrowed' ∧
      following.Chosen occurrences (position + 1) := by
  obtain ⟨least, rest⟩ := stands.least is_next
  have flag := chosen next is_next
  have natives := countP_take_succ .native is_next
  have borrows := countP_take_succ .borrowed is_next
  obtain ⟨role, key⟩ := next
  cases role with
  | native =>
      obtain ⟨_, tracks⟩ := stands.native_tracks
      cases native with
      | nil => cases least.1
      | cons entry native =>
          obtain ⟨source, advanced, source_tracks, ordinal⟩ := ProfileCursor.advance_tracks tracks
          have merge : StableMerge (pairSources native borrowed)
              (occurrences.drop (position + 1)) := by
            convert rest using 1
            funext role
            cases role <;> rfl
          have next_stands : ({ cursor with
              native := source
              ordinal := cursor.ordinal + 1 } : ProfileSampleCursor).Stands P occurrences
                (position + 1) native borrowed :=
            ⟨⟨_, source_tracks⟩, stands.borrowed_tracks, by
              rw [natives, if_pos rfl, ← stands.native_ordinal]
              exact ordinal, by
              rw [borrows, if_neg (by simp), ← stands.borrowed_ordinal]
              rfl, by rw [← stands.ordinal], stands.size, merge⟩
          obtain ⟨following, choice, stands', chosen'⟩ := next_stands.choose
          refine ⟨following, native, borrowed, ?_, stands', chosen'⟩
          have off : ¬cursor.nextBorrowed = true := by
            rw [flag]
            simp
          rw [pass, if_neg off, advanced, ok_bind, ok_bind]
          exact choice
  | borrowed =>
      obtain ⟨_, tracks⟩ := stands.borrowed_tracks
      cases borrowed with
      | nil => cases least.1
      | cons entry borrowed =>
          obtain ⟨source, advanced, source_tracks, ordinal⟩ := ProfileCursor.advance_tracks tracks
          have merge : StableMerge (pairSources native borrowed)
              (occurrences.drop (position + 1)) := by
            convert rest using 1
            funext role
            cases role <;> rfl
          have next_stands : ({ cursor with
              borrowed := source
              ordinal := cursor.ordinal + 1 } : ProfileSampleCursor).Stands P occurrences
                (position + 1) native borrowed :=
            ⟨stands.native_tracks, ⟨_, source_tracks⟩, by
              rw [natives, if_neg (by simp), ← stands.native_ordinal]
              rfl, by
              rw [borrows, if_pos rfl, ← stands.borrowed_ordinal]
              exact ordinal, by rw [← stands.ordinal], stands.size, merge⟩
          obtain ⟨following, choice, stands', chosen'⟩ := next_stands.choose
          refine ⟨following, native, borrowed, ?_, stands', chosen'⟩
          have on : cursor.nextBorrowed = true := by
            rw [flag]
            simp
          rw [pass, if_pos on, advanced, ok_bind, ok_bind]
          exact choice

theorem Stands.passAll_ok (count : Nat)
    (stands : cursor.Stands P occurrences position native borrowed)
    (chosen : cursor.Chosen occurrences position) (inside : position + count ≤ occurrences.length) :
    ∃ following native' borrowed', cursor.passAll P count = .ok following ∧
      following.Stands P occurrences (position + count) native' borrowed' ∧
      following.Chosen occurrences (position + count) := by
  induction count generalizing cursor position native borrowed with
  | zero => exact ⟨cursor, native, borrowed, rfl, stands, chosen⟩
  | succ count induction =>
      have is_next := List.getElem?_eq_getElem (show position < occurrences.length by omega)
      obtain ⟨passed, _, _, pass_ok, stands', chosen'⟩ := stands.pass_ok chosen is_next
      obtain ⟨following, native', borrowed', rest, last, last_chosen⟩ :=
        induction stands' chosen' (by omega)
      rw [Nat.add_assoc, Nat.add_comm 1] at last last_chosen
      exact ⟨following, native', borrowed', by rw [passAll, pass_ok, ok_bind, rest], last,
        last_chosen⟩

/-- Every position of a merge as a cursor shows it. -/
def views (occurrences : PairOccurrences) : List SampleView :=
  occurrences.mapIdx fun position occurrence => occurrences.view position occurrence

/-- A consumer takes the samples from a position on. -/
theorem Stands.samples_ok (turns : Nat)
    (stands : cursor.Stands P occurrences position native borrowed)
    (chosen : cursor.Chosen occurrences position)
    (enough : occurrences.length < position + turns) :
    cursor.samples P turns = .ok (sample P.groupSize ((views occurrences).drop position)) := by
  have length : (views occurrences).length = occurrences.length := List.length_mapIdx
  induction turns generalizing cursor position native borrowed with
  | zero =>
      rw [List.drop_eq_nil_of_le (by omega), sample_nil]
      rfl
  | succ turns induction =>
      by_cases finished : occurrences.length ≤ position
      · have done := stands.done_iff.mpr (List.drop_eq_nil_of_le finished)
        rw [samples, if_pos done, List.drop_eq_nil_of_le (by omega), sample_nil]
      · have inside := Nat.not_le.mp finished
        have live : ¬cursor.done = true := by
          rw [stands.done_iff, List.drop_eq_nil_iff]
          exact finished
        have is_next := List.getElem?_eq_getElem inside
        have positive := P.groupSize_pos
        have width : cursor.virtualSize - cursor.ordinal = occurrences.length - position := by
          rw [stands.size, stands.ordinal]
        obtain ⟨following, native', borrowed', passed, stands', chosen'⟩ :=
          stands.passAll_ok (min P.groupSize (occurrences.length - position)) chosen (by omega)
        have later := induction stands' chosen' (by omega)
        have same_rest : (views occurrences).drop
            (position + min P.groupSize (occurrences.length - position)) =
            ((views occurrences).drop position).drop P.groupSize := by
          rw [List.drop_drop]
          rcases Nat.le_total P.groupSize (occurrences.length - position) with le | ge
          · rw [Nat.min_eq_left le]
          · rw [Nat.min_eq_right ge, List.drop_eq_nil_of_le (by omega),
              List.drop_eq_nil_of_le (by omega)]
        have head : (views occurrences).drop position =
            occurrences.view position occurrences[position] ::
              (views occurrences).drop (position + 1) := by
          rw [List.drop_eq_getElem_cons (by omega)]
          simp only [views, List.getElem_mapIdx]
        rw [samples, if_neg live, stands.peek_ok chosen is_next, ok_bind, advance, if_neg live,
          width, passed, ok_bind, later, ok_bind, same_rest, head, sample_cons positive]

/-- A cursor opens at the first occurrence of the merge of a pair. -/
theorem start_ok (blob : ProfileBlob P) :
    ∃ cursor occurrences, start P blob = .ok cursor ∧
      StableMerge (pairSources blob.native.entries blob.borrowed.entries) occurrences ∧
      cursor.Stands P occurrences 0 blob.native.entries blob.borrowed.entries ∧
      cursor.Chosen occurrences 0 := by
  obtain ⟨native, native_ok, native_tracks, native_zero⟩ :=
    ProfileCursor.seek_zero_tracks blob.native
  obtain ⟨borrowed, borrowed_ok, borrowed_tracks, borrowed_zero⟩ :=
    ProfileCursor.seek_zero_tracks blob.borrowed
  obtain ⟨occurrences, merge⟩ :=
    StableMerge.exists_merge (pairSources blob.native.entries blob.borrowed.entries)
  have total : blob.native.size + blob.borrowed.size = occurrences.length := by
    have sum := merge.length_eq
    have split : (Finset.univ : Finset StreamRole) = {StreamRole.native, .borrowed} := rfl
    rw [split, Finset.sum_pair (by decide)] at sum
    simpa [pairSources, ProfileArray.size] using sum.symm
  have opened : ({
      native, borrowed
      virtualSize := blob.native.size + blob.borrowed.size
      ordinal := 0
      nextBorrowed := false } : ProfileSampleCursor).Stands P occurrences 0
        blob.native.entries blob.borrowed.entries :=
    ⟨⟨_, native_tracks⟩, ⟨_, borrowed_tracks⟩, native_zero, borrowed_zero, rfl, total, merge⟩
  obtain ⟨cursor, chosen_ok, stands, chosen⟩ := opened.choose
  refine ⟨cursor, occurrences, ?_, merge, stands, chosen⟩
  rw [start, native_ok, ok_bind, borrowed_ok, ok_bind, chosen_ok]

end ProfileSampleCursor

end Everett

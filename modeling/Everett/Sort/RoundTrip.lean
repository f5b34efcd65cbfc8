import Everett.Sort.Record

/-!
# Round trip of sort record streams

What a writer appends for a record is exactly what a reader in the state before it takes.  The code
of a new sort never extends the path before it, so a retained path identifies its sort.
-/

namespace Everett

open Outcome

variable {S : Type} [DecidableEq S] {layout : SortLayout S}

namespace SortRecordState

variable {state : SortRecordState layout} {sort : S}

theorem previousFor_eq_some {key : layout.Key sort} :
    state.previousFor sort = some key ↔ state.previous = some ⟨sort, key⟩ := by
  unfold previousFor
  constructor
  · refine fun found => ?_
    split at found
    · rename_i previous held
      split_ifs at found with same
      obtain ⟨_, before⟩ := previous
      subst same
      cases found
      exact held
    · cases found
  · refine fun held => ?_
    rw [held]
    exact dif_pos rfl

theorem sort_ne_of_previousFor {previous : SortKeyState layout}
    (absent : state.previousFor sort = none) (held : state.previous = some previous) :
    previous.sort ≠ sort := by
  rintro rfl
  have found := Iff.mpr previousFor_eq_some (show state.previous = some ⟨previous.sort, previous.key⟩
    from held)
  rw [absent] at found
  cases found

theorem validate_some {previous : SortKeyState layout} (held : state.previous = some previous) :
    state.validate = .ok () ↔ layout.registry.sortCode previous.sort = .ok state.path := by
  unfold validate
  rw [held]
  constructor
  · refine fun valid => ?_
    obtain ⟨path, coded, same⟩ := bind_eq_ok.mp valid
    rw [require_eq_ok.mp same, coded]
  · refine fun coded => ?_
    dsimp only
    rw [coded, ok_bind, require_true rfl]

theorem validate_none (absent : state.previous = none) :
    state.validate = .ok () ↔ state.path = [] := by
  unfold validate
  rw [absent]
  exact require_eq_ok

/-- A valid path is short enough to count. -/
theorem path_bounded (valid : state.validate = .ok ()) : state.path.length ≤ maximum64 := by
  cases held : state.previous with
  | none =>
      rw [(validate_none held).mp valid]
      exact Nat.zero_le _
  | some previous =>
      exact (SortRegistry.sortCode_ok ((validate_some held).mp valid)).2.trans (Nat.sub_le _ _)

end SortRecordState

/-! ## The order of records -/

/-- Records are ordered by the codes of their sorts, and by `less` at one sort. -/
def SortKeyState.Before (previous : SortKeyState layout) (record : SortRecord layout) : Prop :=
  layout.registry.code previous.sort < layout.registry.code record.sort ∨
    ∃ key, previous = ⟨record.sort, key⟩ ∧ (layout.key record.sort).less key record.key

/-- A record comes after the one before it. -/
def SortRecord.Follows (record : SortRecord layout) (previous : Option (SortKeyState layout)) : Prop :=
  ∀ before ∈ previous, before.Before record

/-- Each record of a sequence comes after the one before it. -/
def Ascends : Option (SortKeyState layout) → List (SortRecord layout) → Prop
  | _, [] => True
  | previous, record :: records =>
      record.Follows previous ∧ Ascends (some ⟨record.sort, record.key⟩) records

namespace SortRecordWriter

open SortRecordState

variable {writer next : SortRecordWriter layout} {state : SortRecordState layout}
  {record : SortRecord layout} {path : BitString} {comparison : BitComparison}
  {control : SortRecordControl}

/-- A path which was compared is the code of its sort. -/
theorem sortCode_of_comparePath {sort : S} (valid : state.validate = .ok ())
    (compared : comparePath state sort = .ok (path, comparison)) :
    layout.registry.sortCode sort = .ok path := by
  unfold comparePath at compared
  split at compared
  · rename_i key found
    cases compared
    exact (validate_some (Iff.mp previousFor_eq_some found)).mp valid
  · obtain ⟨coded_path, coded, rest⟩ := bind_eq_ok.mp compared
    cases rest
    exact coded

/-- The path of a new sort is compared with the one before. -/
theorem comparison_of_absent {sort : S} (absent : state.previousFor sort = none)
    (compared : comparePath state sort = .ok (path, comparison)) :
    comparison = compareCommonBits state.path path := by
  rw [comparePath, absent] at compared
  obtain ⟨_, -, rest⟩ := bind_eq_ok.mp compared
  cases rest
  rfl

/-- The path of the same sort is kept whole. -/
theorem comparison_of_present {sort : S} {key : layout.Key sort}
    (present : state.previousFor sort = some key)
    (compared : comparePath state sort = .ok (path, comparison)) :
    path = state.path ∧ comparison = ⟨state.path.length, .eq⟩ := by
  rw [comparePath, present] at compared
  cases compared
  exact ⟨rfl, rfl⟩

/-- The checks of `append` accept exactly the records which follow. -/
theorem inOrder_iff (valid : state.validate = .ok ())
    (compared : comparePath state record.sort = .ok (path, comparison)) :
    InOrder state record comparison ↔ record.Follows state.previous := by
  cases held : state.previous with
  | none =>
      have absent : state.previousFor record.sort = none := by
        cases found : state.previousFor record.sort with
        | none => rfl
        | some key =>
            rw [previousFor_eq_some, held] at found
            cases found
      simp [InOrder, SortRecord.Follows, held, absent]
  | some previous =>
      have coded := (validate_some held).mp valid
      cases found : state.previousFor record.sort with
      | some key =>
          have same := Iff.mp previousFor_eq_some found
          rw [held] at same
          cases same
          obtain ⟨rfl, rfl⟩ := comparison_of_present found compared
          simp [InOrder, SortRecord.Follows, SortKeyState.Before, found]
      | none =>
          have different := sort_ne_of_previousFor found held
          have fresh := sortCode_of_comparePath valid compared
          obtain rfl := comparison_of_absent found compared
          have old_path := (SortRegistry.sortCode_ok coded).1
          have new_path := (SortRegistry.sortCode_ok fresh).1
          have distinct : state.path ≠ path := by
            rw [old_path, new_path]
            refine fun same => different ?_
            exact SortRegistry.code_prefix_free layout.unique (layout.complete _)
              (layout.complete _) (same ▸ List.prefix_rfl)
          have not_greater : (compareCommonBits state.path path).order ≠ .gt ↔ state.path < path := by
            rw [compareCommonBits, Word.order_ne_gt]
            exact ⟨fun le => lt_of_le_of_ne le distinct, le_of_lt⟩
          have no_key : ¬ ∃ key, previous = ⟨record.sort, key⟩ ∧
              (layout.key record.sort).less key record.key := by
            rintro ⟨key, rfl, -⟩
            exact different rfl
          rw [old_path, new_path] at not_greater
          simp only [InOrder, SortRecord.Follows, SortKeyState.Before, held, found,
            Option.isSome_some, true_and, Option.mem_some_iff, forall_eq', no_key, or_false]
          rw [old_path, new_path]
          exact ⟨fun ordered => not_greater.mp ordered.1,
            fun less => ⟨not_greater.mpr less, fun _ member => (Option.not_mem_none _ member).elim⟩⟩

end SortRecordWriter

namespace SortRecordReader

open SortRecordState

variable {state : SortRecordState layout} {record : SortRecord layout} {path : BitString}

/-- `decode` takes the bits of the key and of the value. -/
theorem decode_ok {keyBits valueBits : BitString} (start retained : Nat) (reuse : Bool)
    (key : Reads ((layout.key record.sort).read (state.previousFor record.sort)) keyBits record.key)
    (value : Reads (layout.value record.sort).read valueBits record.value)
    (paths : ¬ (state.previous.isSome ∧ reuse = false ∧ compareBits state.path path = .gt))
    (keys : ∀ before ∈ state.previousFor record.sort,
      (layout.key record.sort).less before record.key)
    (rest : BitString) (position : Nat) :
    decode state start retained reuse path record.sort ⟨keyBits ++ (valueBits ++ rest), position⟩ =
      .ok ((record, ⟨start, retained, path.length, position, position + keyBits.length,
        position + keyBits.length + valueBits.length⟩), ⟨path, some ⟨record.sort, record.key⟩⟩,
        ⟨rest, position + keyBits.length + valueBits.length⟩) := by
  simp only [decode]
  rw [key, ok_bind]
  dsimp only
  rw [value, ok_bind]
  dsimp only
  rw [require_true ⟨paths, keys⟩, ok_bind]

/-- The walk replays the retained bits of a code and takes the others. -/
theorem walk_ok {sort : S} {state : SortRecordState layout}
    (coded : layout.registry.sortCode sort = .ok path) (start position : Nat) (rest : BitString) :
    walk state start (Word.lcp state.path path)
        ⟨path.drop (Word.lcp state.path path) ++ rest, position⟩ =
      decode state start (Word.lcp state.path path) false path sort
        ⟨rest, position + (path.drop (Word.lcp state.path path)).length⟩ := by
  obtain ⟨code, short⟩ := SortRegistry.sortCode_ok coded
  have retained : (state.path.take (Word.lcp state.path path)).length = Word.lcp state.path path :=
    List.length_take_of_le (Word.lcp_le_left _ _)
  have whole : (state.path.take (Word.lcp state.path path)).drop 0 ++
      path.drop (Word.lcp state.path path) = layout.registry.code sort := by
    rw [List.drop_zero, Word.take_lcp, List.take_append_drop, code]
  have walked := @SortRegistry.dispatch_ok S _ layout.registry sort (layout.complete sort)
    ⟨⟨path.drop (Word.lcp state.path path) ++ rest, position⟩,
      state.path.take (Word.lcp state.path path), 0, []⟩ _ rest position
    whole (Nat.zero_le _) rfl (by
      rw [← code]
      exact (Nat.zero_add _).trans_le short)
  unfold walk
  rw [walked, ok_bind]
  dsimp only
  rw [require_true retained, ok_bind, List.nil_append, ← code]

/-- A retained path whose sort is another does not hold the code of the sort. -/
theorem lcp_lt_of_different {previous : SortKeyState layout} {sort : S}
    (valid : state.validate = .ok ()) (held : state.previous = some previous)
    (different : previous.sort ≠ sort) (coded : layout.registry.sortCode sort = .ok path) :
    Word.lcp state.path path < state.path.length := by
  refine (Word.lcp_le_left _ _).lt_of_ne fun whole => different ?_
  have old_path := (SortRegistry.sortCode_ok ((validate_some held).mp valid)).1
  have new_path := (SortRegistry.sortCode_ok coded).1
  apply SortRegistry.code_prefix_free layout.unique (layout.complete _) (layout.complete _)
  have shared := Word.take_lcp state.path path
  rw [whole, List.take_length] at shared
  rw [← old_path, ← new_path, shared]
  exact List.take_prefix _ _

/-- The body of a record reaches its sort with the path which the writer compared. -/
theorem readBody_ok {sort : S} {comparison : BitComparison} (valid : state.validate = .ok ())
    (compared : SortRecordWriter.comparePath state sort = .ok (path, comparison))
    (start position : Nat) (rest : BitString) :
    readBody state start (state.path.length - comparison.commonBits)
        ⟨path.drop comparison.commonBits ++ rest, position⟩ =
      decode state start comparison.commonBits (state.previousFor sort).isSome path sort
        ⟨rest, position + (path.drop comparison.commonBits).length⟩ := by
  cases found : state.previousFor sort with
  | some before =>
      obtain ⟨rfl, rfl⟩ := SortRecordWriter.comparison_of_present found compared
      rw [Nat.sub_self, List.drop_length, List.nil_append]
      unfold readBody
      rw [Iff.mp previousFor_eq_some found]
      rfl
  | none =>
      have coded := SortRecordWriter.sortCode_of_comparePath valid compared
      obtain rfl := SortRecordWriter.comparison_of_absent found compared
      have shared := Word.lcp_le_left state.path path
      rw [compareCommonBits]
      dsimp only
      rw [readBody]
      · rw [Nat.sub_sub_self shared]
        exact walk_ok coded _ _ _
      · -- A retained path would be the code of the sort before.
        intro previous held backspace
        have shorter := lcp_lt_of_different valid held (sort_ne_of_previousFor found held) coded
        omega

end SortRecordReader

/-! ## One record -/

open SortRecordState in
/-- The bits which an `append` publishes are what a reader takes in the state before it. -/
theorem SortRecordWriter.encode_ok (lawful : layout.Lawful) {writer next : SortRecordWriter layout}
    {record : SortRecord layout} {path : BitString} {comparison : BitComparison}
    {control : SortRecordControl} (valid : writer.state.validate = .ok ())
    (compared : comparePath writer.state record.sort = .ok (path, comparison))
    (ordered : InOrder writer.state record comparison)
    (encoded : writer.encode record path comparison.commonBits = .ok (control, next)) :
    ∃ frame local_control, frame ≠ [] ∧ next.data = writer.data ++ frame ∧
      next.state = ⟨path, some ⟨record.sort, record.key⟩⟩ ∧ next.failed = writer.failed ∧
      control = SortRecordControl.moved local_control writer.data.length ∧
      ∀ rest position, SortRecordReader.readRecord writer.state ⟨frame ++ rest, position⟩ =
        .ok ((record, local_control.moved position), next.state,
          ⟨rest, position + frame.length⟩) := by
  obtain ⟨count, counted, rest⟩ := bind_eq_ok.mp encoded
  obtain ⟨code, code_appended, rest⟩ := bind_eq_ok.mp rest
  obtain ⟨key, key_written, rest⟩ := bind_eq_ok.mp rest
  obtain ⟨frame, value_written, rest⟩ := bind_eq_ok.mp rest
  obtain ⟨data, published, rest⟩ := bind_eq_ok.mp rest
  cases rest
  obtain ⟨key_bits, rfl, key_reads⟩ := lawful.key _ _ _ _ _ key_written
  obtain ⟨value_bits, rfl, value_reads⟩ := lawful.value _ _ _ _ value_written
  obtain rfl := (ProfileDetail.append_ok code_appended).1
  obtain rfl := (ProfileDetail.append_ok published).1
  obtain rfl := SortBitWriter.writeCount_ok counted
  have bounded : writer.state.path.length - comparison.commonBits ≤ maximum64 :=
    (Nat.sub_le _ _).trans (path_bounded valid)
  refine ⟨layout.treeCode.bits (writer.state.path.length - comparison.commonBits) ++
    path.drop comparison.commonBits ++ key_bits ++ value_bits,
    ⟨0, comparison.commonBits, path.length, _, _, _⟩, ?_, rfl, rfl, rfl, rfl, ?_⟩
  · intro none_left
    simp only [List.append_eq_nil_iff] at none_left
    exact SortBitReader.bits_ne_nil _ _ none_left.1.1.1
  · intro rest position
    have paths : ¬ (writer.state.previous.isSome ∧
        (writer.state.previousFor record.sort).isSome = false ∧
          compareBits writer.state.path path = .gt) := by
      rintro ⟨some_before, absent, greater⟩
      cases found : writer.state.previousFor record.sort with
      | some before =>
          rw [found] at absent
          cases absent
      | none =>
          obtain rfl := SortRecordWriter.comparison_of_absent found compared
          exact ordered.1 ⟨some_before, greater⟩
    simp only [List.append_assoc, SortRecordReader.readRecord]
    rw [SortBitReader.readCount_reads _ bounded, ok_bind]
    dsimp only
    rw [require_true (Nat.sub_le _ _), ok_bind, SortRecordReader.readBody_ok valid compared,
      SortRecordReader.decode_ok _ _ _ key_reads
      value_reads paths ordered.2]
    simp only [SortRecordControl.moved, List.length_append, List.nil_append, Nat.add_zero,
      ← Nat.add_assoc]

end Everett

import Everett.Sort.RoundTrip

/-!
# The contract of sort record streams

Every accepted sequence ascends and is read back from its start and from each of its boundaries, and
a record which does not follow is refused without adding bits.
-/

namespace Everett

open Outcome

variable {S : Type} [DecidableEq S] {layout : SortLayout S}

theorem SortRecordControl.moved_moved (control : SortRecordControl) (first second : Nat) :
    (control.moved first).moved second = control.moved (second + first) := by
  simp [SortRecordControl.moved, Nat.add_assoc]

theorem SortRecordControl.map_moved (controls : List SortRecordControl) (first second : Nat) :
    (controls.map (·.moved first)).map (·.moved second) =
      controls.map (·.moved (second + first)) := by
  rw [List.map_map]
  exact List.map_congr_left fun control _ => control.moved_moved first second

theorem SortRecordControl.map_moved_zero (controls : List SortRecordControl) :
    controls.map (·.moved 0) = controls := by
  refine (List.map_congr_left fun control _ => ?_).trans (List.map_id controls)
  simp [SortRecordControl.moved]

namespace SortRecordWriter

open SortRecordState

variable {writer next final : SortRecordWriter layout} {record : SortRecord layout}
  {records : List (SortRecord layout)} {control : SortRecordControl}
  {controls : List SortRecordControl}

/-- An accepted record follows, and a reader takes what it published. -/
theorem append_ok (lawful : layout.Lawful) (alive : writer.failed = false)
    (valid : writer.state.validate = .ok ()) (done : writer.append record = (.ok control, next)) :
    record.Follows writer.state.previous ∧
      next.state.previous = some ⟨record.sort, record.key⟩ ∧ next.state.validate = .ok () ∧
      next.failed = false ∧ ∃ frame local_control, frame ≠ [] ∧ next.data = writer.data ++ frame ∧
        control = SortRecordControl.moved local_control writer.data.length ∧
        ∀ rest position, SortRecordReader.next ⟨⟨frame ++ rest, position⟩, writer.state, false⟩ =
          (.ok (some (record, local_control.moved position)),
            ⟨⟨rest, position + frame.length⟩, next.state, false⟩) := by
  rw [append, if_neg (by rw [alive]; exact Bool.false_ne_true)] at done
  cases appended : writer.appendRecord record with
  | error text =>
      rw [appended] at done
      cases done
  | ok result =>
      rw [appended] at done
      cases done
      obtain ⟨⟨path, comparison⟩, compared, rest⟩ := bind_eq_ok.mp appended
      obtain ⟨_, ordered, encoded⟩ := bind_eq_ok.mp rest
      have in_order := require_eq_ok.mp ordered
      obtain ⟨frame, local_control, nonempty, data, state, failed, moved, reads⟩ :=
        encode_ok lawful valid compared in_order encoded
      refine ⟨(inOrder_iff valid compared).mp in_order, ?_, ?_, failed.trans alive, frame,
        local_control, nonempty, data, moved, fun rest position => ?_⟩
      · rw [state]
      · rw [state]
        exact (validate_some rfl).mpr (sortCode_of_comparePath valid compared)
      · have some_bits : SortBitReader.empty ⟨frame ++ rest, position⟩ = false := by
          rw [SortBitReader.empty, List.isEmpty_eq_false_iff]
          exact List.append_ne_nil_of_left_ne_nil nonempty rest
        rw [SortRecordReader.next]
        dsimp only
        rw [if_neg Bool.false_ne_true, some_bits, if_neg Bool.false_ne_true, reads]

/-- A run of accepted records ascends, and a reader visits them all. -/
theorem appendAll_ok (lawful : layout.Lawful) (alive : writer.failed = false)
    (valid : writer.state.validate = .ok ())
    (done : writer.appendAll records = .ok (controls, final)) :
    Ascends writer.state.previous records ∧ final.failed = false ∧
      final.state.validate = .ok () ∧
      ∃ frames : BitString, ∃ local_controls : List SortRecordControl,
        final.data = writer.data ++ frames ∧
        local_controls.length = records.length ∧
        controls = local_controls.map (·.moved writer.data.length) ∧
        ∀ rest position, SortRecordReader.visit ⟨⟨frames ++ rest, position⟩, writer.state, false⟩
          records.length = .ok (records.zip (local_controls.map (·.moved position)),
            ⟨⟨rest, position + frames.length⟩, final.state, false⟩) := by
  induction records generalizing writer controls with
  | nil =>
      cases done
      exact ⟨trivial, alive, valid, [], [], (List.append_nil _).symm, rfl, rfl, fun _ _ => rfl⟩
  | cons record records induction =>
      obtain ⟨control, accepted, rest⟩ := bind_eq_ok.mp done
      obtain ⟨⟨more, last⟩, remaining, rest⟩ := bind_eq_ok.mp rest
      cases rest
      obtain ⟨follows, previous, next_valid, next_alive, frame, local_control, -, data, moved, read⟩ :=
        append_ok lawful alive valid (Prod.ext accepted rfl)
      obtain ⟨ascends, final_alive, final_valid, frames, local_controls, final_data, count,
        rest_controls, visits⟩ := induction next_alive next_valid remaining
      refine ⟨⟨follows, previous ▸ ascends⟩, final_alive, final_valid, frame ++ frames,
        local_control :: local_controls.map (·.moved frame.length), ?_, ?_, ?_,
        fun rest position => ?_⟩
      · rw [final_data, data, List.append_assoc]
      · rw [List.length_cons, List.length_map, count, List.length_cons]
      · rw [rest_controls, moved, List.map_cons, SortRecordControl.map_moved, data,
          List.length_append]
      · rw [List.append_assoc, List.length_cons, SortRecordReader.visit, read]
        dsimp only
        rw [ok_bind]
        dsimp only
        rw [visits, ok_bind, List.map_cons, SortRecordControl.map_moved, List.zip_cons_cons,
          List.length_append, Nat.add_assoc]

/-- A run splits at every boundary. -/
theorem appendAll_append {first second : List (SortRecord layout)}
    {middle : SortRecordWriter layout} {more : List SortRecordControl}
    (head : writer.appendAll first = .ok (controls, middle))
    (tail : middle.appendAll second = .ok (more, final)) :
    writer.appendAll (first ++ second) = .ok (controls ++ more, final) := by
  induction first generalizing writer controls with
  | nil =>
      cases head
      exact tail
  | cons record first induction =>
      obtain ⟨control, accepted, rest⟩ := bind_eq_ok.mp head
      obtain ⟨⟨others, last⟩, remaining, rest⟩ := bind_eq_ok.mp rest
      cases rest
      rw [List.cons_append, appendAll, accepted, ok_bind, induction remaining]
      rfl

/-- A record out of order is refused, and the writer keeps its bits and fails from then on. -/
theorem append_refuses (valid : writer.state.validate = .ok ()) (alive : writer.failed = false)
    (unordered : ¬ record.Follows writer.state.previous) :
    ∃ text, writer.append record = (.error text, { writer with failed := true }) ∧
      ∀ path, layout.registry.sortCode record.sort = .ok path →
        text = "sort records must have unique sorted keys" := by
  have refused : ∃ text, writer.appendRecord record = .error text ∧
      ∀ path, layout.registry.sortCode record.sort = .ok path →
        text = "sort records must have unique sorted keys" := by
    cases compared : comparePath writer.state record.sort with
    | error text =>
        refine ⟨text, by rw [appendRecord, compared]; rfl, fun path coded => ?_⟩
        unfold comparePath at compared
        split at compared
        · cases compared
        · rw [coded] at compared
          cases compared
    | ok result =>
        have out_of_order := mt (inOrder_iff valid compared).mp unordered
        refine ⟨_, ?_, fun _ _ => rfl⟩
        rw [appendRecord, compared, ok_bind]
        dsimp only
        rw [require, if_neg out_of_order]
        rfl
  obtain ⟨text, error, reason⟩ := refused
  refine ⟨text, ?_, reason⟩
  rw [append, if_neg (by rw [alive]; exact Bool.false_ne_true), error]

/-- A record in order is encoded: only its codecs and the extents of the stream may refuse it. -/
theorem appendRecord_of_follows (valid : writer.state.validate = .ok ())
    {path : BitString} {comparison : BitComparison}
    (compared : comparePath writer.state record.sort = .ok (path, comparison))
    (follows : record.Follows writer.state.previous) :
    writer.appendRecord record = writer.encode record path comparison.commonBits := by
  rw [appendRecord, compared, ok_bind]
  dsimp only
  rw [require_true ((inOrder_iff valid compared).mpr follows), ok_bind]

end SortRecordWriter

/-- A failed writer refuses every record. -/
theorem SortRecordWriter.append_failed {writer : SortRecordWriter layout} (failed : writer.failed = true)
    (record : SortRecord layout) :
    writer.append record = (.error "failed sort record writer", writer) := by
  rw [append, if_pos failed]

namespace SortRecordReader

/-- A reader visits exactly some records, at some controls, and ends in a state. -/
def Decodes (reader : SortRecordReader layout) (records : List (SortRecord layout))
    (controls : List SortRecordControl) (state : SortRecordState layout) : Prop :=
  ∃ visited last, reader.visit records.length = .ok (visited, last) ∧
    visited.map Prod.fst = records ∧ visited.map Prod.snd = controls ∧ last.state = state ∧
    last.next = (.ok none, last)

/-- The bits of a run decode to its records, at controls counted from their start. -/
theorem decodes_appended (lawful : layout.Lawful) {writer final : SortRecordWriter layout}
    {records : List (SortRecord layout)} {controls : List SortRecordControl}
    (alive : writer.failed = false) (valid : writer.state.validate = .ok ())
    (done : writer.appendAll records = .ok (controls, final)) :
    ∃ local_controls : List SortRecordControl,
      controls = local_controls.map (·.moved writer.data.length) ∧
      Decodes ⟨⟨final.data.drop writer.data.length, 0⟩, writer.state, false⟩ records local_controls
        final.state := by
  obtain ⟨-, -, -, frames, local_controls, data, count, moved, visits⟩ :=
    SortRecordWriter.appendAll_ok lawful alive valid done
  have visited := visits [] 0
  rw [SortRecordControl.map_moved_zero, List.append_nil] at visited
  rw [data, List.drop_left]
  exact ⟨local_controls, moved, _, _, visited, List.map_fst_zip count.ge, List.map_snd_zip count.le,
    rfl, rfl⟩

end SortRecordReader

/-- From an anchor, a run of accepted records ascends; its bits decode to the same records, controls
and state, from the anchor and from any boundary with the state of the writer there; a record which
does not follow poisons the writer and adds no bits, and one which follows is encoded. -/
theorem sort_record_stream (lawful : layout.Lawful) {anchor : SortRecordState layout}
    {opened middle : SortRecordWriter layout} (resumed : SortRecordWriter.resume anchor = .ok opened)
    {first : List (SortRecord layout)} {controls : List SortRecordControl}
    (head : opened.appendAll first = .ok (controls, middle)) :
    Ascends anchor.previous first ∧
    (∀ second more final, middle.appendAll second = .ok (more, final) →
      (∃ whole, SortRecordReader.resume final.data anchor = .ok whole ∧
        whole.Decodes (first ++ second) (controls ++ more) final.state) ∧
      ∃ part local_controls,
        SortRecordReader.resume (final.data.drop middle.data.length) middle.state = .ok part ∧
        part.Decodes second local_controls final.state ∧
        more = local_controls.map (·.moved middle.data.length)) ∧
    (∀ record : SortRecord layout, ¬ record.Follows middle.state.previous →
      ∃ text, middle.append record = (.error text, { middle with failed := true }) ∧
        (∀ path, layout.registry.sortCode record.sort = .ok path →
          text = "sort records must have unique sorted keys") ∧
        ∀ later, SortRecordWriter.append { middle with failed := true } later =
          (.error "failed sort record writer", { middle with failed := true })) ∧
    ∀ record : SortRecord layout, record.Follows middle.state.previous →
      ∀ path comparison,
        SortRecordWriter.comparePath middle.state record.sort = .ok (path, comparison) →
        middle.appendRecord record = middle.encode record path comparison.commonBits := by
  obtain ⟨_, anchored, rest⟩ := bind_eq_ok.mp resumed
  cases rest
  have valid : anchor.validate = .ok () := anchored
  obtain ⟨ascends, alive, middle_valid, -⟩ :=
    SortRecordWriter.appendAll_ok lawful rfl valid head
  refine ⟨ascends, fun second more final tail => ⟨?_, ?_⟩, fun record unordered => ?_, ?_⟩
  · obtain ⟨local_controls, moved, decodes⟩ := SortRecordReader.decodes_appended lawful rfl valid
      (SortRecordWriter.appendAll_append head tail)
    refine ⟨_, ?_, moved.trans (SortRecordControl.map_moved_zero _) ▸ decodes⟩
    rw [SortRecordReader.resume, valid, ok_bind]
    rfl
  · obtain ⟨local_controls, moved, decodes⟩ :=
      SortRecordReader.decodes_appended lawful alive middle_valid tail
    refine ⟨_, local_controls, ?_, decodes, moved⟩
    rw [SortRecordReader.resume, middle_valid, ok_bind]
  · obtain ⟨text, refused, reason⟩ := SortRecordWriter.append_refuses middle_valid alive unordered
    exact ⟨text, refused, reason, fun later => SortRecordWriter.append_failed rfl later⟩
  · exact fun record follows path comparison compared =>
      SortRecordWriter.appendRecord_of_follows middle_valid compared follows

/-- Two sorts below a hole: numbers with strings that may be deleted. -/
def SortLayout.numbered : SortLayout Bool where
  registry := .bin (.tip (some false)) (.bin .undefined (.tip (some true)))
  unique := by decide
  complete := by decide
  treeCode := ⟨.exponentialGolomb 0, CountCode.order_zero_le⟩
  Key _ := UInt64
  Value _ := Option (List UInt8)
  key _ := SortCodec.unsignedKey 8
  value _ := SortCodec.tombstoneValue (SortCodec.stringValue ⟨.golomb 3, by decide⟩)

theorem SortLayout.numbered_lawful : SortLayout.numbered.Lawful where
  key _ := SortCodec.unsignedKey_lawful 8
  value _ := SortCodec.tombstoneValue_lawful (SortCodec.stringValue_lawful _)

theorem sort_record_stream_numbered :
    let records : List (SortRecord SortLayout.numbered) :=
      [⟨false, (3 : UInt64), none⟩, ⟨false, (5 : UInt64), some [7]⟩, ⟨true, (1 : UInt64), none⟩]
    ∃ controls middle, SortRecordWriter.appendAll ⟨[], .initial _, false⟩ records =
      .ok (controls, middle) ∧ Ascends none records ∧
        ∀ record : SortRecord SortLayout.numbered, ¬ record.Follows middle.state.previous →
          (middle.append record).2 = { middle with failed := true } := by
  intro records
  have opened : SortRecordWriter.resume (.initial SortLayout.numbered) =
      .ok ⟨[], .initial _, false⟩ := rfl
  have run : SortRecordWriter.appendAll ⟨[], .initial _, false⟩ records = .ok (_, _) := rfl
  obtain ⟨ascends, -, refuses, -⟩ := sort_record_stream SortLayout.numbered_lawful opened run
  refine ⟨_, _, run, ascends, fun record unordered => ?_⟩
  obtain ⟨text, refused, -⟩ := refuses record unordered
  rw [refused]

end Everett

import Everett.Sort.Codecs
import Everett.Sort.Registry

/-!
# Sort record streams

A record holds the front-coded code of its sort, its key after the previous key of that sort, and
its value.  Writer and reader carry the code and the key of the record before.
-/

namespace Everett

open Outcome

/-- What the codecs and the registry of a stream fix at compile time: each sort of the registry has
one code, a key codec and a value codec. -/
structure SortLayout (S : Type) where
  registry : SortRegistry S
  /-- "each sort type must have exactly one registry code". -/
  unique : registry.leaves.Nodup
  /-- The sorts are those of the registry. -/
  complete : ∀ sort, sort ∈ registry.leaves
  treeCode : CountCode
  Key : S → Type
  Value : S → Type
  key : ∀ sort, KeyCodec (Key sort)
  value : ∀ sort, ValueCodec (Value sort)

namespace SortLayout

variable {S : Type}

/-- The borrowed role of a stream: `no_value` for every sort. -/
def borrowed (layout : SortLayout S) : SortLayout S where
  registry := layout.registry
  unique := layout.unique
  complete := layout.complete
  treeCode := layout.treeCode
  Key := layout.Key
  Value _ := Unit
  key := layout.key
  value _ := SortCodec.noValue

/-- Every codec of the stream is lawful. -/
structure Lawful (layout : SortLayout S) : Prop where
  key : ∀ sort, (layout.key sort).Lawful
  value : ∀ sort, (layout.value sort).Lawful

theorem Lawful.borrowed {layout : SortLayout S} (lawful : layout.Lawful) : layout.borrowed.Lawful where
  key := lawful.key
  value _ := SortCodec.noValue_lawful

end SortLayout

variable {S : Type} [DecidableEq S] {layout : SortLayout S}

/-- A typed record. -/
structure SortRecord (layout : SortLayout S) where
  sort : S
  key : layout.Key sort
  value : layout.Value sort

/-- `key_state`: the last key, with its sort. -/
structure SortKeyState (layout : SortLayout S) where
  sort : S
  key : layout.Key sort

/-- `sort_record_control`. -/
structure SortRecordControl where
  start : Nat
  sortRetained : Nat
  sortBits : Nat
  keyStart : Nat
  valueStart : Nat
  finish : Nat
  deriving DecidableEq

/-- The control of the same record further on. -/
def SortRecordControl.moved (control : SortRecordControl) (offset : Nat) : SortRecordControl :=
  { control with
    start := offset + control.start
    keyStart := offset + control.keyStart
    valueStart := offset + control.valueStart
    finish := offset + control.finish }

/-- `sort_record_state`. -/
structure SortRecordState (layout : SortLayout S) where
  path : BitString
  previous : Option (SortKeyState layout)

namespace SortRecordState

/-- The default state. -/
def initial (layout : SortLayout S) : SortRecordState layout := ⟨[], none⟩

/-- `validate`. -/
def validate (state : SortRecordState layout) : Result Unit :=
  match state.previous with
  | none => require (state.path = []) "sort anchor has no key"
  | some previous => do
      let path ← layout.registry.sortCode previous.sort
      require (state.path = path) "sort anchor path disagrees with key type"

/-- `get_if` of the previous key at a sort. -/
def previousFor (state : SortRecordState layout) (sort : S) : Option (layout.Key sort) :=
  match state.previous with
  | some previous => if same : previous.sort = sort then some (same ▸ previous.key) else none
  | none => none

end SortRecordState

/-! ## Writing -/

/-- `sort_record_writer`. -/
structure SortRecordWriter (layout : SortLayout S) where
  data : BitString
  state : SortRecordState layout
  failed : Bool

namespace SortRecordWriter

/-- The constructor from an anchor. -/
def resume (state : SortRecordState layout) : Result (SortRecordWriter layout) := do
  state.validate
  .ok ⟨[], state, false⟩

/-- The code of a sort, and its comparison with the path.  The path is not compared with itself. -/
def comparePath (state : SortRecordState layout) (sort : S) : Result (BitString × BitComparison) :=
  match state.previousFor sort with
  | some _ => .ok (state.path, ⟨state.path.length, .eq⟩)
  | none => do
      let path ← layout.registry.sortCode sort
      .ok (path, compareCommonBits state.path path)

/-- Encode a record after its order was checked, and publish its bits. -/
def encode (writer : SortRecordWriter layout) (record : SortRecord layout) (path : BitString)
    (retained : Nat) : Result (SortRecordControl × SortRecordWriter layout) := do
  let start := writer.data.length
  let count ← SortBitWriter.writeCount layout.treeCode [] (writer.state.path.length - retained)
  let code ← ProfileDetail.append count (path.drop retained)
  let key ← (layout.key record.sort).write record.key (writer.state.previousFor record.sort) code
  let frame ← (layout.value record.sort).write record.value key
  let data ← ProfileDetail.append writer.data frame
  .ok (⟨start, retained, path.length, start + code.length, start + key.length,
    start + frame.length⟩, ⟨data, ⟨path, some ⟨record.sort, record.key⟩⟩, writer.failed⟩)

/-- The order which `append` checks. -/
def InOrder (state : SortRecordState layout) (record : SortRecord layout)
    (comparison : BitComparison) : Prop :=
  ¬ (state.previous.isSome ∧ comparison.order = .gt) ∧
    ∀ key ∈ state.previousFor record.sort, (layout.key record.sort).less key record.key

instance (state : SortRecordState layout) (record : SortRecord layout)
    (comparison : BitComparison) : Decidable (InOrder state record comparison) :=
  inferInstanceAs (Decidable (_ ∧ _))

/-- The body of `append`. -/
def appendRecord (writer : SortRecordWriter layout) (record : SortRecord layout) :
    Result (SortRecordControl × SortRecordWriter layout) := do
  let (path, comparison) ← comparePath writer.state record.sort
  require (InOrder writer.state record comparison) "sort records must have unique sorted keys"
  writer.encode record path comparison.commonBits

/-- `append`: an exception poisons the writer. -/
def append (writer : SortRecordWriter layout) (record : SortRecord layout) :
    Result SortRecordControl × SortRecordWriter layout :=
  if writer.failed then (.error "failed sort record writer", writer)
  else match writer.appendRecord record with
    | .ok (control, next) => (.ok control, next)
    | .error text => (.error text, { writer with failed := true })

/-- Append records until one is refused. -/
def appendAll (writer : SortRecordWriter layout) :
    List (SortRecord layout) → Result (List SortRecordControl × SortRecordWriter layout)
  | [] => .ok ([], writer)
  | record :: records =>
      (writer.append record).1 >>= fun control => do
        let (controls, final) ← (writer.append record).2.appendAll records
        .ok (control :: controls, final)

end SortRecordWriter

/-! ## Reading -/

/-- `sort_record_reader`. -/
structure SortRecordReader (layout : SortLayout S) where
  input : SortBitReader
  state : SortRecordState layout
  failed : Bool

namespace SortRecordReader

/-- The constructor from an anchor. -/
def resume (data : BitString) (state : SortRecordState layout) :
    Result (SortRecordReader layout) := do
  state.validate
  .ok ⟨⟨data, 0⟩, state, false⟩

/-- `decode`: read a record of a sort after its path.  A reused path is not compared. -/
def decode (state : SortRecordState layout) (start retained : Nat) (reuse : Bool) (path : BitString)
    (sort : S) (input : SortBitReader) :
    Result ((SortRecord layout × SortRecordControl) × SortRecordState layout × SortBitReader) := do
  let previous := state.previousFor sort
  let (key, keyInput) ← (layout.key sort).read previous input
  let (value, valueInput) ← (layout.value sort).read keyInput
  require (¬ (state.previous.isSome ∧ reuse = false ∧ compareBits state.path path = .gt) ∧
    ∀ before ∈ previous, (layout.key sort).less before key)
    "sort records must have unique sorted keys"
  .ok ((⟨sort, key, value⟩, ⟨start, retained, path.length, input.position, keyInput.position,
    valueInput.position⟩), ⟨path, some ⟨sort, key⟩⟩, valueInput)

/-- Walk the registry through the retained and the new bits of a path. -/
def walk (state : SortRecordState layout) (start retained : Nat) (input : SortBitReader) :
    Result ((SortRecord layout × SortRecordControl) × SortRecordState layout × SortBitReader) := do
  let (sort, walked) ← layout.registry.dispatch SortPrefixReader.readBit
    ⟨input, state.path.take retained, 0, []⟩
  require (walked.replayed = retained) "retained sort prefix crosses leaf"
  decode state start retained false walked.path sort walked.input

/-- Retaining the complete path identifies its leaf. -/
def readBody (state : SortRecordState layout) (start backspace : Nat) (input : SortBitReader) :
    Result ((SortRecord layout × SortRecordControl) × SortRecordState layout × SortBitReader) :=
  match state.previous, backspace with
  | some previous, 0 => decode state start state.path.length true state.path previous.sort input
  | _, _ => walk state start (state.path.length - backspace) input

/-- The body of `next`. -/
def readRecord (state : SortRecordState layout) (input : SortBitReader) :
    Result ((SortRecord layout × SortRecordControl) × SortRecordState layout × SortBitReader) := do
  let (backspace, body) ← input.readCount layout.treeCode
  require (backspace ≤ state.path.length) "sort backspace exceeds path"
  readBody state input.position backspace body

/-- `next`: the record it visits, or none at the end.  An exception poisons the reader. -/
def next (reader : SortRecordReader layout) :
    Result (Option (SortRecord layout × SortRecordControl)) × SortRecordReader layout :=
  if reader.failed then (.error "failed sort record reader", reader)
  else if reader.input.empty then (.ok none, reader)
  else match readRecord reader.state reader.input with
    | .ok (record, state, input) => (.ok (some record), ⟨input, state, reader.failed⟩)
    | .error text => (.error text, { reader with failed := true })

/-- Visit some number of records. -/
def visit (reader : SortRecordReader layout) : Nat →
    Result (List (SortRecord layout × SortRecordControl) × SortRecordReader layout)
  | 0 => .ok ([], reader)
  | count + 1 => (reader.next).1 >>= fun
      | none => .error "end of sort records"
      | some record => do
          let (records, final) ← (reader.next).2.visit count
          .ok (record :: records, final)

end SortRecordReader

end Everett

import Everett.EliasFano.Cursor
import Everett.SortProfile.Selector

/-!
# Writing sort profiles

A sort profile keeps one path for each sort in a dictionary.  The record at the start of a block
names its sort by a packed seed; another record backs up into the preceding key, and it spells the
rest of its path only when its sort changes.
-/

namespace Everett

open Outcome

/-- `sort_profile_frame`. -/
structure SortProfileFrame (S : Type) where
  ordinal : Nat
  retained : Nat
  keyUnits : Nat
  nextOffset : Nat
  /-- The rest of the path and the literal of the key. -/
  literal : List BitString
  value : BitString
  path : BitString
  /-- Where the path stands in the dictionary. -/
  pathOffset : Nat
  leaf : S
  frontCoded : Bool
  retainedLimitBits : Option Nat

/-- A frame whose sort and path are known, but nothing else. -/
def SortProfileFrame.of {S : Type} (ordinal : Nat) (leaf : S) (frontCoded : Bool)
    (path : BitString) (pathOffset : Nat) : SortProfileFrame S :=
  ⟨ordinal, 0, 0, 0, [], [], path, pathOffset, leaf, frontCoded, none⟩

/-- `continuation()`: how much of a key the next record may inherit. -/
def SortProfileFrame.continuation {S : Type} (frame : SortProfileFrame S) : Nat :=
  if frame.frontCoded then frame.keyUnits else frame.path.length

/-- `exponential_golomb<0>`. -/
def CountCode.exponential : CountCode := ⟨.exponentialGolomb 0, CountCode.order_zero_le⟩

theorem StoragePolicy.backspace_bounded (P : StoragePolicy) : match P.backspaceCode with
    | .exponentialGolomb order => order ≤ 63
    | .golomb modulus => 0 < modulus ∧ modulus ≤ maximum64 := by
  obtain ⟨_, _, code, _, _, _, _, _, valid, _, _⟩ := P
  cases code <;> exact valid

/-- `backspace_encoding` of a policy. -/
def StoragePolicy.backspace (P : StoragePolicy) : CountCode :=
  ⟨P.backspaceCode, P.backspace_bounded⟩

/-- What the metadata of an array says about it. -/
structure SortProfileMetadata where
  recordCount : Nat
  extent : Nat
  terminalKeyUnits : Nat
  commonValueWidth : Option Nat
  deriving DecidableEq

/-- `sort_profile_array`. -/
structure SortProfileArray where
  data : BitString
  dictionary : BitString
  dictionaryOffsets : List Nat
  seeds : BitString
  offsets : EliasFano.Index
  metadata : SortProfileMetadata

/-- `sort_profile_detail::encoder`. -/
structure SortProfileEncoder (S : Type) where
  metadata : SortProfileMetadata
  dictionary : BitString
  dictionaryOffsets : List Nat
  /-- `ids_`: the sorts of the dictionary. -/
  ids : List S
  previousPath : BitString
  rawOffsets : List Nat
  blockSeeds : List Nat
  previousContinuation : Nat

namespace SortProfileEncoder

variable {S : Type} [DecidableEq S] (P : StoragePolicy) (layout : SortProfileLayout S)

/-- An encoder of no records. -/
def start : SortProfileEncoder S where
  metadata := ⟨0, 0, 0, some (P.valueWidth.getD 0)⟩
  dictionary := []
  dictionaryOffsets := [0]
  ids := []
  previousPath := []
  rawOffsets := []
  blockSeeds := []
  previousContinuation := 0

/-- `size()`. -/
def size (encoder : SortProfileEncoder S) : Nat := encoder.metadata.recordCount

/-- Add a sort to the dictionary unless it is there. -/
def identify (encoder : SortProfileEncoder S) (sort : S) (path : BitString) :
    Result (SortProfileEncoder S) :=
  if sort ∈ encoder.ids then .ok encoder
  else do
    let dictionary ← ProfileDetail.append encoder.dictionary path
    .ok { encoder with
      ids := encoder.ids ++ [sort]
      dictionary
      dictionaryOffsets := encoder.dictionaryOffsets ++ [dictionary.length] }

/-- Append what lies past a position of a key in spans. -/
def appendSpans : BitString → Nat → List BitString → Result BitString
  | out, _, [] => .ok out
  | out, skip, part :: rest => do
      let dropped := min skip part.length
      let out ← ProfileDetail.append out (part.drop dropped)
      appendSpans out (skip - dropped) rest

/-- Whether the preceding record has the same path. -/
def samePath (encoder : SortProfileEncoder S) (path : BitString) : Bool :=
  encoder.size ≠ 0 && compareBits encoder.previousPath path = .eq

/-- The bits of a key which a record retains, before and after its limit. -/
def retain (same frontCoded : Bool) (path : BitString) (total common : Nat) (limit : Option Nat) :
    Result Nat := do
  let retained := if same && frontCoded then common else path.length
  require (path.length ≤ retained ∧ retained ≤ total) "sort retained prefix outside key"
  .ok (match limit with
    | some limit => min retained (max path.length limit)
    | none => retained)

/-- What stands before the header of a key: the count of a restart, or a backspace and the rest of
a new path. -/
def control (encoder : SortProfileEncoder S) (out path : BitString) (sort : S) (same : Bool)
    (retained : Nat) : Result (BitString × SortProfileEncoder S) :=
  if encoder.size % P.codecBlockSize = 0 then do
    let next ← SortBitWriter.writeCount .exponential out retained
    .ok (next, { encoder with
      rawOffsets := encoder.rawOffsets ++ [out.length]
      blockSeeds := encoder.blockSeeds ++ [encoder.ids.idxOf sort] })
  else do
    let joint := if same then retained
      else (compareCommonBits encoder.previousPath path).commonBits
    require (joint ≤ encoder.previousContinuation) "sort backspace exceeds continuation"
    let out ← SortBitWriter.writeCount P.backspace out (encoder.previousContinuation - joint)
    let out ← if same then .ok out else ProfileDetail.append out (path.drop joint)
    .ok (out, encoder)

/-- Note a record after its bits. -/
def note (encoder : SortProfileEncoder S) (path value : BitString) (frontCoded : Bool)
    (keyBits total : Nat) : SortProfileEncoder S :=
  { encoder with
    metadata := { encoder.metadata with
      commonValueWidth :=
        if encoder.size = 0 then some value.length
        else if encoder.metadata.commonValueWidth = some value.length then
          encoder.metadata.commonValueWidth
        else none
      recordCount := encoder.size + 1
      terminalKeyUnits := total }
    previousPath := path
    previousContinuation := path.length + if frontCoded then keyBits else 0 }

/-- `append`: a key in spans which shares `common` bits with the preceding one, and a value. -/
def append (encoder : SortProfileEncoder S) (out : BitString) (sort : S) (path : BitString)
    (keyBits : Nat) (key : List BitString) (value : BitString) (common : Nat)
    (limit : Option Nat) : Result (BitString × SortProfileEncoder S) := do
  let (_, rest) ← (layout.value sort).skip ⟨value, 0⟩
  require (rest.empty = true) "trailing sort profile value bits"
  let total ← key.foldlM (fun total part => ProfileDetail.add total part.length) 0
  let declared ← ProfileDetail.add path.length keyBits
  require (total = declared ∧ common ≤ total) "sort merge key spans"
  let encoder ← encoder.identify sort path
  let same := encoder.samePath path
  let retained ← retain same (layout.key sort).frontCoded path total common limit
  let (out, encoder) ← encoder.control P out path sort same retained
  let inner := retained - path.length
  let out ← (layout.key sort).header out inner (keyBits - inner)
  let out ← appendSpans out retained key
  let out ← ProfileDetail.append out value
  .ok (out, encoder.note path value (layout.key sort).frontCoded keyBits total)

/-- `append_frame`. -/
def appendFrame (encoder : SortProfileEncoder S) (out : BitString) (frame : SortProfileFrame S)
    (spans : List BitString) (common : Nat) (value : BitString) :
    Result (BitString × SortProfileEncoder S) :=
  encoder.append P layout out frame.leaf frame.path (frame.keyUnits - frame.path.length) spans value
    common frame.retainedLimitBits

/-- Width of a seed in a dictionary of some sorts. -/
def seedWidth (sorts : Nat) : Nat := if sorts < 2 then 0 else (sorts - 1).size

/-- Offsets of blocks without the values before them. -/
def residuals (encoder : SortProfileEncoder S) (extent : Nat) : List Nat :=
  let raw := encoder.rawOffsets ++ [extent]
  let common := encoder.metadata.commonValueWidth.getD 0
  raw.zipIdx.map fun (offset, i) =>
    offset - (if i + 1 = raw.length then encoder.size else i * P.codecBlockSize) * common

/-- `finish`, and the array it is adopted as. -/
def finish (encoder : SortProfileEncoder S) (data : BitString) : Result SortProfileArray := do
  let offsets ← EliasFano.build ((encoder.residuals P data.length).map (BitVec.ofNat 64))
  let seeds ← encoder.blockSeeds.foldlM
    (fun out id => SortBitWriter.writeBits out id (seedWidth encoder.ids.length)) []
  .ok ⟨data, encoder.dictionary, encoder.dictionaryOffsets, seeds, offsets,
    { encoder.metadata with extent := data.length }⟩

end SortProfileEncoder

/-- A typed record with a limit to what it retains. -/
structure SortProfileRecord {S : Type} (layout : SortProfileLayout S) where
  sort : S
  key : layout.Key sort
  value : layout.Value sort
  retainedLimitBits : Option Nat

/-- `sort_profile_writer`. -/
structure SortProfileWriter (S : Type) where
  data : BitString
  encoder : SortProfileEncoder S
  previous : BitString

namespace SortProfileWriter

variable {S : Type} [DecidableEq S] (P : StoragePolicy) (layout : SortProfileLayout S)

/-- A writer of no records. -/
def start : SortProfileWriter S := ⟨[], .start P, []⟩

/-- `append`: keys must strictly increase. -/
def append (writer : SortProfileWriter S) (record : SortProfileRecord layout) :
    Result (SortProfileWriter S) := do
  let path ← layout.selector.write record.sort []
  let value ← (layout.value record.sort).write record.value []
  let bits ← (layout.key record.sort).order record.key
  let logical ← ProfileDetail.append path bits
  let comparison := compareCommonBits writer.previous logical
  require (writer.encoder.size = 0 ∨ comparison.order = .lt)
    "sort profile requires unique sorted keys"
  let (data, encoder) ← writer.encoder.append P layout writer.data record.sort path bits.length
    [logical] value comparison.commonBits record.retainedLimitBits
  .ok ⟨data, encoder, logical⟩

/-- `append_frame`: trusted output of a merge. -/
def appendFrame (writer : SortProfileWriter S) (frame : SortProfileFrame S)
    (spans : List BitString) (common : Nat) (value : BitString) : Result (SortProfileWriter S) := do
  let (data, encoder) ← writer.encoder.appendFrame P layout writer.data frame spans common value
  .ok { writer with data, encoder }

/-- `finish`. -/
def finish (writer : SortProfileWriter S) : Result SortProfileArray :=
  writer.encoder.finish P writer.data

/-- Write records in order. -/
def writeAll (records : List (SortProfileRecord layout)) : Result SortProfileArray := do
  let writer ← records.foldlM (append P layout) (start P)
  writer.finish P

end SortProfileWriter

end Everett

import Everett.Profile.Comparison
import Everett.SortProfile.Encoder

/-!
# Reading sort profiles

A view enters a block through its seed, and goes on from frame to frame.  What a frame retains is
relative to the preceding key, except that a restart of a whole key also supplies its path.
-/

namespace Everett

open Outcome

namespace SortProfileSpans

/-- The spans of a key past a position. -/
def past : Nat → List BitString → List BitString
  | _, [] => []
  | first, part :: rest =>
      if part.length ≤ first then past (first - part.length) rest else part.drop first :: rest

/-- The loop of `compare_spans` after `common` equal bits. -/
def compareFrom (common : Nat) : List BitString → List BitString → BitComparison
  | [], b => ⟨common, if b.flatten = [] then .eq else .lt⟩
  | a, [] => ⟨common, if a.flatten = [] then .eq else .gt⟩
  | a :: as, b :: bs =>
      let width := min a.length b.length
      let result := compareCommonBits (a.take width) (b.take width)
      if result.order ≠ .eq then ⟨common + result.commonBits, result.order⟩
      else if a.length ≤ b.length then
        compareFrom (common + width) as (if b.length ≤ a.length then bs else b.drop width :: bs)
      else compareFrom (common + width) (a.drop width :: as) bs
  termination_by a b => a.length + b.length
  decreasing_by
    · split
      · simp only [List.length_cons]
        omega
      · simp only [List.length_cons]
        omega
    · simp only [List.length_cons]
      omega

/-- `compare_spans`. -/
def compare (a b : List BitString) (firstA firstB : Nat) : BitComparison :=
  compareFrom 0 (past firstA a) (past firstB b)

end SortProfileSpans

namespace SortProfileArray

variable {S : Type} (P : StoragePolicy) (layout : SortProfileLayout S) (deposits : Bool)
  (array : SortProfileArray)

/-- `size()`. -/
def size : Nat := array.metadata.recordCount

/-- `block_count()`. -/
def blockCount : Nat :=
  array.size / P.codecBlockSize + if array.size % P.codecBlockSize ≠ 0 then 1 else 0

/-- `dictionary_size()`. -/
def dictionarySize : Nat := array.dictionaryOffsets.length - 1

/-- `seed_width()`. -/
def seedWidth : Nat := SortProfileEncoder.seedWidth array.dictionarySize

/-- The checks of `sort_profile_view`. -/
def check : Result Unit := do
  require (array.metadata.extent = array.data.length ∧ array.dictionaryOffsets ≠ [])
    "sort profile metadata mismatch"
  require (¬ (array.size = 0 ∧ (array.metadata.extent ≠ 0 ∨ array.metadata.terminalKeyUnits ≠ 0)) ∧
      ∀ width ∈ P.valueWidth, array.metadata.commonValueWidth = some width)
    "noncanonical sort profile metadata"
  let seeds ← ProfileDetail.multiply (array.blockCount P) array.seedWidth
  let values ← ProfileDetail.multiply array.size (array.metadata.commonValueWidth.getD 0)
  require ((array.size = 0 ↔ array.dictionarySize = 0) ∧
      array.offsets.entryCount = array.blockCount P + 1 ∧ array.seeds.length = seeds ∧
      values ≤ array.metadata.extent ∧ array.offsets.universe_ = array.metadata.extent - values)
    "sort profile section shape mismatch"

/-- `block_offset`. -/
def blockOffset (block : Nat) : Result Nat := do
  require (block ≤ array.blockCount P) "sort profile block"
  let ordinal := if block = array.blockCount P then array.size else block * P.codecBlockSize
  let residual ← EliasFano.select deposits array.offsets block
  .ok (residual.toNat + ordinal * array.metadata.commonValueWidth.getD 0)

/-- The path of an entry of the dictionary, and where it stands. -/
def dictionaryEntry (id : Nat) : Result (BitString × Nat) := do
  let first ← demand array.dictionaryOffsets[id]? "sort profile dictionary range"
  let last ← demand array.dictionaryOffsets[id + 1]? "sort profile dictionary range"
  require (first ≤ last ∧ last ≤ array.dictionary.length) "sort profile dictionary range"
  .ok ((array.dictionary.drop first).take (last - first), first)

/-- Look a path up in the entries of the dictionary from one on. -/
def findPath (path : BitString) : Nat → Nat → Result (BitString × Nat)
  | 0, _ => .error "sort transition absent from dictionary"
  | count + 1, id => do
      let (candidate, first) ← array.dictionaryEntry id
      if compareBits candidate path = .eq then .ok (candidate, first)
      else findPath path count (id + 1)

/-- A bit reader of the data from a position on. -/
def readerAt (position : Nat) : Result SortBitReader := do
  require (position ≤ array.data.length) "bit subview"
  .ok ⟨array.data.drop position, 0⟩

/-- `payload`: parse what follows the control of a frame. -/
def payload (position retained : Nat) (frame : SortProfileFrame S) (same restart : Bool) :
    Result (SortProfileFrame S) := do
  let inner := if same then retained else frame.path.length
  let reader ← array.readerAt position
  require (frame.path.length ≤ inner) "sort profile retained position precedes leaf"
  let (key, reader) ← (layout.key frame.leaf).read (inner - frame.path.length) reader
  let start := reader.position
  let (_, reader) ← (layout.value frame.leaf).skip reader
  let inherit := same && (key.retainedBits ≠ 0 || !restart)
  let retained := if inherit then retained else if same then 0 else retained
  let keyBits ← ProfileDetail.add key.retainedBits key.literal.length
  let keyUnits ← ProfileDetail.add frame.path.length keyBits
  let value := (array.data.drop (position + start)).take (reader.position - start)
  require (∀ width ∈ array.metadata.commonValueWidth, value.length = width)
    "sort profile fixed value width mismatch"
  .ok { frame with
    retained
    literal := [if inherit then [] else frame.path.drop retained, key.literal]
    keyUnits
    value
    nextOffset := position + reader.position }

/-- The sort of a path in the dictionary; the preceding frame of the same path knows it. -/
def selectSeed (path : BitString) (first : Nat) (previous : Option (SortProfileFrame S)) :
    Result (S × Bool) :=
  let selected : Result (S × Bool) := do
    let (sort, code) ← layout.selector.select ⟨path, 0⟩
    require (code.empty = true) "trailing selector code bits"
    .ok (sort, (layout.key sort).frontCoded)
  match previous with
  | some frame =>
      if frame.pathOffset = first ∧ frame.path.length = path.length then
        .ok (frame.leaf, frame.frontCoded)
      else selected
  | none => selected

/-- `start_block`. -/
def startBlock (block : Nat) (previous : Option (SortProfileFrame S)) :
    Result (SortProfileFrame S) := do
  let id := if array.seedWidth = 0 then 0
    else BitField.ofBits ((array.seeds.drop (block * array.seedWidth)).take array.seedWidth)
  require (id < array.dictionarySize) "sort profile seed ID"
  let (path, first) ← array.dictionaryEntry id
  let (leaf, frontCoded) ← selectSeed layout path first previous
  let position ← array.blockOffset P deposits block
  let reader ← array.readerAt position
  let (retained, reader) ← reader.readCount .exponential
  array.payload layout (position + reader.position) retained
    (.of (block * P.codecBlockSize) leaf frontCoded path first) true true

/-- The sort, the path and the rest of a frame whose sort changes. -/
def transition (position retained : Nat) (previous : SortProfileFrame S) :
    Result (Nat × SortProfileFrame S) := do
  let reader ← array.readerAt position
  let (leaf, walked) ← layout.selector.selectReplayed
    ⟨reader, previous.path.take retained, 0, []⟩
  require (walked.replayed = retained) "sort profile prefix crosses selector leaf"
  let (path, first) ← array.findPath walked.path array.dictionarySize 0
  .ok (position + walked.input.position,
    .of (previous.ordinal + 1) leaf (layout.key leaf).frontCoded path first)

/-- `next`. -/
def next (previous : SortProfileFrame S) : Result (SortProfileFrame S) := do
  let ordinal := previous.ordinal + 1
  require (ordinal < array.size) "sort profile successor"
  if ordinal % P.codecBlockSize = 0 then do
    let position ← array.blockOffset P deposits (ordinal / P.codecBlockSize)
    require (position = previous.nextOffset) "sort profile block offset mismatch"
    array.startBlock P layout deposits (ordinal / P.codecBlockSize) (some previous)
  else do
    let reader ← array.readerAt previous.nextOffset
    let (backspace, reader) ← reader.readCount P.backspace
    require (backspace ≤ previous.continuation) "sort profile backspace exceeds cursor"
    let position := previous.nextOffset + reader.position
    let retained := previous.continuation - backspace
    if previous.path.length ≤ retained then
      array.payload layout position retained
        (.of ordinal previous.leaf previous.frontCoded previous.path previous.pathOffset) true false
    else do
      let (position, frame) ← array.transition layout position retained previous
      array.payload layout position retained frame false false

/-- Some frames further on. -/
def nexts : Nat → SortProfileFrame S → Result (SortProfileFrame S)
  | 0, frame => .ok frame
  | count + 1, frame => do
      let frame ← array.next P layout deposits frame
      nexts count frame

/-- `encoded_at`. -/
def encodedAt (ordinal : Nat) : Result (SortProfileFrame S) := do
  require (ordinal < array.size) "sort profile ordinal"
  let first ← array.startBlock P layout deposits (ordinal / P.codecBlockSize) none
  array.nexts P layout deposits (ordinal - first.ordinal) first

/-- The loop of `compare_window` over some records, the first of which is framed. -/
def compareRecords {σ : Type} (callback : σ → ComparisonItem → Result (σ × Bool)) :
    Nat → Nat → SortProfileFrame S → QueryContext → σ → Result σ
  | 0, _, _, _, state => .ok state
  | count + 1, ordinal, frame, context, state => do
      let context ← context.advanceParts P frame.retained frame.keyUnits frame.literal
      let (state, more) ← callback state ⟨ordinal, context, frame.value⟩
      if more then
        if count = 0 then .ok state
        else do
          let frame ← array.next P layout deposits frame
          compareRecords callback count (ordinal + 1) frame context state
      else .ok state

/-- `compare_window`. -/
def compareWindow {σ : Type} (first last : Nat) (context : QueryContext)
    (callback : σ → ComparisonItem → Result (σ × Bool)) (state : σ) : Result σ := do
  require (first ≤ last ∧ last ≤ array.size ∧ last - first ≤ P.groupSize)
    "sort profile query window"
  if first = last then .ok state
  else do
    let frame ← array.encodedAt P layout deposits first
    array.compareRecords P layout deposits callback (last - first) first frame context state

end SortProfileArray

/-- `sort_profile_cursor`. -/
structure SortProfileCursor (S : Type) where
  ordinal : Nat
  /-- The frame of the current record; none before the first was read. -/
  frame : Option (SortProfileFrame S)
  key : BitString

namespace SortProfileCursor

variable {S : Type} (P : StoragePolicy) (layout : SortProfileLayout S) (deposits : Bool)
  (array : SortProfileArray)

/-- Append the parts of a literal. -/
def appendParts (key : BitString) (parts : List BitString) : Result BitString :=
  parts.foldlM ProfileDetail.append key

/-- Open a cursor at the native lower bound of a query. -/
def start (ordinal : Nat) (query : BitString) : Result (SortProfileCursor S) := do
  require (ordinal ≤ array.size) "sort profile cursor ordinal"
  if ordinal = array.size then .ok ⟨ordinal, none, []⟩
  else do
    let frame ← array.encodedAt P layout deposits ordinal
    require (frame.retained ≤ query.length) "sort cursor missing query prefix"
    let key ← appendParts (query.take frame.retained) frame.literal
    .ok ⟨ordinal, some frame, key⟩

/-- `done()`. -/
def done (cursor : SortProfileCursor S) : Bool := cursor.ordinal = array.size

/-- `peek()`: ordinal, key and value of the current record. -/
def peek (cursor : SortProfileCursor S) : Result (Nat × BitString × BitString) := do
  require (cursor.done array = false) "sort profile cursor end"
  let frame ← demand cursor.frame "sort profile cursor end"
  .ok (cursor.ordinal, cursor.key, frame.value)

/-- `advance_comparison()`. -/
def advanceComparison (cursor : SortProfileCursor S) :
    Result (SortProfileCursor S × Option BitComparison) := do
  require (cursor.done array = false) "sort profile cursor end"
  let frame ← demand cursor.frame "sort profile cursor end"
  if cursor.ordinal + 1 = array.size then do
    require (frame.nextOffset = array.data.length ∧
      frame.keyUnits = array.metadata.terminalKeyUnits) "sort profile terminal framing mismatch"
    .ok ({ cursor with ordinal := cursor.ordinal + 1 }, none)
  else do
    let frame ← array.next P layout deposits frame
    require (frame.retained ≤ cursor.key.length) "sort cursor missing inherited prefix"
    let comparison := SortProfileSpans.compare [cursor.key] frame.literal frame.retained 0
    let key ← appendParts (cursor.key.take frame.retained) frame.literal
    .ok (⟨cursor.ordinal + 1, some frame, key⟩,
      some ⟨comparison.commonBits + frame.retained, comparison.order⟩)

/-- Read some records: their keys and values, and how each compares with the next one. -/
def read : Nat → SortProfileCursor S →
    Result (List (BitString × BitString) × List (Option BitComparison) × SortProfileCursor S)
  | 0, cursor => .ok ([], [], cursor)
  | count + 1, cursor => do
      let (_, key, value) ← cursor.peek array
      let (cursor, comparison) ← cursor.advanceComparison P layout deposits array
      let (records, comparisons, cursor) ← read count cursor
      .ok ((key, value) :: records, comparison :: comparisons, cursor)

/-- The loop of `scan`. -/
def scanRecords : Nat → SortProfileCursor S → Result Unit
  | 0, _ => .ok ()
  | count + 1, cursor => do
      let (cursor, comparison) ← cursor.advanceComparison P layout deposits array
      require (∀ found ∈ comparison, found.order = .lt) "unsorted sort profile"
      scanRecords count cursor

end SortProfileCursor

namespace SortProfileArray

variable {S : Type} (P : StoragePolicy) (layout : SortProfileLayout S) (deposits : Bool)
  (array : SortProfileArray)

/-- `scan`. -/
def scan : Result Unit := do
  require (array.dictionaryOffsets[0]? = some 0 ∧
      array.dictionaryOffsets[array.dictionarySize]? = some array.dictionary.length)
    "sort profile section endpoints"
  let first ← array.blockOffset P deposits 0
  require (first = 0) "sort profile section endpoints"
  let last ← array.blockOffset P deposits (array.blockCount P)
  require (last = array.data.length) "sort profile section endpoints"
  if array.size = 0 then .ok ()
  else do
    let cursor ← SortProfileCursor.start P layout deposits array 0 []
    cursor.scanRecords P layout deposits array array.size

end SortProfileArray

end Everett

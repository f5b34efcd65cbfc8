import Everett.EliasFano.SelectWord
import Everett.WordView

/-!
# Elias--Fano

`elias_fano` splits every value of a nondecreasing sequence into low bits, which are packed, and a
high part, which is one set bit of a bit vector.  Every 256 set bits a sample tells where they start
and whether their positions are kept apart.
-/

namespace Everett.EliasFano

open BitWords Outcome

/-! ## Low bits -/

/-- `low_component`. -/
def lowComponent (width output input : ℕ) (source : List (BitVec 64)) : BitVec 64 :=
  let bit := input * width
  let first := output * 64
  let masked := itemOf source input &&& below width
  if bit < first then masked >>> (first - bit) else masked <<< (bit - first)

/-- `low_word`: all components of one output word. -/
def lowWord (width output : ℕ) (source : List (BitVec 64)) : BitVec 64 :=
  let first := output * 64 / width
  (List.range ((output * 64 + 63) / width - first + 1)).foldl
    (fun word i => word ||| lowComponent width output (first + i) source) 0#64

/-- `low_tile`. -/
def lowTile (width : ℕ) (source : List (BitVec 64)) : List (BitVec 64) :=
  (List.range (width / Nat.gcd width 64)).map fun output => lowWord width output source

/-- The bounded work of the final incomplete tile. -/
def lowTail (width : ℕ) (source tail : List (BitVec 64)) : List (BitVec 64) :=
  (List.range source.length).foldl (fun tail i =>
    putField tail (i * width) width (itemOf source i &&& below width)) tail

/-- `pack_low_fixed`. -/
def packLowFixed (width : ℕ) (source : List (BitVec 64)) : List (BitVec 64) :=
  let inputs := 64 / Nat.gcd width 64
  let outputs := width / Nat.gcd width 64
  let tiles := source.length / inputs
  let size := (source.length * width + 63) / 64
  if width = 0 then List.replicate size 0#64
  else
    (List.range tiles).flatMap (fun tile => lowTile width (source.drop (tile * inputs))) ++
      lowTail width (source.drop (tiles * inputs)) (List.replicate (size - tiles * outputs) 0#64)

/-- `pack_low`. -/
def packLow (width : ℕ) (source : List (BitVec 64)) : Result (List (BitVec 64)) :=
  if 63 < width then .error "elias_fano low width"
  else if width ≠ 0 ∧ (2 ^ 64 - 1 - 63) / width < source.length then
    .error "elias_fano low section extent"
  else .ok (packLowFixed width source)

/-! ## High bits -/

/-- The set bit of a value. -/
def highPosition (source : List (BitVec 64)) (width i : ℕ) : ℕ :=
  (itemOf source i).toNat / 2 ^ width + i

/-- The word which `write_high` fills. -/
structure HighWord where
  out : List (BitVec 64)
  word : ℕ
  value : BitVec 64

/-- One step of the loop of `write_high`. -/
def highStep (source : List (BitVec 64)) (width : ℕ) (state : HighWord) (i : ℕ) : HighWord :=
  let position := highPosition source width i
  let next := position / 64
  let state := if next ≠ state.word then ⟨state.out.set state.word state.value, next, 0#64⟩ else state
  { state with value := state.value ||| 1#64 <<< (position % 64) }

/-- `write_high`. -/
def writeHigh (source out : List (BitVec 64)) (width : ℕ) : List (BitVec 64) :=
  let state := (List.range source.length).foldl (highStep source width) ⟨out, 0, 0#64⟩
  if source ≠ [] then state.out.set state.word state.value else state.out

/-! ## Construction -/

/-- `elias_fano_sample`. -/
structure Sample where
  first : ℕ
  sparse : ℕ
  deriving DecidableEq, Repr

/-- The mark of a dense group. -/
def dense : ℕ := 2 ^ 64 - 1

/-- `elias_fano`. -/
structure Index where
  low : List (BitVec 64)
  high : List (BitVec 64)
  samples : List Sample
  sparse : List ℕ
  entryCount : ℕ
  universe_ : ℕ
  lowWidth : ℕ

/-- `monotone`. -/
def monotone (source : List (BitVec 64)) : Bool :=
  (List.range' 1 (source.length - 1)).all fun i =>
    (itemOf source (i - 1)).toNat ≤ (itemOf source i).toNat

/-- The width of the low bits. -/
def chooseWidth (universe_ entries : ℕ) : ℕ :=
  if universe_ / entries ≠ 0 then Nat.log2 (universe_ / entries) else 0

/-- Sample one group of 256 values. -/
def sampleGroup (source : List (BitVec 64)) (width : ℕ) (state : List Sample × List ℕ)
    (group : ℕ) : List Sample × List ℕ :=
  let start := 256 * group
  let stop := if source.length - start < 256 then source.length else start + 256
  let first := highPosition source width start
  let last := highPosition source width (stop - 1)
  if 4096 ≤ last - first then
    (state.1 ++ [⟨first, state.2.length⟩],
      state.2 ++ (List.range' start (stop - start)).map (highPosition source width))
  else (state.1 ++ [⟨first, dense⟩], state.2)

/-- Largest number of entries or of high bits. -/
def maximumExtent : ℕ := 2 ^ 64 - 1 - 255

/-- Whether the sections of some entries are too large. -/
def tooLarge (entries universe_ width : ℕ) : Prop :=
  maximumExtent < entries ∨ (width ≠ 0 ∧ maximumExtent / width < entries) ∨
    maximumExtent - entries < universe_ / 2 ^ width

instance (entries universe_ width : ℕ) : Decidable (tooLarge entries universe_ width) :=
  inferInstanceAs (Decidable (_ ∨ (_ ∧ _) ∨ _))

/-- `elias_fano::build`. -/
def build (source : List (BitVec 64)) : Result Index :=
  if source = [] then .ok ⟨[], [], [], [], 0, 0, 0⟩
  else if monotone source = false then .error "elias_fano nonmonotone offsets"
  else
    let entries := source.length
    let universe_ := (itemOf source (entries - 1)).toNat
    let width := chooseWidth universe_ entries
    if tooLarge entries universe_ width then .error "elias_fano section extent"
    else do
      let highBits := universe_ / 2 ^ width + entries
      let low ← packLow width source
      let high := writeHigh source (List.replicate ((highBits + 63) / 64) 0#64) width
      let (samples, sparse) :=
        (List.range ((entries + 255) / 256)).foldl (sampleGroup source width) ([], [])
      .ok ⟨low, high, samples, sparse, entries, universe_, width⟩

/-! ## Views -/

/-- `high_bits_`. -/
def Index.highBits (index : Index) : ℕ :=
  if index.entryCount = 0 then 0 else index.universe_ / 2 ^ index.lowWidth + index.entryCount

/-- The checks of `elias_fano_view`. -/
def view (index : Index) : Result Index :=
  if 63 < index.lowWidth then .error "elias_fano low width"
  else if index.entryCount = 0 then
    if index.universe_ ≠ 0 ∨ index.lowWidth ≠ 0 ∨ index.low ≠ [] ∨ index.high ≠ [] ∨
        index.samples ≠ [] ∨ index.sparse ≠ [] then .error "invalid empty Elias-Fano sections"
    else .ok index
  else if tooLarge index.entryCount index.universe_ index.lowWidth then
    .error "elias_fano section extent"
  else if index.low.length ≠ (index.entryCount * index.lowWidth + 63) / 64 ∨
      index.high.length ≠ (index.highBits + 63) / 64 ∨
      index.samples.length ≠ (index.entryCount + 255) / 256 then
    .error "invalid elias_fano spans"
  else .ok index

/-- The low bits of an entry. -/
def lowBits (index : Index) (ordinal : ℕ) : Result (BitVec 64) :=
  if index.lowWidth = 0 then .ok 0#64
  else do
    let bit := ordinal * index.lowWidth
    let value ← loadWord index.low (bit / 64)
    let shift := bit % 64
    if 64 < shift + index.lowWidth then
      let next ← loadWord index.low (bit / 64 + 1)
      .ok ((value >>> shift ||| next <<< (64 - shift)) &&& below index.lowWidth)
    else .ok (value >>> shift &&& below index.lowWidth)

/-- `decode`. -/
def decode (index : Index) (ordinal position : ℕ) : Result (BitVec 64) :=
  if position < ordinal then .error "invalid elias_fano high value"
  else
    let high := position - ordinal
    if index.universe_ / 2 ^ index.lowWidth < high then .error "elias_fano high overflow"
    else do
      let low ← lowBits index ordinal
      let value := BitVec.ofNat 64 high <<< index.lowWidth ||| low
      if index.universe_ < value.toNat then .error "elias_fano value exceeds universe_" else .ok value

/-- The position of an entry of a sparse group. -/
def sparsePosition (index : Index) (sample : Sample) (lane : ℕ) : Result ℕ :=
  if index.sparse.length < sample.sparse ∨ index.sparse.length - sample.sparse ≤ lane then
    .error "invalid elias_fano exception"
  else do
    let position ← loadWord index.sparse (sample.sparse + lane)
    if index.highBits ≤ position then .error "invalid elias_fano sparse position"
    else
      let word ← loadWord index.high (position / 64)
      if word.getLsbD (position % 64) then .ok position
      else .error "invalid elias_fano sparse position"

/-- The scan over the words of a dense group: words left, the next word and its mask, and the set
bits to pass. -/
def scan (deposits : Bool) (index : Index) (first : ℕ) : ℕ → ℕ → BitVec 64 → ℕ → Result ℕ
  | 0, _, _, _ => .error "elias_fano missing high bit"
  | left + 1, word, mask, remaining =>
    if index.high.length ≤ word then .error "elias_fano missing high bit"
    else
      let value := itemOf index.high word &&& mask
      if remaining < popcount value then
        let position := word * 64 + selectWord deposits value remaining
        if index.highBits ≤ position ∨ 4096 ≤ position - first then .error "elias_fano dense span"
        else .ok position
      else scan deposits index first left (word + 1) (BitVec.allOnes 64) (remaining - popcount value)

/-- `select_high`. -/
def selectHigh (deposits : Bool) (index : Index) (ordinal : ℕ) : Result ℕ := do
  let sample ← demand index.samples[ordinal / 256]? "sample section index"
  if sample.sparse ≠ dense then sparsePosition index sample (ordinal % 256)
  else if index.highBits ≤ sample.first then .error "invalid elias_fano sample"
  else
    let _ ← loadWord index.high (sample.first / 64)
    scan deposits index sample.first 65 (sample.first / 64)
      (BitVec.allOnes 64 <<< (sample.first % 64)) (ordinal % 256)

/-- `select`. -/
def select (deposits : Bool) (index : Index) (ordinal : ℕ) : Result (BitVec 64) :=
  if index.entryCount ≤ ordinal then .error "Elias-Fano ordinal"
  else do
    let position ← selectHigh deposits index ordinal
    decode index ordinal position

/-! ## Cursors -/

/-- `elias_fano_cursor`. -/
structure Cursor where
  sample : Sample
  ordinal : ℕ
  word : ℕ
  remaining : BitVec 64

/-- The constructor of `elias_fano_cursor`. -/
def cursor (deposits : Bool) (index : Index) (ordinal : ℕ) : Result Cursor :=
  if index.entryCount < ordinal then .error "Elias-Fano cursor ordinal"
  else if ordinal = index.entryCount ∨ ordinal % 256 = 0 then .ok ⟨⟨0, 0⟩, ordinal, 0, 0#64⟩
  else do
    let sample ← demand index.samples[ordinal / 256]? "sample section index"
    if sample.sparse = dense then
      let position ← selectHigh deposits index ordinal
      let word ← loadWord index.high (position / 64)
      .ok ⟨sample, ordinal, position / 64, word &&& BitVec.allOnes 64 <<< (position % 64)⟩
    else .ok ⟨sample, ordinal, 0, 0#64⟩

/-- Skip words which have no bits left. -/
def advance (index : Index) (first : ℕ) : ℕ → ℕ → BitVec 64 → Result (ℕ × BitVec 64)
  | 0, _, _ => .error "elias_fano missing high bit"
  | fuel + 1, word, remaining =>
    if remaining ≠ 0#64 then .ok (word, remaining)
    else if index.high.length ≤ word + 1 ∨ 65 ≤ word + 1 - first / 64 then
      .error "elias_fano missing high bit"
    else do
      let next ← loadWord index.high (word + 1)
      advance index first fuel (word + 1) next

/-- Enter the next directory sample every 256 entries. -/
def enterGroup (index : Index) (cursor : Cursor) : Result Cursor :=
  if cursor.ordinal % 256 ≠ 0 then .ok cursor
  else do
    let sample ← demand index.samples[cursor.ordinal / 256]? "sample section index"
    if sample.sparse ≠ dense then .ok { cursor with sample }
    else if index.highBits ≤ sample.first then .error "invalid elias_fano sample"
    else
      let word ← loadWord index.high (sample.first / 64)
      .ok { cursor with
        sample
        word := sample.first / 64
        remaining := word &&& BitVec.allOnes 64 <<< (sample.first % 64) }

/-- The position of the next entry. -/
def nextPosition (index : Index) (cursor : Cursor) : Result (ℕ × Cursor) :=
  if cursor.sample.sparse ≠ dense then do
    let position ← sparsePosition index cursor.sample (cursor.ordinal % 256)
    .ok (position, cursor)
  else do
    let (word, remaining) ←
      advance index cursor.sample.first (index.high.length + 1) cursor.word cursor.remaining
    let position := word * 64 + countrZero remaining
    if index.highBits ≤ position ∨ 4096 ≤ position - cursor.sample.first then
      .error "elias_fano dense span"
    else .ok (position, { cursor with word, remaining })

/-- `next`. -/
def next (index : Index) (cursor : Cursor) : Result (BitVec 64 × Cursor) :=
  if cursor.ordinal = index.entryCount then .error "Elias-Fano cursor end"
  else do
    let cursor ← enterGroup index cursor
    let (position, cursor) ← nextPosition index cursor
    let value ← decode index cursor.ordinal position
    .ok (value, { cursor with
      remaining := cursor.remaining &&& (cursor.remaining - 1#64)
      ordinal := cursor.ordinal + 1 })

/-- Successive values of a cursor. -/
def nexts (index : Index) : ℕ → Cursor → Result (List (BitVec 64) × Cursor)
  | 0, cursor => .ok ([], cursor)
  | count + 1, cursor => do
    let (value, cursor) ← next index cursor
    let (values, cursor) ← nexts index count cursor
    .ok (value :: values, cursor)

end Everett.EliasFano

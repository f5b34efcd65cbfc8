import Everett.Library.Lanes
import Everett.WordView

/-!
# Rank of groups

`rank_groups` packs the population of every group of `K = 2 ^ n - 1` entries into `n` bits and keeps
one absolute checkpoint for every 128 groups.
-/

namespace Everett.GroupRank

open BitWords Outcome

/-- A group size `2 ^ n - 1` of at least three. -/
structure GroupSize where
  classBits : ℕ
  least : 2 ≤ classBits
  most : classBits ≤ 63

/-- `K`. -/
def GroupSize.size (K : GroupSize) : ℕ := 2 ^ K.classBits - 1

/-- The vector instructions a query is compiled for. -/
inductive Architecture where
  | scalar
  | neon
  | wide
  deriving DecidableEq, Repr

/-- `rank_groups`. -/
structure Groups where
  classes : List (BitVec 64)
  checkpoints : List (BitVec 64)
  virtualCount : BitVec 64
  deriving DecidableEq

/-- Number of groups of a number of entries. -/
def groupCount (K : GroupSize) (count : BitVec 64) : ℕ :=
  count.toNat / K.size + if count.toNat % K.size ≠ 0 then 1 else 0

/-! ## Reductions -/

/-- `plane_mask`: the bits of one plane of the classes in a word. -/
def planeMask (n word plane : ℕ) : BitVec 64 :=
  (List.range 64).foldl (fun mask bit =>
    if (word * 64 + bit) % n = plane then mask ||| 1#64 <<< bit else mask) 0#64

/-- Add the weighted populations of the planes of a word. -/
def weighPlanes (n word : ℕ) (value : BitVec 64) (result : ℕ) : ℕ :=
  (List.range n).foldl (fun result plane =>
    result + popcount (value &&& planeMask n word plane) <<< plane) result

/-- `pair_nibbles`. -/
def pairNibbles (value : BitVec 64) : BitVec 64 :=
  (value &&& 0x0f0f0f0f0f0f0f0f#64) + (value >>> 4 &&& 0x0f0f0f0f0f0f0f0f#64)

/-- Classes of two bits, four of which are added up in every byte. -/
def pairBits (value : BitVec 64) : BitVec 64 :=
  pairNibbles ((value &&& 0x3333333333333333#64) + (value >>> 2 &&& 0x3333333333333333#64))

/-- `sum_bytes`. -/
def sumBytes (value : BitVec 64) : ℕ :=
  let pairs := (value &&& 0x00ff00ff00ff00ff#64) + (value >>> 8 &&& 0x00ff00ff00ff00ff#64)
  ((pairs * 0x0001000100010001#64) >>> 48).toNat

/-- `prefix_portable`: the sum of the first classes. -/
def prefixPortable (n : ℕ) (words : List (BitVec 64)) (count : ℕ) : Result ℕ := do
  let bits := count * n
  let (result, pairs) ← (List.range ((bits + 63) / 64)).foldlM (fun (result, pairs) word => do
    let value ← loadWord words word
    let remaining := bits - word * 64
    let value := if remaining < 64 then value &&& below remaining else value
    if n = 2 then .ok (result, pairs + pairBits value)
    else .ok (weighPlanes n (word % n) value result, pairs)) (0, 0#64)
  .ok (if n = 2 then sumBytes pairs else result)

/-- The mask of a word against the bit where a prefix ends. -/
def boundaryMask (bits position : ℕ) : BitVec 64 :=
  if position < bits / 64 then BitVec.allOnes 64
  else if position = bits / 64 then below (bits % 64)
  else 0#64

/-- `prefix_vectors` of classes, with the lanes of its registers added up. -/
def prefixVectors (n : ℕ) (words : List (BitVec 64)) (bits : ℕ) : ℕ :=
  (List.range (2 * n)).foldl (fun total position =>
    weighPlanes n position ((words[position]?.getD 0#64) &&& boundaryMask bits position) total) 0

/-- `rank15_view::prefix_vectors`, with the lanes of its registers added up. -/
def nibbleVectors (words : List (BitVec 64)) (count : ℕ) : ℕ :=
  (List.range 64).foldl (fun total position =>
    let packed := (field words (8 * position) 8).toNat
    total + ((if 2 * position < count then packed % 16 else 0) +
      if 2 * position + 1 < count then packed / 16 else 0)) 0

/-! ## Queries -/

/-- `add_prefix`. -/
def addPrefix (error : String) (checkpoint sum limit : ℕ) : Result ℕ :=
  if limit < checkpoint ∨ limit - checkpoint < sum then .error error else .ok (checkpoint + sum)

/-- `rank_groups_view::add_prefix`. -/
def addPrefixGroups : ℕ → ℕ → ℕ → Result ℕ :=
  addPrefix "invalid rank groups checkpoint or prefix"

/-- `rank15_view::add_prefix`. -/
def addPrefix15 : ℕ → ℕ → ℕ → Result ℕ :=
  addPrefix "invalid rank15 checkpoint or prefix"

/-- The checks of `rank15_view`. -/
def view15 (K : GroupSize) (index : Groups) : Result Groups :=
  let groups := groupCount K index.virtualCount
  if index.classes.length ≠ (groups + 15) / 16 ∨ index.checkpoints.length ≠ (groups + 127) / 128 then
    .error "invalid rank15 spans"
  else .ok index

/-- The checks of `rank_groups_view`. -/
def view (K : GroupSize) (index : Groups) : Result Groups :=
  let groups := groupCount K index.virtualCount
  if K.classBits = 4 then view15 K index
  else if (2 ^ 64 - 1 - 63) / K.classBits < groups then .error "rank groups packed size"
  else if index.classes.length ≠ (groups * K.classBits + 63) / 64 ∨
      index.checkpoints.length ≠ (groups + 127) / 128 then .error "invalid rank groups spans"
  else .ok index

/-- `read_class`. -/
def readClass (K : GroupSize) (classes : List (BitVec 64)) (group : ℕ) : Result (BitVec 64) := do
  let bit := group * K.classBits
  let value ← loadWord classes (bit / 64)
  let shift := bit % 64
  if 64 < shift + K.classBits then
    let next ← loadWord classes (bit / 64 + 1)
    .ok ((value >>> shift ||| next <<< (64 - shift)) &&& below K.classBits)
  else .ok (value >>> shift &&& below K.classBits)

/-- `rank15_view::class_at`. -/
def classAt15 (K : GroupSize) (index : Groups) (group : ℕ) : Result (BitVec 64) :=
  if groupCount K index.virtualCount ≤ group then .error "rank15 class"
  else do
    let value ← loadWord index.classes (group / 16)
    .ok (value >>> (4 * (group % 16)) &&& 15#64)

/-- `rank_groups_view::class_at`. -/
def classAt (K : GroupSize) (index : Groups) (group : ℕ) : Result (BitVec 64) :=
  if K.classBits = 4 then classAt15 K index group
  else if groupCount K index.virtualCount ≤ group then .error "rank groups class"
  else readClass K index.classes group

/-- `rank15_view::rank`. -/
def rank15 (K : GroupSize) (arch : Architecture) (index : Groups) (group : ℕ) : Result ℕ :=
  if groupCount K index.virtualCount ≤ group then .error "rank15 group"
  else do
    let result ← loadWord index.checkpoints (group / 128)
    let limit := index.virtualCount.toNat
    let word := group / 128 * 8
    if group % 128 = 0 then addPrefix15 result.toNat 0 limit
    else if arch ≠ .scalar ∧ 8 ≤ index.classes.length - word then
      addPrefix15 result.toNat (nibbleVectors (index.classes.drop word) (group % 128)) limit
    else
      let pairs ← (List.range' word (group / 16 - word)).foldlM (fun pairs word => do
        let value ← loadWord index.classes word
        .ok (pairs + pairNibbles value)) 0#64
      let value ← loadWord index.classes (group / 16)
      addPrefix15 result.toNat
        (sumBytes (pairs + pairNibbles (value &&& below (4 * (group % 16))))) limit

/-- `rank_groups_view::rank`. -/
def rank (K : GroupSize) (arch : Architecture) (index : Groups) (group : ℕ) : Result ℕ :=
  if K.classBits = 4 then rank15 K arch index group
  else if groupCount K index.virtualCount ≤ group then .error "rank groups boundary"
  else do
    let result ← loadWord index.checkpoints (group / 128)
    let limit := index.virtualCount.toNat
    if K.classBits = 2 ∨ K.classBits = 3 ∨ K.classBits = 5 then
      let count := group % 128
      let word := group / 128 * (2 * K.classBits)
      if count = 0 then addPrefixGroups result.toNat 0 limit
      else if K.classBits ≠ 2 ∧ arch = .neon ∧ 2 * K.classBits ≤ index.classes.length - word then
        addPrefixGroups result.toNat
          (prefixVectors K.classBits (index.classes.drop word) (count * K.classBits)) limit
      else if index.classes.length < word then .error "word section offset"
      else do
        let sum ← prefixPortable K.classBits (index.classes.drop word) count
        addPrefixGroups result.toNat sum limit
    else
      let result ← (List.range' (group - group % 128) (group % 128)).foldlM (fun result i => do
        let value ← readClass K index.classes i
        addPrefixGroups result value.toNat limit) result.toNat
      addPrefixGroups result 0 limit

/-- `count`. -/
def count (K : GroupSize) (arch : Architecture) (index : Groups) : Result ℕ :=
  let groups := groupCount K index.virtualCount
  if groups = 0 then .ok 0
  else do
    let last := groups - 1
    let population ← classAt K index last
    if index.virtualCount.toNat - last * K.size < population.toNat then
      .error (if K.classBits = 4 then "invalid rank15 final population"
        else "invalid rank groups final population")
    else
      let before ← rank K arch index last
      (if K.classBits = 4 then addPrefix15 else addPrefixGroups) before population.toNat
        index.virtualCount.toNat

/-! ## Construction -/

/-- The classes and checkpoints of the groups so far, and their total population. -/
structure Packing where
  classes : List (BitVec 64)
  checkpoints : List (BitVec 64)
  total : BitVec 64

/-- Write the class of one more group, and its checkpoint where one is due. -/
def Packing.put (n : ℕ) (packing : Packing) (group : ℕ) (value : BitVec 64) : Packing where
  classes := putField packing.classes (group * n) n value
  checkpoints :=
    if group % 128 = 0 then packing.checkpoints ++ [packing.total] else packing.checkpoints
  total := packing.total + value

/-- Largest population of a group. -/
def populationLimit (K : GroupSize) (count : BitVec 64) (group : ℕ) : ℕ :=
  if group + 1 = groupCount K count ∧ count.toNat % K.size ≠ 0 then count.toNat % K.size else K.size

/-- One step of the loop of `build`. -/
def buildGroup (K : GroupSize) (source : List (BitVec 64)) (count : BitVec 64) (packing : Packing)
    (group : ℕ) : Result Packing :=
  let value := source[group]?.getD 0#64
  if populationLimit K count group < value.toNat then .error "rank groups population"
  else .ok (packing.put K.classBits group value)

/-- `rank_groups::build`. -/
def build (K : GroupSize) (source : List (BitVec 64)) (count : BitVec 64) : Result Groups :=
  let groups := groupCount K count
  if source.length ≠ groups then .error "rank groups class length"
  else if (2 ^ 64 - 1 - 63) / K.classBits < groups then .error "rank groups packed size"
  else do
    let packing ← (List.range groups).foldlM (buildGroup K source count)
      ⟨List.replicate ((groups * K.classBits + 63) / 64) 0#64, [], 0#64⟩
    .ok ⟨packing.classes, packing.checkpoints, count⟩

/-- `rank_groups_builder`. -/
structure Builder where
  data : Packing
  virtualCount : BitVec 64
  groups : ℕ
  isPartial : Bool
  finished : Bool

/-- A fresh builder. -/
def Builder.empty : Builder := ⟨⟨[], [], 0#64⟩, 0#64, 0, false, false⟩

/-- What the reservations of one append raise, if anything. -/
structure Growth where
  classes : Option String
  checkpoints : Option String

/-- The mutations of `append`, after all growth which may fail. -/
def Builder.grow (K : GroupSize) (population width : BitVec 64) (builder : Builder) : Builder :=
  let words := ((builder.groups + 1) * K.classBits + 63) / 64
  let data := { builder.data with
    classes := builder.data.classes ++
      List.replicate (words - builder.data.classes.length) 0#64 }
  { builder with
    data := data.put K.classBits builder.groups population
    virtualCount := builder.virtualCount + width
    groups := builder.groups + 1
    isPartial := decide (width.toNat ≠ K.size) }

/-- `rank_groups_builder::append`. -/
def Builder.append (K : GroupSize) (growth : Growth) (population width : BitVec 64)
    (builder : Builder) : Result Unit × Builder :=
  if builder.finished then (.error "incremental rank groups are finished", builder)
  else if builder.isPartial ∨ width = 0#64 ∨ K.size < width.toNat ∨
      width.toNat < population.toNat then (.error "invalid incremental rank group", builder)
  else if 2 ^ 64 - 1 - builder.virtualCount.toNat < width.toNat ∨
      (2 ^ 64 - 1 - 63) / K.classBits ≤ builder.groups then
    (.error "incremental rank groups are too large", builder)
  else
    match growth.classes, if builder.groups % 128 = 0 then growth.checkpoints else none with
    | some error, _ => (.error error, builder)
    | none, some error => (.error error, builder)
    | none, none => (.ok (), builder.grow K population width)

/-- `rank_groups_builder::finish`. -/
def Builder.finish (builder : Builder) : Result Groups × Builder :=
  if builder.finished then (.error "incremental rank groups are finished", builder)
  else (.ok ⟨builder.data.classes, builder.data.checkpoints, builder.virtualCount⟩,
    { builder with data := ⟨[], [], builder.data.total⟩, finished := true })

end Everett.GroupRank

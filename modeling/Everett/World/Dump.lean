import Everett.Library.LittleEndian
import Everett.World.Reference

/-!
# Dumps of resolved tables

A world exports its live entries in the order of their keys, and a dump imports as a fresh world.
A key is a string of bytes; nothing depends on how strings compare.
-/

namespace Everett

open Outcome

variable {K V E : Type} [LinearOrder K]

/-- A codec of values in a dump, with the tag which names it. -/
structure WorldCodec (V : Type) where
  /-- `format_tag`. -/
  formatTag : UInt64
  write : V → List UInt8
  read : List UInt8 → Except String (V × List UInt8)

/-- A codec reads back what it wrote, whatever follows. -/
def WorldCodec.Lawful (codec : WorldCodec V) : Prop :=
  ∀ value rest, codec.read (codec.write value ++ rest) = .ok (value, rest)

namespace WorldDetail

/-- `write_u64`. -/
def writeU64 (value : Nat) : List UInt8 := LittleEndian.toBytes 8 value

/-- `read_u64`. -/
def readU64 (bytes : List UInt8) : Except String (Nat × List UInt8) := do
  require (8 ≤ bytes.length) "truncated world debug export"
  .ok (LittleEndian.ofBytes (bytes.take 8), bytes.drop 8)

theorem readU64_writeU64 {value : Nat} (fits : value < 2 ^ 64) (rest : List UInt8) :
    readU64 (writeU64 value ++ rest) = .ok (value, rest) := by
  have length : (writeU64 value).length = 8 := LittleEndian.length_toBytes 8 value
  have enough : 8 ≤ (writeU64 value ++ rest).length := by
    rw [List.length_append, length]
    exact Nat.le_add_right _ _
  rw [readU64, require_true enough, ok_bind, List.take_left' length, List.drop_left' length,
    writeU64, LittleEndian.ofBytes_toBytes_of_lt fits]

end WorldDetail

open WorldDetail

/-- `u64_world_codec`. -/
def u64WorldCodec : WorldCodec UInt64 where
  formatTag := 1
  write value := writeU64 value.toNat
  read bytes := do
    let (value, rest) ← readU64 bytes
    .ok (UInt64.ofNat value, rest)

theorem u64WorldCodec_lawful : u64WorldCodec.Lawful := by
  intro value rest
  change (readU64 (writeU64 value.toNat ++ rest) >>= _) = _
  rw [readU64_writeU64 value.toNat_lt rest, ok_bind]
  simp

/-- `world_import_limits`. -/
structure WorldImportLimits where
  maxRecords : UInt64 := 1000000
  maxKeyBytes : UInt64 := 64 * 1024 * 1024

/-- The first bytes of a dump. -/
def dumpMagic : List UInt8 := [69, 86, 82, 84, 46, 82, 67, 0]

/-- Greatest extent of a stream operation. -/
def maximumStreamSize : Nat := 2 ^ 63 - 1

namespace World

variable (spell : K ≃ List UInt8) (codec : WorldCodec V)

/-- A live entry of a dump. -/
def exportEntry (entry : K × V) : List UInt8 :=
  writeU64 (spell entry.1).length ++ spell entry.1 ++ codec.write entry.2

/-- `export_rc`. -/
def exportRc (world : World K V E) : List UInt8 :=
  dumpMagic ++ writeU64 1 ++ writeU64 codec.formatTag.toNat ++ writeU64 world.liveSize ++
    world.resolved.flatMap (exportEntry spell codec)

/-- The loop of `import_rc` over the records which are left, after the last key. -/
def importEntries : Nat → Nat → Option K → List UInt8 →
    Except String (List (WorldRecord K V))
  | 0, _, _, _ => .ok []
  | count + 1, remaining, last, bytes => do
      let (size, bytes) ← readU64 bytes
      require (size ≤ remaining ∧ size ≤ maximumStreamSize) "world debug export key byte limit"
      require (size ≤ bytes.length) "truncated world debug export key"
      let key := spell.symm (bytes.take size)
      require (∀ previous ∈ last, previous < key)
        "world debug export keys are not strictly sorted"
      let (value, bytes) ← codec.read (bytes.drop size)
      let rest ← importEntries count (remaining - size) (some key) bytes
      .ok (⟨key, some value⟩ :: rest)

/-- `import_rc`, with the next name of a run. -/
def importRc [Ring E] (hash : TableHash K V E) (limits : WorldImportLimits)
    (sequence : Nat) (bytes : List UInt8) : Except String (World K V E × Nat) := do
  require (bytes.take 8 = dumpMagic) "invalid world debug export header"
  let (version, bytes) ← readU64 (bytes.drop 8)
  require (version = 1) "unsupported world debug export version"
  let (tag, bytes) ← readU64 bytes
  require (tag = codec.formatTag.toNat) "world debug export value codec mismatch"
  let (count, bytes) ← readU64 bytes
  require (count ≤ limits.maxRecords.toNat) "world debug export record limit"
  let records ← importEntries spell codec count limits.maxKeyBytes.toNat none bytes
  fromRecords hash sequence records

/-- A table within the limits of an import; no string is longer than a stream operation. -/
structure Within (limits : WorldImportLimits) (table : List (K × V)) : Prop where
  records : table.length ≤ limits.maxRecords.toNat
  keyBytes : (table.map fun entry => (spell entry.1).length).sum ≤ limits.maxKeyBytes.toNat
  streamed : ∀ entry ∈ table, (spell entry.1).length ≤ maximumStreamSize

variable {spell codec}

/-- Exported entries are imported as the records which they came from. -/
theorem importEntries_export (lawful : codec.Lawful) {table : List (K × V)}
    {remaining : Nat} {last : Option K}
    (small : (table.map fun entry => (spell entry.1).length).sum ≤ remaining)
    (streamed : ∀ entry ∈ table, (spell entry.1).length ≤ maximumStreamSize) (ordered : Ordered table)
    (later : ∀ entry ∈ table, ∀ previous ∈ last, previous < entry.1) (rest : List UInt8) :
    importEntries spell codec table.length remaining last (table.flatMap (exportEntry spell codec) ++ rest) =
      .ok (table.map fun entry => ⟨entry.1, some entry.2⟩) := by
  induction table generalizing remaining last with
  | nil => rfl
  | cons entry table induction =>
      have size := streamed entry List.mem_cons_self
      have small_size : (spell entry.1).length < 2 ^ 64 := by
        have most : maximumStreamSize = 2 ^ 63 - 1 := rfl
        omega
      rw [List.map_cons, List.sum_cons] at small
      obtain ⟨above, ordered_rest⟩ := ordered_cons.mp ordered
      have enough : (spell entry.1).length ≤ (spell entry.1 ++ (codec.write entry.2 ++
          (table.flatMap (exportEntry spell codec) ++ rest))).length := by
        rw [List.length_append]
        exact Nat.le_add_right _ _
      have further := @induction (remaining - (spell entry.1).length) (some entry.1)
        (by omega) (fun other member => streamed other (List.mem_cons_of_mem _ member)) ordered_rest
        (by
          rintro other member previous ⟨⟩
          exact above other.1 (List.mem_map_of_mem member))
      rw [List.flatMap_cons, exportEntry, List.append_assoc, List.append_assoc, List.append_assoc,
        List.length_cons, importEntries, readU64_writeU64 small_size, ok_bind]
      dsimp only
      rw [require_true ⟨by omega, size⟩, ok_bind, require_true enough, ok_bind, List.take_left,
        spell.symm_apply_apply, require_true (later entry List.mem_cons_self), ok_bind, List.drop_left, lawful, ok_bind]
      dsimp only
      rw [further, ok_bind, List.map_cons]

variable [Ring E] {hash : TableHash K V E} {sequence : Nat}
  {world : World K V E}

/-- What follows the header of a dump is imported as the records of the table. -/
theorem importRc_exportRc (lawful : codec.Lawful) (formed : world.WellFormed hash sequence)
    {limits : WorldImportLimits} (within : Within spell limits world.resolved) (rest : List UInt8) :
    importRc spell codec hash limits sequence (exportRc spell codec world ++ rest) =
      fromRecords hash sequence (world.resolved.map fun entry => ⟨entry.1, some entry.2⟩) := by
  have live := formed.live
  have records := within.records
  have count : world.liveSize < 2 ^ 64 := by
    have most := limits.maxRecords.toNat_lt
    omega
  have magic : dumpMagic.length = 8 := rfl
  simp only [exportRc, List.append_assoc]
  rw [importRc, List.take_left' magic, List.drop_left' magic, require_true rfl, ok_bind,
    readU64_writeU64 (by decide), ok_bind]
  dsimp only
  rw [require_true rfl, ok_bind, readU64_writeU64 codec.formatTag.toNat_lt, ok_bind]
  dsimp only
  rw [require_true rfl, ok_bind, readU64_writeU64 count, ok_bind]
  dsimp only
  rw [require_true (by omega), ok_bind, live,
    importEntries_export lawful within.keyBytes within.streamed (ordered_resolved world)
      (by rintro entry - previous ⟨⟩) rest, ok_bind]

end World

end Everett

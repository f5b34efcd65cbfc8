import Everett.Library.ByteFields
import Everett.Policy

/-!
# The envelope of a file

A header of ninety-six bytes in front of the body.  Header fields are 64-bit words, and their
arithmetic wraps as it does in the source.
-/

namespace Everett

open Outcome ByteFields

/-! ## Checksums -/

namespace Crc32c

/-- One bit of the reflected Castagnoli division. -/
def shift (crc : UInt32) : UInt32 :=
  if crc &&& 1 = 1 then (crc >>> 1) ^^^ 0x82f63b78 else crc >>> 1

/-- Divide by one more byte. -/
def update (crc : UInt32) (byte : UInt8) : UInt32 := Nat.iterate shift 8 (crc ^^^ byte.toUInt32)

end Crc32c

/-- `crc32c`: complemented before and after. -/
def crc32c (bytes : List UInt8) : UInt32 := ~~~ (bytes.foldl Crc32c.update (~~~ 0))

/-! ## Headers -/

/-- `file_kind`. -/
inductive FileKind
  | nativeBlob
  | fractionalIndex
  deriving DecidableEq, Repr

/-- `file_header`. -/
structure FileHeader where
  kind : FileKind
  /-- Body address units. -/
  extent : UInt64
  recordCount : UInt64
  commonValueWidth : Option UInt64
  policyValueWidth : Option UInt64
  deriving DecidableEq, Repr

namespace FileDetail

/-- `header_bytes`. -/
def headerBytes : Nat := 96

/-- `version`. -/
def version : Nat := 1

/-- `magic`. -/
def magic : FileKind → List UInt8
  | .nativeBlob => [69, 86, 82, 84, 46, 75, 86, 0]
  | .fractionalIndex => [69, 86, 82, 84, 46, 73, 88, 0]

/-- `body_bytes`. -/
def bodyBytes (P : StoragePolicy) (extent : UInt64) : UInt64 :=
  match P.unit with
  | .byte => extent
  | .bit => (extent + 7) >>> 3

/-- `total_bytes`. -/
def totalBytes (P : StoragePolicy) (extent : UInt64) : Result UInt64 := do
  require (¬ (P.unit = .bit ∧ extent > (0 - 1) - 7)) "Everett file extent overflow"
  let bytes := bodyBytes P extent
  require (¬ bytes > (0 - 1) - 96) "Everett file extent overflow"
  .ok (bytes + 96)

/-- A condition on the value of an option is decided by that value alone. -/
local instance (priority := high) decidableForallOption {α : Type} {p : α → Prop}
    [DecidablePred p] : ∀ value : Option α, Decidable (∀ a ∈ value, p a)
  | none => isTrue fun _ member => absurd member (Option.not_mem_none _)
  | some a => decidable_of_iff (p a) (by simp)

/-- The widths which a header may declare. -/
def validateWidths (header : FileHeader) : Result Unit :=
  match header.kind with
  | .fractionalIndex =>
      require (header.commonValueWidth = some 0) "fractional index values must have width zero"
  | .nativeBlob => do
      require (¬ (header.policyValueWidth.isSome ∧ header.commonValueWidth.isSome ∧
        header.commonValueWidth ≠ header.policyValueWidth))
        "native common width disagrees with fixed policy"
      require (∀ width ∈ header.commonValueWidth.or header.policyValueWidth,
        ¬ (width ≠ 0 ∧ header.recordCount > header.extent / width))
        "fixed value slots exceed body extent"

/-- `validate_metadata`. -/
def validateMetadata (P : StoragePolicy) (header : FileHeader) : Result Unit := do
  validateWidths header
  let _ ← totalBytes P header.extent
  .ok ()

/-- Whether the unused bits of the last body byte are zero. -/
def tailPadded (extent : UInt64) (body : List UInt8) : Bool :=
  (body.getLast?.getD 0).toNat % 2 ^ (8 - extent.toNat % 8) = 0

/-- `validate_body`. -/
def validateBody (P : StoragePolicy) (header : FileHeader) (body : List UInt8) : Result Unit := do
  require ((bodyBytes P header.extent).toNat = body.length) "Everett body extent mismatch"
  require (¬ (P.unit = .bit ∧ header.extent.toNat % 8 ≠ 0 ∧ tailPadded header.extent body = false))
    "noncanonical bit-profile tail padding"

/-- `header_checksum`. -/
def headerChecksum (bytes : List UInt8) : UInt32 := crc32c (ByteFields.put (bytes.take headerBytes) 68 4 0)

end FileDetail

namespace StoragePolicy

/-- The byte of `unit`. -/
def unitByte (P : StoragePolicy) : Nat :=
  match P.unit with
  | .byte => 0
  | .bit => 1

/-- The byte of `backspace_code`. -/
def backspaceByte (P : StoragePolicy) : Nat :=
  match P.backspaceCode with
  | .exponentialGolomb _ => 0
  | .golomb _ => 1

/-- `backspace_parameter`. -/
def backspaceParameter (P : StoragePolicy) : Nat :=
  match P.backspaceCode with
  | .exponentialGolomb order => order
  | .golomb modulus => modulus

end StoragePolicy

open FileDetail

/-- The flag word of a header. -/
def FileHeader.flags (header : FileHeader) : Nat :=
  (if header.policyValueWidth.isSome then 1 else 0) + if header.commonValueWidth.isSome then 2 else 0

/-! ## Writing -/

/-- The numbers of `encode_file_header` before its checksum. -/
def headerFields (P : StoragePolicy) (header : FileHeader) (bodyCrc : UInt32) (total : UInt64) :
    List Field :=
  [⟨8, 2, version⟩, ⟨10, 2, headerBytes⟩, ⟨12, 4, header.flags⟩, ⟨16, 1, P.unitByte⟩, ⟨17, 1, 1⟩,
    ⟨18, 1, P.backspaceByte⟩, ⟨20, 4, P.codecBlockSize⟩, ⟨24, 8, P.groupSize⟩,
    ⟨32, 8, (header.policyValueWidth.getD 0).toNat⟩,
    ⟨40, 8, (header.commonValueWidth.getD 0).toNat⟩, ⟨48, 8, header.extent.toNat⟩,
    ⟨56, 8, header.recordCount.toNat⟩, ⟨64, 4, bodyCrc.toNat⟩, ⟨72, 8, headerBytes⟩,
    ⟨80, 8, total.toNat⟩, ⟨88, 8, P.backspaceParameter⟩]

/-- The bytes of a header before its checksum. -/
def headerPrefix (P : StoragePolicy) (header : FileHeader) (bodyCrc : UInt32) (total : UInt64) :
    List UInt8 :=
  putAll (overwrite (List.replicate headerBytes 0) 0 (magic header.kind))
    (headerFields P header bodyCrc total)

/-- `encode_file_header`. -/
def encodeFileHeader (P : StoragePolicy) (header : FileHeader) (bodyCrc : UInt32) :
    Result (List UInt8) := do
  validateMetadata P header
  let total ← totalBytes P header.extent
  let result := headerPrefix P header bodyCrc total
  .ok (ByteFields.put result 68 4 (headerChecksum result).toNat)

/-- `encode_file`. -/
def encodeFile (P : StoragePolicy) (header : FileHeader) (body : List UInt8) :
    Result (List UInt8) := do
  validateMetadata P header
  validateBody P header body
  let total ← totalBytes P header.extent
  let encoded ← encodeFileHeader P header (crc32c body)
  let result := overwrite (List.replicate total.toNat 0) 0 encoded
  .ok (overwrite result headerBytes body)

/-! ## Reading -/

/-- The kind which the first bytes name. -/
def recognizeKind (bytes : List UInt8) : Result FileKind :=
  if slice bytes 0 8 = magic .nativeBlob then .ok .nativeBlob
  else if slice bytes 0 8 = magic .fractionalIndex then .ok .fractionalIndex
  else .error "unrecognized Everett magic"

/-- An optional width whose absence is spelt as zero. -/
def readWidth (bytes : List UInt8) (present : Bool) (start : Nat) (error : String) :
    Result (Option UInt64) :=
  if present then .ok (some (UInt64.ofNat (get bytes start 8)))
  else do
    require (get bytes start 8 = 0) error
    .ok none

/-- `decode_file_header`. -/
def decodeFileHeader (P : StoragePolicy) (bytes : List UInt8) : Result FileHeader := do
  require (headerBytes ≤ bytes.length) "truncated Everett header"
  let kind ← recognizeKind bytes
  require (get bytes 8 2 = version ∧ get bytes 10 2 = headerBytes)
    "unsupported Everett file version or header length"
  require (get bytes 68 4 = (headerChecksum bytes).toNat) "Everett header CRC32C mismatch"
  let flags := get bytes 12 4
  require (flags < 4) "unsupported Everett header flags"
  require (get bytes 16 1 ≤ 1 ∧ get bytes 16 1 = P.unitByte)
    "Everett address unit disagrees with policy"
  require (get bytes 17 1 = 1) "unsupported Everett checksum kind"
  require (get bytes 19 1 = 0) "nonzero Everett reserved header bytes"
  let backspace := get bytes 18 1
  let parameter := get bytes 88 8
  require (backspace ≤ 1 ∧ ¬ (backspace = 0 ∧ 63 < parameter) ∧ ¬ (backspace = 1 ∧ parameter = 0) ∧
    ¬ (P.unit = .byte ∧ (backspace ≠ 0 ∨ parameter ≠ 0)))
    "unsupported Everett backspace descriptor"
  require (get bytes 20 4 = P.codecBlockSize ∧ get bytes 24 8 = P.groupSize ∧
    backspace = P.backspaceByte ∧ parameter = P.backspaceParameter)
    "Everett stored policy descriptor mismatch"
  let policyValueWidth ← readWidth bytes (flags.testBit 0) 32
    "variable policy width must encode zero"
  let commonValueWidth ← readWidth bytes (flags.testBit 1) 40 "absent common width must encode zero"
  let header : FileHeader := ⟨kind, UInt64.ofNat (get bytes 48 8), UInt64.ofNat (get bytes 56 8),
    commonValueWidth, policyValueWidth⟩
  validateMetadata P header
  require (get bytes 72 8 = headerBytes) "noncanonical Everett body offset or physical extent"
  let total ← totalBytes P header.extent
  require (get bytes 80 8 = total.toNat) "noncanonical Everett body offset or physical extent"
  .ok header

/-- `validate_file`. -/
def validateFile (P : StoragePolicy) (bytes : List UInt8) : Result FileHeader := do
  let header ← decodeFileHeader P bytes
  let total ← totalBytes P header.extent
  require (total.toNat = bytes.length) "truncated or trailing Everett object bytes"
  let body := bytes.drop headerBytes
  validateBody P header body
  require (get bytes 64 4 = (crc32c body).toNat) "Everett body CRC32C mismatch"
  .ok header

end Everett

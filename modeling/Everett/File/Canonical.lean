import Everett.File.Envelope

/-!
# The envelope is canonical

A file determines its header and its body, and the header and the body determine the file: every one
of its bytes is either a field which the header decides, or checked to be what is written there.
-/

namespace Everett

open Outcome ByteFields FileDetail

variable {P : StoragePolicy} {header : FileHeader} {bodyCrc : UInt32} {total : UInt64}
  {bytes body : List UInt8}

/-! ## What is written -/

theorem length_magic (kind : FileKind) : (magic kind).length = 8 := by
  cases kind <;> rfl

theorem length_blank (kind : FileKind) :
    (overwrite (List.replicate headerBytes 0) 0 (magic kind)).length = headerBytes := by
  rw [length_overwrite (by rw [length_magic, List.length_replicate]; decide), List.length_replicate]

theorem headerFields_fit : ∀ field ∈ headerFields P header bodyCrc total,
    field.start + field.width ≤
      (overwrite (List.replicate headerBytes 0) 0 (magic header.kind)).length := by
  rw [length_blank]
  simp [headerFields, headerBytes]

theorem headerFields_apart : (headerFields P header bodyCrc total).Pairwise Field.Apart := by
  simp [headerFields, Field.Apart]

theorem length_headerPrefix : (headerPrefix P header bodyCrc total).length = headerBytes := by
  rw [headerPrefix, length_putAll headerFields_fit, length_blank]

/-- The bytes of a header. -/
def headerImage (P : StoragePolicy) (header : FileHeader) (bodyCrc : UInt32) (total : UInt64) :
    List UInt8 :=
  ByteFields.put (headerPrefix P header bodyCrc total) 68 4
    (headerChecksum (headerPrefix P header bodyCrc total)).toNat

theorem checksum_fits : 68 + 4 ≤ (headerPrefix P header bodyCrc total).length := by
  rw [length_headerPrefix]
  decide

variable (P header bodyCrc total) in
theorem length_headerImage : (headerImage P header bodyCrc total).length = headerBytes := by
  rw [headerImage, length_put checksum_fits, length_headerPrefix]

theorem checksum_apart : ∀ field ∈ headerFields P header bodyCrc total,
    field.start + field.width ≤ 68 ∨ 68 + 4 ≤ field.start := by
  simp [headerFields]

/-- Every number of a header is read back from it. -/
theorem get_headerImage {field : Field} (member : field ∈ headerFields P header bodyCrc total) :
    get (headerImage P header bodyCrc total) field.start field.width =
      field.value % 256 ^ field.width := by
  rw [headerImage, get_put_of_disjoint checksum_fits (checksum_apart field member)]
  exact get_putAll headerFields_fit headerFields_apart member

theorem slice_magic : slice (headerImage P header bodyCrc total) 0 8 = magic header.kind := by
  have blank : slice (overwrite (List.replicate headerBytes 0) 0 (magic header.kind)) 0
      (magic header.kind).length = magic header.kind := by
    apply slice_overwrite
    rw [length_magic, List.length_replicate]
    decide
  rw [length_magic] at blank
  rw [headerImage, slice_put_of_disjoint checksum_fits (.inl (by decide)), headerPrefix,
    slice_putAll_of_disjoint headerFields_fit (by simp [headerFields]), blank]

theorem get_reserved : get (headerImage P header bodyCrc total) 19 1 = 0 := by
  have blank : slice (overwrite (List.replicate headerBytes 0) 0 (magic header.kind)) 19 1 =
      [0] := by
    cases header.kind <;> rfl
  change LittleEndian.ofBytes (slice _ 19 1) = 0
  rw [headerImage, slice_put_of_disjoint checksum_fits (.inl (by decide)), headerPrefix,
    slice_putAll_of_disjoint headerFields_fit (by simp [headerFields]), blank]
  rfl

theorem headerChecksum_append (image more : List UInt8) (length : image.length = headerBytes) :
    headerChecksum (image ++ more) = headerChecksum image := by
  rw [headerChecksum, headerChecksum, List.take_left' length, List.take_of_length_le length.le]

theorem headerChecksum_image : headerChecksum (headerImage P header bodyCrc total) =
    headerChecksum (headerPrefix P header bodyCrc total) := by
  rw [headerChecksum, headerChecksum,
    List.take_of_length_le (length_headerImage P header bodyCrc total).le,
    List.take_of_length_le length_headerPrefix.le, headerImage, put_put checksum_fits]

theorem get_checksum : get (headerImage P header bodyCrc total) 68 4 =
    (headerChecksum (headerImage P header bodyCrc total)).toNat := by
  rw [headerChecksum_image, headerImage, get_put checksum_fits]
  exact Nat.mod_eq_of_lt (UInt32.toNat_lt _)

/-! ## Extents -/

/-- An accepted extent does not wrap around. -/
theorem totalBytes_ok {extent total : UInt64} (accepted : totalBytes P extent = .ok total) :
    total.toNat = (bodyBytes P extent).toNat + headerBytes ∧ (bodyBytes P extent).toNat =
      match P.unit with
      | .byte => extent.toNat
      | .bit => (extent.toNat + 7) / 8 := by
  obtain ⟨_, small, rest⟩ := bind_eq_ok.mp accepted
  obtain ⟨_, room, rest⟩ := bind_eq_ok.mp rest
  cases rest
  have in_range := require_eq_ok.mp small
  have fits := require_eq_ok.mp room
  rw [gt_iff_lt, UInt64.lt_iff_toNat_lt] at fits
  have limit : ((0 : UInt64) - 1 - 96).toNat = 2 ^ 64 - 97 := by decide
  rw [limit] at fits
  refine ⟨?_, ?_⟩
  · rw [UInt64.toNat_add, headerBytes]
    have constant : (96 : UInt64).toNat = 96 := by decide
    rw [constant, Nat.mod_eq_of_lt (by omega)]
  · unfold bodyBytes
    cases unit : P.unit with
    | byte => rfl
    | bit =>
        have narrow : ¬ extent > 0 - 1 - 7 := fun wide => in_range ⟨unit, wide⟩
        rw [gt_iff_lt, UInt64.lt_iff_toNat_lt] at narrow
        have bound : ((0 : UInt64) - 1 - 7).toNat = 2 ^ 64 - 8 := by decide
        have seven : (7 : UInt64).toNat = 7 := by decide
        have three : (3 : UInt64).toNat = 3 := by decide
        rw [bound] at narrow
        dsimp only
        rw [UInt64.toNat_shiftRight, UInt64.toNat_add, seven, three,
          Nat.mod_eq_of_lt (by omega), Nat.shiftRight_eq_div_pow]

/-- The metadata of a header covers its extent. -/
theorem totalBytes_of_validateMetadata (valid : validateMetadata P header = .ok ()) :
    ∃ total, totalBytes P header.extent = .ok total := by
  obtain ⟨_, -, rest⟩ := bind_eq_ok.mp valid
  obtain ⟨total, accepted, -⟩ := bind_eq_ok.mp rest
  exact ⟨total, accepted⟩

theorem validateBody_length (valid : validateBody P header body = .ok ()) :
    (bodyBytes P header.extent).toNat = body.length := by
  obtain ⟨_, same, -⟩ := bind_eq_ok.mp valid
  exact require_eq_ok.mp same

/-- A header at the front of a blank file, and then its body. -/
theorem overwrite_blank {image : List UInt8} (length : image.length = headerBytes) :
    overwrite (overwrite (List.replicate (headerBytes + body.length) 0) 0 image) headerBytes body =
      image ++ body := by
  have front : overwrite (List.replicate (headerBytes + body.length) 0) 0 image =
      image ++ List.replicate body.length 0 := by
    rw [overwrite, List.take_zero, List.nil_append, length, Nat.zero_add, List.drop_replicate,
      Nat.add_sub_cancel_left]
  rw [front, overwrite, List.take_left' length, List.drop_eq_nil_of_le, List.append_nil]
  rw [List.length_append, length, List.length_replicate]

theorem encodeFileHeader_ok (metadata : validateMetadata P header = .ok ())
    (accepted : totalBytes P header.extent = .ok total) :
    encodeFileHeader P header bodyCrc = .ok (headerImage P header bodyCrc total) := by
  rw [encodeFileHeader, metadata, ok_bind, accepted, ok_bind, headerImage]

theorem encodeFile_ok (metadata : validateMetadata P header = .ok ())
    (valid : validateBody P header body = .ok ())
    (accepted : totalBytes P header.extent = .ok total) :
    encodeFile P header body = .ok (headerImage P header (crc32c body) total ++ body) := by
  have size : total.toNat = headerBytes + body.length := by
    rw [(totalBytes_ok accepted).1, validateBody_length valid, Nat.add_comm]
  rw [encodeFile, metadata, ok_bind, valid, ok_bind, accepted, ok_bind,
    encodeFileHeader_ok metadata accepted, ok_bind, size]
  exact congrArg Except.ok (overwrite_blank (length_headerImage P header _ total))

/-- A file is encoded as its header and its body. -/
theorem encodeFile_eq_ok : encodeFile P header body = .ok bytes ↔
    validateMetadata P header = .ok () ∧ validateBody P header body = .ok () ∧
      ∃ total, totalBytes P header.extent = .ok total ∧
        headerImage P header (crc32c body) total ++ body = bytes := by
  constructor
  · intro encoded
    obtain ⟨_, metadata, rest⟩ := bind_eq_ok.mp encoded
    obtain ⟨_, valid, rest⟩ := bind_eq_ok.mp rest
    obtain ⟨total, accepted, -⟩ := bind_eq_ok.mp rest
    refine ⟨metadata, valid, total, accepted, ?_⟩
    exact Except.ok.inj ((encodeFile_ok metadata valid accepted).symm.trans encoded)
  · rintro ⟨metadata, valid, total, accepted, rfl⟩
    exact encodeFile_ok metadata valid accepted

/-! ## What is written is accepted -/

theorem backspace_fits (P : StoragePolicy) : P.backspaceByte ≤ 1 ∧
    ¬ (P.backspaceByte = 0 ∧ 63 < P.backspaceParameter) ∧
    ¬ (P.backspaceByte = 1 ∧ P.backspaceParameter = 0) ∧
    ¬ (P.unit = .byte ∧ (P.backspaceByte ≠ 0 ∨ P.backspaceParameter ≠ 0)) ∧
    P.backspaceParameter < 256 ^ 8 := by
  obtain ⟨unit, groupSize, code, codecBlockSize, valueWidth, -, -, default, valid, -, -⟩ := P
  cases code with
  | exponentialGolomb order =>
      change order ≤ 63 at valid
      change 0 ≤ 1 ∧ ¬ (0 = 0 ∧ 63 < order) ∧ ¬ (0 = 1 ∧ order = 0) ∧
        ¬ (unit = .byte ∧ (0 ≠ 0 ∨ order ≠ 0)) ∧ order < 256 ^ 8
      refine ⟨by omega, by omega, by omega, ?_, by omega⟩
      rintro ⟨byte, different⟩
      cases default byte
      omega
  | golomb modulus =>
      change 0 < modulus ∧ modulus ≤ maximum64 at valid
      change 1 ≤ 1 ∧ ¬ (1 = 0 ∧ 63 < modulus) ∧ ¬ (1 = 1 ∧ modulus = 0) ∧
        ¬ (unit = .byte ∧ (1 ≠ 0 ∨ modulus ≠ 0)) ∧ modulus < 256 ^ 8
      have bound : maximum64 < 256 ^ 8 := by decide
      refine ⟨by omega, by omega, by omega, ?_, by omega⟩
      rintro ⟨byte, -⟩
      cases default byte

theorem groupSize_lt (P : StoragePolicy) : P.groupSize < 256 ^ 8 := by
  obtain ⟨n, small, pow⟩ := P.groupSize_pow
  have bound : 2 ^ n ≤ 2 ^ 63 := Nat.pow_le_pow_right (by decide) (Nat.le_of_lt_succ small)
  have limit : (2 : Nat) ^ 63 < 256 ^ 8 := by decide
  omega

theorem flags_lt (header : FileHeader) : header.flags < 4 := by
  unfold FileHeader.flags
  split <;> split <;> decide

theorem flags_policy (header : FileHeader) :
    header.flags.testBit 0 = header.policyValueWidth.isSome := by
  unfold FileHeader.flags
  cases header.policyValueWidth.isSome <;> cases header.commonValueWidth.isSome <;> decide

theorem flags_common (header : FileHeader) :
    header.flags.testBit 1 = header.commonValueWidth.isSome := by
  unfold FileHeader.flags
  cases header.policyValueWidth.isSome <;> cases header.commonValueWidth.isSome <;> decide

/-- The numbers of a header fit into their fields. -/
theorem headerFields_lt : ∀ field ∈ headerFields P header bodyCrc total,
    field.value < 256 ^ field.width := by
  have flags := flags_lt header
  have groupSize := groupSize_lt P
  have blockSize := P.codecBlockSize_lt
  obtain ⟨one, -, -, -, parameter⟩ := backspace_fits P
  have unit : P.unitByte ≤ 1 := by
    unfold StoragePolicy.unitByte
    split <;> decide
  have word : ∀ value : UInt64, value.toNat < 256 ^ 8 := UInt64.toNat_lt
  simp only [headerFields, List.forall_mem_cons, List.not_mem_nil, version, headerBytes,
    false_implies, implies_true, and_true]
  refine ⟨by decide, by decide, by omega, by omega, by decide, by omega, by omega, groupSize,
    word _, word _, word _, word _, UInt32.toNat_lt _, by decide, word _, parameter⟩

/-- Every number of a header is read back from the file. -/
theorem get_file {field : Field} (member : field ∈ headerFields P header bodyCrc total) :
    get (headerImage P header bodyCrc total ++ body) field.start field.width = field.value := by
  have fits : field.start + field.width ≤ (headerImage P header bodyCrc total).length := by
    have all := headerFields_fit field member
    rwa [length_blank, ← length_headerImage P header bodyCrc total] at all
  rw [get_append_left body fits, get_headerImage member,
    Nat.mod_eq_of_lt (headerFields_lt field member)]

/-! ## What is read -/

theorem magic_ne : magic .fractionalIndex ≠ magic .nativeBlob := by decide

theorem recognizeKind_eq_ok {kind : FileKind} :
    recognizeKind bytes = .ok kind ↔ slice bytes 0 8 = magic kind := by
  unfold recognizeKind
  constructor
  · intro recognized
    split at recognized
    · cases recognized
      assumption
    · split at recognized
      · cases recognized
        assumption
      · cases recognized
  · intro named
    cases kind with
    | nativeBlob => exact if_pos named
    | fractionalIndex =>
        rw [if_neg fun native => magic_ne (named.symm.trans native), if_pos named]

/-- An optional width is read exactly when its field holds it. -/
theorem readWidth_eq_ok {present : Bool} {start : Nat} {error : String} {width : Option UInt64} :
    readWidth bytes present start error = .ok width ↔
      width.isSome = present ∧ get bytes start 8 = (width.getD 0).toNat := by
  unfold readWidth
  cases present with
  | false =>
      simp only [Bool.false_eq_true, if_false]
      constructor
      · intro read
        obtain ⟨_, zero, rest⟩ := bind_eq_ok.mp read
        cases rest
        exact ⟨rfl, require_eq_ok.mp zero⟩
      · rintro ⟨absent, zero⟩
        cases Option.not_isSome_iff_eq_none.mp (Bool.eq_false_iff.mp absent)
        exact bind_eq_ok.mpr ⟨_, require_true zero, rfl⟩
  | true =>
      simp only [if_true]
      have stored : (UInt64.ofNat (get bytes start 8)).toNat = get bytes start 8 :=
        UInt64.toNat_ofNat_of_lt' (get_lt bytes start 8)
      constructor
      · intro read
        cases read
        exact ⟨rfl, stored.symm⟩
      · rintro ⟨found, holds⟩
        obtain ⟨value, rfl⟩ := Option.isSome_iff_exists.mp found
        rw [holds]
        exact congrArg (Except.ok ∘ Option.some) (UInt64.ofNat_toNat)

/-- What the first bytes of an accepted file say. -/
structure Stored (P : StoragePolicy) (header : FileHeader) (bodyCrc : UInt32) (total : UInt64)
    (bytes : List UInt8) : Prop where
  length : headerBytes ≤ bytes.length
  named : slice bytes 0 8 = magic header.kind
  fields : ∀ field ∈ headerFields P header bodyCrc total,
    get bytes field.start field.width = field.value
  reserved : get bytes 19 1 = 0
  checksum : get bytes 68 4 = (headerChecksum bytes).toNat

variable (P header bodyCrc total body) in
/-- What is written is stored. -/
theorem stored_image :
    Stored P header bodyCrc total (headerImage P header bodyCrc total ++ body) where
  length := by
    rw [List.length_append, length_headerImage]
    exact Nat.le_add_right _ _
  named := by
    rw [slice_append_left body (by rw [length_headerImage]; decide), slice_magic]
  fields := fun field member => get_file member
  reserved := by
    rw [get_append_left body (by rw [length_headerImage]; decide), get_reserved]
  checksum := by
    rw [get_append_left body (by rw [length_headerImage]; decide), get_checksum,
      headerChecksum_append _ _ (length_headerImage P header bodyCrc total)]

/-- A header is read exactly when it is stored. -/
theorem decodeFileHeader_eq_ok : decodeFileHeader P bytes = .ok header ↔
    validateMetadata P header = .ok () ∧ ∃ total, totalBytes P header.extent = .ok total ∧
      Stored P header (UInt32.ofNat (get bytes 64 4)) total bytes := by
  have word : ∀ start, (UInt64.ofNat (get bytes start 8)).toNat = get bytes start 8 :=
    fun start => UInt64.toNat_ofNat_of_lt' (get_lt bytes start 8)
  have crc : (UInt32.ofNat (get bytes 64 4)).toNat = get bytes 64 4 :=
    UInt32.toNat_ofNat_of_lt' (get_lt bytes 64 4)
  constructor
  · intro decoded
    obtain ⟨_, long, rest⟩ := bind_eq_ok.mp decoded
    obtain ⟨kind, named, rest⟩ := bind_eq_ok.mp rest
    obtain ⟨_, format, rest⟩ := bind_eq_ok.mp rest
    obtain ⟨_, checksum, rest⟩ := bind_eq_ok.mp rest
    obtain ⟨_, known, rest⟩ := bind_eq_ok.mp rest
    obtain ⟨_, unit, rest⟩ := bind_eq_ok.mp rest
    obtain ⟨_, sums, rest⟩ := bind_eq_ok.mp rest
    obtain ⟨_, reserved, rest⟩ := bind_eq_ok.mp rest
    obtain ⟨_, -, rest⟩ := bind_eq_ok.mp rest
    obtain ⟨_, policy, rest⟩ := bind_eq_ok.mp rest
    obtain ⟨policyWidth, fixed, rest⟩ := bind_eq_ok.mp rest
    obtain ⟨commonWidth, common, rest⟩ := bind_eq_ok.mp rest
    obtain ⟨_, metadata, rest⟩ := bind_eq_ok.mp rest
    obtain ⟨_, offset, rest⟩ := bind_eq_ok.mp rest
    obtain ⟨total, accepted, rest⟩ := bind_eq_ok.mp rest
    obtain ⟨_, size, rest⟩ := bind_eq_ok.mp rest
    cases rest
    rw [readWidth_eq_ok] at fixed
    obtain ⟨fixed_present, fixed_width⟩ := fixed
    rw [readWidth_eq_ok] at common
    obtain ⟨common_present, common_width⟩ := common
    obtain ⟨version_stored, length_stored⟩ := require_eq_ok.mp format
    obtain ⟨block, group, backspace, parameter⟩ := require_eq_ok.mp policy
    refine ⟨metadata, total, accepted, require_eq_ok.mp long, Iff.mp recognizeKind_eq_ok named, ?_,
      require_eq_ok.mp reserved, require_eq_ok.mp checksum⟩
    have flags : get bytes 12 4 = FileHeader.flags ⟨kind, UInt64.ofNat (get bytes 48 8),
        UInt64.ofNat (get bytes 56 8), commonWidth, policyWidth⟩ := by
      have small := require_eq_ok.mp known
      unfold FileHeader.flags
      dsimp only
      rw [fixed_present, common_present]
      generalize get bytes 12 4 = word at small
      interval_cases word <;> rfl
    simp only [headerFields, List.forall_mem_cons, List.not_mem_nil, false_implies, implies_true,
      and_true]
    exact ⟨version_stored, length_stored, flags, (require_eq_ok.mp unit).2, require_eq_ok.mp sums,
      backspace, block, group, fixed_width, common_width, (word 48).symm, (word 56).symm, crc.symm,
      require_eq_ok.mp offset, require_eq_ok.mp size, parameter⟩
  · rintro ⟨metadata, total, accepted, stored⟩
    have fields := stored.fields
    simp only [headerFields, List.forall_mem_cons, List.not_mem_nil, false_implies, implies_true,
      and_true] at fields
    obtain ⟨version_stored, length_stored, flags, unit, sums, backspace, block, group, fixed_width,
      common_width, extent, records, -, offset, size, parameter⟩ := fields
    obtain ⟨backspace_le, exponential, golomb, byte, -⟩ := backspace_fits P
    have unit_le : P.unitByte ≤ 1 := by
      unfold StoragePolicy.unitByte
      split <;> decide
    have fixed_present : header.policyValueWidth.isSome = (get bytes 12 4).testBit 0 := by
      rw [flags, flags_policy]
    have common_present : header.commonValueWidth.isSome = (get bytes 12 4).testBit 1 := by
      rw [flags, flags_common]
    have read : FileHeader.mk header.kind (UInt64.ofNat (get bytes 48 8))
        (UInt64.ofNat (get bytes 56 8)) header.commonValueWidth header.policyValueWidth =
          header := by
      rw [extent, records, UInt64.ofNat_toNat, UInt64.ofNat_toNat]
    have covered : totalBytes P (UInt64.ofNat (get bytes 48 8)) = .ok total := by
      rwa [extent, UInt64.ofNat_toNat]
    refine bind_eq_ok.mpr ⟨_, require_true stored.length, ?_⟩
    refine bind_eq_ok.mpr ⟨_, Iff.mpr recognizeKind_eq_ok stored.named, ?_⟩
    refine bind_eq_ok.mpr ⟨_, require_true ⟨version_stored, length_stored⟩, ?_⟩
    refine bind_eq_ok.mpr ⟨_, require_true stored.checksum, ?_⟩
    refine bind_eq_ok.mpr ⟨_, require_true (flags.trans_lt (flags_lt header)), ?_⟩
    refine bind_eq_ok.mpr ⟨_, require_true ⟨unit.trans_le unit_le, unit⟩, ?_⟩
    refine bind_eq_ok.mpr ⟨_, require_true sums, ?_⟩
    refine bind_eq_ok.mpr ⟨_, require_true stored.reserved, ?_⟩
    refine bind_eq_ok.mpr ⟨_, require_true ?_, ?_⟩
    · rw [backspace, parameter]
      exact ⟨backspace_le, exponential, golomb, byte⟩
    refine bind_eq_ok.mpr ⟨_, require_true ⟨block, group, backspace, parameter⟩, ?_⟩
    refine bind_eq_ok.mpr ⟨_, Iff.mpr readWidth_eq_ok ⟨fixed_present, fixed_width⟩, ?_⟩
    refine bind_eq_ok.mpr ⟨_, Iff.mpr readWidth_eq_ok ⟨common_present, common_width⟩, ?_⟩
    dsimp only
    rw [read]
    refine bind_eq_ok.mpr ⟨_, metadata, ?_⟩
    refine bind_eq_ok.mpr ⟨_, require_true offset, ?_⟩
    refine bind_eq_ok.mpr ⟨_, covered, ?_⟩
    exact bind_eq_ok.mpr ⟨_, require_true size, rfl⟩

/-- A file is accepted exactly when its header is stored and its body fits. -/
theorem validateFile_eq_ok : validateFile P bytes = .ok header ↔
    validateMetadata P header = .ok () ∧ validateBody P header (bytes.drop headerBytes) = .ok () ∧
      ∃ total, totalBytes P header.extent = .ok total ∧ total.toNat = bytes.length ∧
        Stored P header (crc32c (bytes.drop headerBytes)) total bytes := by
  constructor
  · intro accepted
    obtain ⟨found, decoded, rest⟩ := bind_eq_ok.mp accepted
    obtain ⟨total, covered, rest⟩ := bind_eq_ok.mp rest
    obtain ⟨_, length, rest⟩ := bind_eq_ok.mp rest
    obtain ⟨_, valid, rest⟩ := bind_eq_ok.mp rest
    obtain ⟨_, crc, rest⟩ := bind_eq_ok.mp rest
    cases rest
    rw [decodeFileHeader_eq_ok] at decoded
    obtain ⟨metadata, again, same, stored⟩ := decoded
    cases same.symm.trans covered
    rw [require_eq_ok.mp crc, UInt32.ofNat_toNat] at stored
    exact ⟨metadata, valid, total, covered, require_eq_ok.mp length, stored⟩
  · rintro ⟨metadata, valid, total, covered, length, stored⟩
    have crc : get bytes 64 4 = (crc32c (bytes.drop headerBytes)).toNat :=
      stored.fields ⟨64, 4, _⟩ (by simp [headerFields])
    have decoded : decodeFileHeader P bytes = .ok header := by
      rw [decodeFileHeader_eq_ok]
      refine ⟨metadata, total, covered, ?_⟩
      rwa [crc, UInt32.ofNat_toNat]
    refine bind_eq_ok.mpr ⟨_, decoded, ?_⟩
    refine bind_eq_ok.mpr ⟨_, covered, ?_⟩
    refine bind_eq_ok.mpr ⟨_, require_true length, ?_⟩
    refine bind_eq_ok.mpr ⟨_, valid, ?_⟩
    exact bind_eq_ok.mpr ⟨_, require_true crc, rfl⟩

/-! ## What is stored is what is written -/

/-- The widths of all fields of a header. -/
def layout : List Nat := [8, 2, 2, 4, 1, 1, 1, 1, 4, 8, 8, 8, 8, 8, 4, 4, 8, 8, 8]

variable (P header bodyCrc total) in
/-- The fields of a header cover it. -/
theorem eq_of_fields {first second : List UInt8} (first_length : first.length = headerBytes)
    (second_length : second.length = headerBytes) (named : slice first 0 8 = slice second 0 8)
    (reserved : slice first 19 1 = slice second 19 1)
    (checksum : slice first 68 4 = slice second 68 4)
    (fields : ∀ field ∈ headerFields P header bodyCrc total,
      slice first field.start field.width = slice second field.start field.width) :
    first = second := by
  simp only [headerFields, List.forall_mem_cons, List.not_mem_nil, false_implies, implies_true,
    and_true] at fields
  obtain ⟨version, length, flags, unit, sums, backspace, block, group, fixed, common, extent,
    records, body, offset, size, parameter⟩ := fields
  have agree : Agree first second 0 layout :=
    ⟨named, version, length, flags, unit, sums, backspace, reserved, block, group, fixed, common,
      extent, records, body, checksum, offset, size, parameter, trivial⟩
  have first_covered : first.length = 0 + layout.sum := first_length
  have second_covered : second.length = 0 + layout.sum := second_length
  exact eq_of_agree first_covered second_covered agree

/-- The fields and their numbers determine the header. -/
theorem Stored.eq {first second : List UInt8} (first_length : first.length = headerBytes)
    (second_length : second.length = headerBytes)
    (first_stored : Stored P header bodyCrc total first)
    (second_stored : Stored P header bodyCrc total second) : first = second := by
  have fits : ∀ {start width}, start + width ≤ headerBytes →
      start + width ≤ first.length ∧ start + width ≤ second.length := by
    intro start width inside
    rw [first_length, second_length]
    exact ⟨inside, inside⟩
  have named : slice first 0 8 = slice second 0 8 :=
    first_stored.named.trans second_stored.named.symm
  have reserved : slice first 19 1 = slice second 19 1 :=
    slice_eq_of_get (fits (by decide)).1 (fits (by decide)).2
      (first_stored.reserved.trans second_stored.reserved.symm)
  have fields : ∀ field ∈ headerFields P header bodyCrc total,
      slice first field.start field.width = slice second field.start field.width := by
    intro field member
    have inside := headerFields_fit field member
    rw [length_blank] at inside
    exact slice_eq_of_get (fits inside).1 (fits inside).2
      ((first_stored.fields field member).trans (second_stored.fields field member).symm)
  have first_fits : 68 + 4 ≤ first.length := (fits (by decide)).1
  have second_fits : 68 + 4 ≤ second.length := (fits (by decide)).2
  -- With the checksum zeroed the headers are equal, and so are their checksums.
  have zeroed : ByteFields.put first 68 4 0 = ByteFields.put second 68 4 0 := by
    apply eq_of_fields P header bodyCrc total
    · rw [length_put first_fits, first_length]
    · rw [length_put second_fits, second_length]
    · rw [slice_put_of_disjoint first_fits (.inl (by decide)),
        slice_put_of_disjoint second_fits (.inl (by decide)), named]
    · rw [slice_put_of_disjoint first_fits (.inl (by decide)),
        slice_put_of_disjoint second_fits (.inl (by decide)), reserved]
    · apply slice_eq_of_get
      · rwa [length_put first_fits]
      · rwa [length_put second_fits]
      · rw [get_put first_fits, get_put second_fits]
    · intro field member
      rw [slice_put_of_disjoint first_fits (checksum_apart field member),
        slice_put_of_disjoint second_fits (checksum_apart field member), fields field member]
  have checksum : headerChecksum first = headerChecksum second := by
    rw [headerChecksum, headerChecksum, List.take_of_length_le first_length.le,
      List.take_of_length_le second_length.le, zeroed]
  refine eq_of_fields P header bodyCrc total first_length second_length named reserved ?_ fields
  apply slice_eq_of_get first_fits second_fits
  rw [first_stored.checksum, second_stored.checksum, checksum]

theorem Stored.take (stored : Stored P header bodyCrc total bytes) :
    Stored P header bodyCrc total (bytes.take headerBytes) := by
  have length : (bytes.take headerBytes).length = headerBytes :=
    List.length_take_of_le stored.length
  have whole : bytes = bytes.take headerBytes ++ bytes.drop headerBytes :=
    (List.take_append_drop _ _).symm
  have same : ∀ {start width}, start + width ≤ headerBytes →
      slice (bytes.take headerBytes) start width = slice bytes start width := by
    intro start width inside
    rw [whole, slice_append_left _ (by rwa [length]), ← whole]
  constructor
  · exact length.ge
  · rw [same (by decide), stored.named]
  · intro field member
    have inside := headerFields_fit field member
    rw [length_blank] at inside
    refine (congrArg LittleEndian.ofBytes (same inside)).trans (stored.fields field member)
  · exact (congrArg LittleEndian.ofBytes (same (by decide))).trans stored.reserved
  · refine (congrArg LittleEndian.ofBytes (same (by decide))).trans (stored.checksum.trans ?_)
    rw [headerChecksum, headerChecksum, List.take_take, Nat.min_self]

/-- An accepted file is the header and the body which it holds. -/
theorem Stored.eq_image (stored : Stored P header bodyCrc total bytes) :
    headerImage P header bodyCrc total ++ bytes.drop headerBytes = bytes := by
  have image := stored_image P header bodyCrc total []
  rw [List.append_nil] at image
  rw [image.eq (length_headerImage P header bodyCrc total)
    (List.length_take_of_le stored.length) stored.take,
    List.take_append_drop]

/-- A file which is written is accepted as what it was written from. -/
theorem validateFile_of_encodeFile (encoded : encodeFile P header body = .ok bytes) :
    validateFile P bytes = .ok header ∧ bytes.drop headerBytes = body := by
  rw [encodeFile_eq_ok] at encoded
  obtain ⟨metadata, valid, total, accepted, rfl⟩ := encoded
  have rest : (headerImage P header (crc32c body) total ++ body).drop headerBytes = body :=
    List.drop_left' (length_headerImage P header (crc32c body) total)
  refine ⟨validateFile_eq_ok.mpr ?_, rest⟩
  rw [rest]
  refine ⟨metadata, valid, total, accepted, ?_, stored_image P header _ total body⟩
  rw [(totalBytes_ok accepted).1, validateBody_length valid, List.length_append,
    length_headerImage, Nat.add_comm]

/-- A file which is accepted is written from what it is accepted as. -/
theorem encodeFile_of_validateFile (accepted : validateFile P bytes = .ok header) :
    encodeFile P header (bytes.drop headerBytes) = .ok bytes := by
  rw [validateFile_eq_ok] at accepted
  obtain ⟨metadata, valid, total, covered, -, stored⟩ := accepted
  rw [encodeFile_eq_ok]
  exact ⟨metadata, valid, total, covered, stored.eq_image⟩

theorem validateFile_length (accepted : validateFile P bytes = .ok header) :
    ∃ total, totalBytes P header.extent = .ok total ∧ bytes.length = total.toNat := by
  rw [validateFile_eq_ok] at accepted
  obtain ⟨-, -, total, covered, length, -⟩ := accepted
  exact ⟨total, covered, length.symm⟩

/-- Nothing is accepted as one header both with and without more bytes. -/
theorem validateFile_of_append {more : List UInt8} (accepted : validateFile P bytes = .ok header)
    (extended : validateFile P (bytes ++ more) = .ok header) : more = [] := by
  obtain ⟨total, covered, length⟩ := validateFile_length accepted
  obtain ⟨again, same, longer⟩ := validateFile_length extended
  cases covered.symm.trans same
  rw [List.length_append, length] at longer
  exact List.length_eq_zero_iff.mp (by omega)

/-- A file is accepted exactly when it is written, and then nothing of it is left open. -/
theorem file_envelope_canonical (P : StoragePolicy) :
    (∀ header body bytes, encodeFile P header body = .ok bytes →
      validateFile P bytes = .ok header) ∧
    (∀ header bytes, validateFile P bytes = .ok header →
      encodeFile P header (bytes.drop headerBytes) = .ok bytes) ∧
    (∀ bytes, (∃ header, validateFile P bytes = .ok header) ↔
      ∃ header body, encodeFile P header body = .ok bytes) ∧
    (∀ header bytes more, validateFile P bytes = .ok header →
      validateFile P (bytes ++ more) = .ok header → more = []) ∧
    (∀ extent total, totalBytes P extent = .ok total →
      total.toNat = headerBytes +
        match P.unit with
        | .byte => extent.toNat
        | .bit => (extent.toNat + 7) / 8) := by
  refine ⟨fun header body bytes encoded => (validateFile_of_encodeFile encoded).1,
    fun header bytes accepted => encodeFile_of_validateFile accepted, fun bytes => ⟨?_, ?_⟩,
    fun header bytes more accepted extended => validateFile_of_append accepted extended, ?_⟩
  · rintro ⟨header, accepted⟩
    exact ⟨header, _, encodeFile_of_validateFile accepted⟩
  · rintro ⟨header, body, encoded⟩
    exact ⟨header, (validateFile_of_encodeFile encoded).1⟩
  · intro extent total accepted
    obtain ⟨size, exact_size⟩ := totalBytes_ok accepted
    rw [size, exact_size, Nat.add_comm]

/-- An empty blob of byte profiles is such a file. -/
theorem file_envelope_canonical_empty :
    ∃ bytes, encodeFile .bytes3 ⟨.nativeBlob, 0, 0, some 0, none⟩ [] = .ok bytes ∧
      validateFile .bytes3 bytes = .ok ⟨.nativeBlob, 0, 0, some 0, none⟩ ∧ 96 ≤ bytes.length := by
  have metadata : validateMetadata .bytes3 ⟨.nativeBlob, 0, 0, some 0, none⟩ = .ok () := rfl
  have body : validateBody .bytes3 ⟨.nativeBlob, 0, 0, some 0, none⟩ [] = .ok () := by decide
  have total : totalBytes .bytes3 0 = .ok 96 := by decide
  have encoded := encodeFile_ok metadata body total
  refine ⟨_, encoded, (file_envelope_canonical .bytes3).1 _ _ _ encoded, ?_⟩
  rw [List.length_append, length_headerImage]
  decide

end Everett

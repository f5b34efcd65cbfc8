import Everett.Sort.Stream

/-!
# Key and value codecs of sorts

Each sort owns a grammar for its keys and one for its values.  A codec is lawful when reading takes
exactly the bits which writing appended; every codec the library provides is lawful.
-/

namespace Everett

open Outcome

/-- A key codec: `less`, `write` and `read`, the last two with the previous key of the sort. -/
structure KeyCodec (K : Type) where
  less : K → K → Bool
  write : K → Option K → BitString → Result BitString
  read : Option K → SortBitReader → Result (K × SortBitReader)

/-- A value codec: `write` and `read`. -/
structure ValueCodec (V : Type) where
  write : V → BitString → Result BitString
  read : SortBitReader → Result (V × SortBitReader)

/-- Writing appended bits which reading takes back. -/
def Appends {α : Type} (out : BitString) (read : SortBitReader → Result (α × SortBitReader))
    (value : α) (result : BitString) : Prop :=
  ∃ bits, result = out ++ bits ∧ Reads read bits value

/-- A key which was written is read back after the same previous key. -/
def KeyCodec.Lawful {K : Type} (codec : KeyCodec K) : Prop :=
  ∀ key previous out result, codec.write key previous out = .ok result →
    Appends out (codec.read previous) key result

/-- A value which was written is read back. -/
def ValueCodec.Lawful {V : Type} (codec : ValueCodec V) : Prop :=
  ∀ value out result, codec.write value out = .ok result → Appends out codec.read value result

/-- `bit_string`, with the extent its `validate` promises. -/
abbrev PackedBits := {bits : BitString // bits.length ≤ maximum64 - 7}

namespace SortBitWriter

theorem writeCount_ok {count : CountCode} {out result : BitString} {value : Nat}
    (written : writeCount count out value = .ok result) : result = out ++ count.bits value :=
  (ProfileDetail.append_ok written).1

end SortBitWriter

/-! ## Strings -/

namespace SortString

/-- Bits of the bytes of a string. -/
def bits (value : List UInt8) : BitString := value.flatMap fun byte => BitField.toBits 8 byte.toNat

/-- `string_bits`. -/
def stringBits (value : List UInt8) : Result BitString := do
  let _ ← ProfileDetail.multiply value.length 8
  .ok (bits value)

/-- The string which bits spell. -/
def ofBits : BitString → List UInt8
  | a :: b :: c :: d :: e :: f :: g :: h :: rest =>
      UInt8.ofNat (BitField.ofBits [a, b, c, d, e, f, g, h]) :: ofBits rest
  | _ => []

@[simp] theorem length_bits (value : List UInt8) : (bits value).length = 8 * value.length := by
  induction value with
  | nil => rfl
  | cons byte value induction =>
      rw [bits, List.flatMap_cons, List.length_append, BitField.length_toBits, ← bits, induction,
        List.length_cons]
      omega

theorem ofBits_byte (byte : UInt8) (rest : BitString) :
    ofBits (BitField.toBits 8 byte.toNat ++ rest) = byte :: ofBits rest := by
  have value := BitField.ofBits_toBits_of_lt byte.toNat_lt
  simp only [BitField.toBits] at value
  simp only [BitField.toBits, List.cons_append, List.nil_append, ofBits, value,
    UInt8.ofNat_toNat]

@[simp] theorem ofBits_bits (value : List UInt8) : ofBits (bits value) = value := by
  induction value with
  | nil => rfl
  | cons byte value induction =>
      rw [bits, List.flatMap_cons, ofBits_byte, ← bits, induction]

theorem stringBits_ok {value : List UInt8} {result : BitString}
    (done : stringBits value = .ok result) :
    result = bits value ∧ 8 * value.length ≤ maximum64 := by
  obtain ⟨_, product, rest⟩ := bind_eq_ok.mp done
  cases rest
  unfold ProfileDetail.multiply at product
  split_ifs at product
  exact ⟨rfl, by rwa [Nat.mul_comm]⟩

end SortString

/-! ## Front coding -/

/-- `fc_key_frame`. -/
structure FcKeyFrame where
  retainedBits : Nat
  literal : BitString

namespace FcKeyFrame

/-- `read_frame`, up to the alignment which strings check. -/
def read (count : CountCode) (previousBits : Nat) (reader : SortBitReader) :
    Result (FcKeyFrame × SortBitReader) := do
  let (backspace, reader) ← reader.readCount count
  require (backspace ≤ previousBits) "FC backspace exceeds key"
  let (size, reader) ← reader.readCount count
  let (literal, reader) ← reader.takeBits size
  let _ ← ProfileDetail.add (previousBits - backspace) literal.length
  .ok (⟨previousBits - backspace, literal⟩, reader)

/-- The bits of a key after the previous ones. -/
def write (count : CountCode) (key old out : BitString) : Result BitString := do
  let retained := (compareCommonBits old key).commonBits
  let out ← SortBitWriter.writeCount count out (old.length - retained)
  let out ← SortBitWriter.writeCount count out (key.length - retained)
  ProfileDetail.append out (key.drop retained)

/-- The key which a frame completes. -/
def key (frame : FcKeyFrame) (old : BitString) : BitString :=
  old.take frame.retainedBits ++ frame.literal

/-- A written frame retains the common prefix. -/
def of (old key : BitString) : FcKeyFrame := ⟨Word.lcp old key, key.drop (Word.lcp old key)⟩

theorem key_of (old key : BitString) : (of old key).key old = key := by
  rw [FcKeyFrame.key, of, Word.take_lcp, List.take_append_drop]

theorem write_ok {count : CountCode} {key old out result : BitString}
    (key_bounded : key.length ≤ maximum64) (old_bounded : old.length ≤ maximum64)
    (written : write count key old out = .ok result) :
    Appends out (read count old.length) (of old key) result := by
  obtain ⟨first, backspace, rest⟩ := bind_eq_ok.mp written
  obtain ⟨second, size, rest⟩ := bind_eq_ok.mp rest
  have shared := Word.lcp_le_left old key
  have shared_key := Word.lcp_le_right old key
  have kept : old.length - (old.length - Word.lcp old key) = Word.lcp old key := Nat.sub_sub_self shared
  have total : Word.lcp old key + (key.drop (Word.lcp old key)).length ≤ maximum64 := by
    rw [List.length_drop]
    omega
  refine ⟨count.bits (old.length - Word.lcp old key) ++ (count.bits (key.length - Word.lcp old key) ++
    key.drop (Word.lcp old key)), ?_, fun tail position => ?_⟩
  · rw [(ProfileDetail.append_ok rest).1, SortBitWriter.writeCount_ok size,
      SortBitWriter.writeCount_ok backspace, List.append_assoc, List.append_assoc]
    rfl
  · have literal := SortBitReader.takeBits_reads (key.drop (Word.lcp old key))
    rw [List.length_drop] at literal
    simp only [read]
    rw [List.append_assoc, SortBitReader.readCount_reads count (by omega), ok_bind]
    dsimp only
    rw [require_true (Nat.sub_le _ _), ok_bind, List.append_assoc,
      SortBitReader.readCount_reads count (by omega), ok_bind]
    dsimp only
    rw [literal, ok_bind]
    dsimp only
    rw [kept, ProfileDetail.add, if_pos total, ok_bind, List.length_append, List.length_append,
      ← Nat.add_assoc, ← Nat.add_assoc]
    rfl

end FcKeyFrame

namespace SortCodec

/-- The bits of the previous string, or none. -/
def oldBits : Option (List UInt8) → Result BitString
  | some previous => SortString.stringBits previous
  | none => .ok []

/-- `fc_string_key`. -/
def fcStringKey (count : CountCode) : KeyCodec (List UInt8) where
  less a b := compareBits (SortString.bits a) (SortString.bits b) = .lt
  write key previous out := do
    let bits ← SortString.stringBits key
    let old ← oldBits previous
    FcKeyFrame.write count bits old out
  read previous reader := do
    let old ← oldBits previous
    let (frame, reader) ← FcKeyFrame.read count old.length reader
    require ((frame.retainedBits + frame.literal.length) % 8 = 0) "FC string ends inside a byte"
    .ok (SortString.ofBits (frame.key old), reader)

/-- `fc_bit_key`. -/
def fcBitKey (count : CountCode) : KeyCodec PackedBits where
  less a b := compareBits a.1 b.1 = .lt
  write key previous out := FcKeyFrame.write count key.1 (previous.elim [] (·.1)) out
  read previous reader := do
    let old := previous.elim [] (·.1)
    let (frame, reader) ← FcKeyFrame.read count old.length reader
    if fits : (frame.key old).length ≤ maximum64 - 7 then .ok (⟨frame.key old, fits⟩, reader)
    else .error "profile bit string too large"

/-- `string_value`. -/
def stringValue (count : CountCode) : ValueCodec (List UInt8) where
  write value out := do
    let out ← SortBitWriter.writeCount count out value.length
    let bits ← SortString.stringBits value
    ProfileDetail.append out bits
  read reader := do
    let (bytes, reader) ← reader.readCount count
    require (bytes ≤ reader.bits.length / 8) "truncated string value"
    let (bits, reader) ← reader.takeBits (8 * bytes)
    .ok (SortString.ofBits bits, reader)

/-- `bit_value`. -/
def bitValue (count : CountCode) : ValueCodec PackedBits where
  write value out := do
    let out ← SortBitWriter.writeCount count out value.1.length
    ProfileDetail.append out value.1
  read reader := do
    let (size, reader) ← reader.readCount count
    let (bits, reader) ← reader.takeBits size
    if fits : bits.length ≤ maximum64 - 7 then .ok (⟨bits, fits⟩, reader)
    else .error "profile bit string too large"

/-- `raw_string_key`. -/
def rawStringKey (count : CountCode) : KeyCodec (List UInt8) where
  less a b := compareBits (SortString.bits a) (SortString.bits b) = .lt
  write key _ out := (stringValue count).write key out
  read _ reader := (stringValue count).read reader

/-- `unsigned_value`. -/
def unsignedValue (width : Nat) : ValueCodec UInt64 where
  write value out := SortBitWriter.writeBits out value.toNat width
  read reader := do
    let (value, reader) ← reader.readBits width
    .ok (UInt64.ofNat value, reader)

/-- `unsigned_key`. -/
def unsignedKey (width : Nat) : KeyCodec UInt64 where
  less a b := a < b
  write key _ out := (unsignedValue width).write key out
  read _ reader := (unsignedValue width).read reader

/-- `tombstone_value`. -/
def tombstoneValue {V : Type} (codec : ValueCodec V) : ValueCodec (Option V) where
  write
    | none, out => SortBitWriter.writeBits out 0 1
    | some value, out => do
        let out ← SortBitWriter.writeBits out 1 1
        codec.write value out
  read reader := do
    let (present, reader) ← reader.readBits 1
    if present = 0 then .ok (none, reader)
    else do
      let (value, reader) ← codec.read reader
      .ok (some value, reader)

/-- `niche_value`. -/
def nicheValue {V : Type} [DecidableEq V] (codec : ValueCodec V) (sentinel : V) :
    ValueCodec (Option V) where
  write
    | none, out => codec.write sentinel out
    | some value, out => do
        require (value ≠ sentinel) "value occupies tombstone niche"
        codec.write value out
  read reader := do
    let (value, reader) ← codec.read reader
    .ok (if value = sentinel then none else some value, reader)

/-- `no_value`. -/
def noValue : ValueCodec Unit where
  write _ out := .ok out
  read reader := .ok ((), reader)

/-! ## The codecs are lawful -/

theorem oldBits_length {previous : Option (List UInt8)} {old : BitString}
    (done : oldBits previous = .ok old) : old.length ≤ maximum64 := by
  cases previous with
  | none =>
      cases done
      exact Nat.zero_le _
  | some previous =>
      obtain ⟨rfl, bounded⟩ := SortString.stringBits_ok done
      rwa [SortString.length_bits]

theorem fcStringKey_lawful (count : CountCode) : (fcStringKey count).Lawful := by
  intro key previous out result written
  obtain ⟨bits, coded, rest⟩ := bind_eq_ok.mp written
  obtain ⟨old, coded_old, rest⟩ := bind_eq_ok.mp rest
  obtain ⟨rfl, bounded⟩ := SortString.stringBits_ok coded
  have key_bounded : (SortString.bits key).length ≤ maximum64 := by
    rwa [SortString.length_bits]
  obtain ⟨frame, appended, reads⟩ := FcKeyFrame.write_ok key_bounded (oldBits_length coded_old) rest
  have whole : Word.lcp old (SortString.bits key) +
      ((SortString.bits key).drop (Word.lcp old (SortString.bits key))).length =
        8 * key.length := by
    have shared := Word.lcp_le_right old (SortString.bits key)
    rw [List.length_drop, Nat.add_sub_cancel' shared, SortString.length_bits]
  refine ⟨frame, appended, fun tail position => ?_⟩
  simp only [fcStringKey]
  rw [coded_old, ok_bind, reads, ok_bind]
  dsimp only
  rw [FcKeyFrame.key_of, FcKeyFrame.of, whole, require_true (Nat.mul_mod_right 8 _), ok_bind,
    SortString.ofBits_bits]

theorem fcBitKey_lawful (count : CountCode) : (fcBitKey count).Lawful := by
  intro key previous out result written
  have bounded : key.1.length ≤ maximum64 := key.2.trans (Nat.sub_le _ _)
  have old_bounded : (previous.elim [] (·.1) : BitString).length ≤ maximum64 := by
    cases previous with
    | none => exact Nat.zero_le _
    | some previous => exact previous.2.trans (Nat.sub_le _ _)
  obtain ⟨frame, appended, reads⟩ := FcKeyFrame.write_ok bounded old_bounded written
  refine ⟨frame, appended, fun tail position => ?_⟩
  simp only [fcBitKey]
  rw [reads, ok_bind]
  simp only [FcKeyFrame.key_of]
  rw [dif_pos key.2]

theorem stringValue_lawful (count : CountCode) : (stringValue count).Lawful := by
  intro value out result written
  obtain ⟨first, size, rest⟩ := bind_eq_ok.mp written
  obtain ⟨bits, coded, rest⟩ := bind_eq_ok.mp rest
  obtain ⟨rfl, bounded⟩ := SortString.stringBits_ok coded
  refine ⟨count.bits value.length ++ SortString.bits value, ?_, fun tail position => ?_⟩
  · rw [(ProfileDetail.append_ok rest).1, SortBitWriter.writeCount_ok size, List.append_assoc]
  · have taken := SortBitReader.takeBits_reads (SortString.bits value)
    have enough : value.length ≤ (SortString.bits value ++ tail).length / 8 := by
      rw [List.length_append, SortString.length_bits]
      omega
    rw [SortString.length_bits] at taken
    simp only [stringValue]
    rw [List.append_assoc, SortBitReader.readCount_reads count (by omega), ok_bind]
    dsimp only
    rw [require_true enough, ok_bind, taken, ok_bind]
    dsimp only
    rw [SortString.ofBits_bits, List.length_append, ← Nat.add_assoc]

theorem bitValue_lawful (count : CountCode) : (bitValue count).Lawful := by
  intro value out result written
  obtain ⟨first, size, rest⟩ := bind_eq_ok.mp written
  refine ⟨count.bits value.1.length ++ value.1, ?_, fun tail position => ?_⟩
  · rw [(ProfileDetail.append_ok rest).1, SortBitWriter.writeCount_ok size, List.append_assoc]
  · simp only [bitValue]
    rw [List.append_assoc, SortBitReader.readCount_reads count (value.2.trans (Nat.sub_le _ _)),
      ok_bind]
    dsimp only
    rw [SortBitReader.takeBits_reads, ok_bind]
    dsimp only
    rw [dif_pos value.2, List.length_append, ← Nat.add_assoc]

theorem rawStringKey_lawful (count : CountCode) : (rawStringKey count).Lawful :=
  fun key _ out result written => stringValue_lawful count key out result written

theorem unsignedValue_lawful (width : Nat) : (unsignedValue width).Lawful := by
  intro value out result written
  obtain ⟨narrow, fits, appended⟩ := SortBitWriter.writeBits_ok written
  refine ⟨BitField.toBits width value.toNat, appended, fun tail position => ?_⟩
  simp only [unsignedValue]
  rw [SortBitReader.readBits_reads narrow, ok_bind, Nat.mod_eq_of_lt fits]
  dsimp only
  rw [UInt64.ofNat_toNat]

theorem unsignedKey_lawful (width : Nat) : (unsignedKey width).Lawful :=
  fun key _ out result written => unsignedValue_lawful width key out result written

theorem tombstoneValue_lawful {V : Type} {codec : ValueCodec V} (lawful : codec.Lawful) :
    (tombstoneValue codec).Lawful := by
  intro value out result written
  cases value with
  | none =>
      obtain ⟨-, -, appended⟩ := SortBitWriter.writeBits_ok written
      refine ⟨BitField.toBits 1 0, appended, fun tail position => ?_⟩
      simp only [tombstoneValue]
      rw [SortBitReader.readBits_reads (by decide), ok_bind]
      rfl
  | some value =>
      obtain ⟨next, present, rest⟩ := bind_eq_ok.mp written
      obtain ⟨-, -, appended⟩ := SortBitWriter.writeBits_ok present
      obtain ⟨bits, extended, reads⟩ := lawful value next result rest
      refine ⟨BitField.toBits 1 1 ++ bits, ?_, fun tail position => ?_⟩
      · rw [extended, appended, List.append_assoc]
      · simp only [tombstoneValue]
        rw [List.append_assoc, SortBitReader.readBits_reads (by decide), ok_bind]
        dsimp only
        rw [if_neg (by decide), reads, ok_bind, List.length_append, ← Nat.add_assoc]

theorem nicheValue_lawful {V : Type} [DecidableEq V] {codec : ValueCodec V} (lawful : codec.Lawful)
    (sentinel : V) : (nicheValue codec sentinel).Lawful := by
  intro value out result written
  cases value with
  | none =>
      obtain ⟨bits, extended, reads⟩ := lawful sentinel out result written
      refine ⟨bits, extended, fun tail position => ?_⟩
      simp only [nicheValue]
      rw [reads, ok_bind]
      dsimp only
      rw [if_pos rfl]
  | some value =>
      obtain ⟨_, different, rest⟩ := bind_eq_ok.mp written
      obtain ⟨bits, extended, reads⟩ := lawful value out result rest
      refine ⟨bits, extended, fun tail position => ?_⟩
      simp only [nicheValue]
      rw [reads, ok_bind]
      dsimp only
      rw [if_neg (require_eq_ok.mp different)]

theorem noValue_lawful : noValue.Lawful := by
  intro _ out result written
  cases written
  exact ⟨[], (List.append_nil out).symm, fun _ _ => rfl⟩

end SortCodec

end Everett

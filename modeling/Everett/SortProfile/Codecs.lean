import Everett.SortProfile.Consuming

/-!
# Navigable codecs

A navigable key codec supplies the order bits of its keys, and frames which expose an inherited
prefix and a literal.  Values keep their own grammar; a skip finds the end of a value.
-/

namespace Everett

open Outcome

/-- Errors by which a writer refuses what does not fit into 64-bit extents. -/
def SizeError (text : String) : Prop :=
  text = "profile addition" ∨ text = "profile multiplication" ∨
    text = "profile bit string too large" ∨ text = "elias_fano section extent"

/-- `sort_profile_key`. -/
structure ProfileKey (K : Type) where
  /-- `front_coded`. -/
  frontCoded : Bool
  /-- `order`: the bits by which keys are ordered. -/
  order : K → Result BitString
  /-- `read`: the frame of a key after its retained bits. -/
  read : Nat → SortBitReader → Result (FcKeyFrame × SortBitReader)
  /-- `header`: what stands before the literal of a key. -/
  header : BitString → Nat → Nat → Result BitString

/-- A value codec with its `skip`. -/
structure ProfileValue (V : Type) extends ValueCodec V where
  skip : SortBitReader → Result (Unit × SortBitReader)

namespace SortProfileKey

/-- `sort_profile_key<fc_string_key>`. -/
def fcString (count : CountCode) : ProfileKey (List UInt8) where
  frontCoded := true
  order := SortString.stringBits
  read retained reader := do
    let (size, reader) ← reader.readCount count
    let (literal, reader) ← reader.takeBits size
    require ((retained + literal.length) % 8 = 0) "string key ends inside byte"
    .ok (⟨retained, literal⟩, reader)
  header out retained suffixBits := do
    require ((retained + suffixBits) % 8 = 0) "string key ends inside byte"
    SortBitWriter.writeCount count out suffixBits

/-- `sort_profile_key<fc_bit_key>`. -/
def fcBit (count : CountCode) : ProfileKey PackedBits where
  frontCoded := true
  order key := .ok key.1
  read retained reader := do
    let (size, reader) ← reader.readCount count
    let (literal, reader) ← reader.takeBits size
    .ok (⟨retained, literal⟩, reader)
  header out _ suffixBits := SortBitWriter.writeCount count out suffixBits

/-- `sort_profile_key<unsigned_key>`. -/
def unsigned (width : Nat) : ProfileKey UInt64 where
  frontCoded := false
  order key := SortBitWriter.writeBits [] key.toNat width
  read retained reader := do
    require (retained = 0) "raw integer has an inherited prefix"
    let (literal, reader) ← reader.takeBits width
    .ok (⟨0, literal⟩, reader)
  header out retained suffixBits := do
    require (retained = 0 ∧ suffixBits = width) "raw integer frame width"
    .ok out

/-- `sort_profile_key<raw_string_key>`. -/
def rawString (count : CountCode) : ProfileKey (List UInt8) where
  frontCoded := false
  order := SortString.stringBits
  read retained reader := do
    require (retained = 0) "raw string has an inherited prefix"
    let (bytes, reader) ← reader.readCount count
    let bits ← ProfileDetail.multiply bytes 8
    let (literal, reader) ← reader.takeBits bits
    .ok (⟨0, literal⟩, reader)
  header out retained suffixBits := do
    require (retained = 0 ∧ suffixBits % 8 = 0) "raw string frame width"
    SortBitWriter.writeCount count out (suffixBits / 8)

end SortProfileKey

namespace SortProfileValue

/-- `string_value`. -/
def string (count : CountCode) : ProfileValue (List UInt8) where
  toValueCodec := SortCodec.stringValue count
  skip reader := do
    let (bytes, reader) ← reader.readCount count
    require (bytes ≤ reader.bits.length / 8) "truncated string value"
    let (_, reader) ← reader.takeBits (8 * bytes)
    .ok ((), reader)

/-- `bit_value`. -/
def bit (count : CountCode) : ProfileValue PackedBits where
  toValueCodec := SortCodec.bitValue count
  skip reader := do
    let (size, reader) ← reader.readCount count
    let (_, reader) ← reader.takeBits size
    .ok ((), reader)

/-- `unsigned_value`. -/
def unsigned (width : Nat) : ProfileValue UInt64 where
  toValueCodec := SortCodec.unsignedValue width
  skip reader := do
    let (_, reader) ← reader.takeBits width
    .ok ((), reader)

/-- `tombstone_value`. -/
def tombstone {V : Type} (codec : ProfileValue V) : ProfileValue (Option V) where
  toValueCodec := SortCodec.tombstoneValue codec.toValueCodec
  skip reader := do
    let (present, reader) ← reader.readBits 1
    if present ≠ 0 then codec.skip reader else .ok ((), reader)

/-- `niche_value`. -/
def niche {V : Type} [DecidableEq V] (codec : ProfileValue V) (sentinel : V) :
    ProfileValue (Option V) where
  toValueCodec := SortCodec.nicheValue codec.toValueCodec sentinel
  skip := codec.skip

/-- `no_value`. -/
def none : ProfileValue Unit where
  toValueCodec := SortCodec.noValue
  skip reader := .ok ((), reader)

end SortProfileValue

/-! ## Lawful codecs -/

/-- A frame of a key is read back, and only a key without front coding is framed whole. -/
structure ProfileKey.Lawful {K : Type} (codec : ProfileKey K) : Prop where
  reads : ∀ {out result literal : BitString} {retained : Nat}, literal.length ≤ maximum64 →
    codec.header out retained literal.length = .ok result →
    ∃ control, result = out ++ control ∧
      Reads (codec.read retained) (control ++ literal) ⟨retained, literal⟩
  whole : codec.frontCoded = false → ∀ {out result : BitString} {retained suffixBits : Nat},
    codec.header out retained suffixBits = .ok result → retained = 0
  accepts : ∀ {key : K} {bits : BitString}, codec.order key = .ok bits →
    ∀ (out : BitString) (retained : Nat), retained ≤ bits.length →
      (codec.frontCoded = false → retained = 0) →
      Ensures SizeError (codec.header out retained (bits.length - retained)) fun _ => True

/-- A value is skipped exactly, whatever follows it. -/
structure ProfileValue.Lawful {V : Type} (codec : ProfileValue V) : Prop where
  consumes : Consumes codec.skip
  written : ∀ {value : V} {out result : BitString}, codec.write value out = .ok result →
    ∃ bits, result = out ++ bits ∧ Reads codec.skip bits ()

theorem ProfileDetail.append_ensures (target source : BitString) :
    Ensures SizeError (ProfileDetail.append target source) fun _ => True := by
  unfold ProfileDetail.append ProfileDetail.add
  by_cases fits : target.length + source.length ≤ maximum64
  · rw [if_pos fits, ok_bind]
    split
    · exact .inr (.inr (.inl rfl))
    · trivial
  · rw [if_neg fits]
    exact .inl rfl

namespace SortProfileKey

theorem fcString_lawful (count : CountCode) : (fcString count).Lawful where
  reads := by
    intro out result literal retained bounded done
    obtain ⟨_, whole_bytes, done⟩ := bind_eq_ok.mp done
    refine ⟨count.bits literal.length, SortBitWriter.writeCount_ok done, fun rest position => ?_⟩
    simp only [fcString]
    rw [List.append_assoc, SortBitReader.readCount_reads count bounded, ok_bind]
    dsimp only
    rw [SortBitReader.takeBits_reads, ok_bind]
    dsimp only
    rw [require_true (require_eq_ok.mp whole_bytes), ok_bind, List.length_append, Nat.add_assoc]
  whole := by
    intro impossible
    cases impossible
  accepts := by
    intro key bits ordered out retained within _
    obtain ⟨rfl, -⟩ := SortString.stringBits_ok ordered
    have total : retained + ((SortString.bits key).length - retained) = 8 * key.length := by
      rw [Nat.add_sub_cancel' within, SortString.length_bits]
    simp only [fcString]
    rw [total, require_true (Nat.mul_mod_right 8 _), ok_bind]
    exact ProfileDetail.append_ensures _ _

theorem fcBit_lawful (count : CountCode) : (fcBit count).Lawful where
  reads := by
    intro out result literal retained bounded done
    refine ⟨count.bits literal.length, SortBitWriter.writeCount_ok done, fun rest position => ?_⟩
    simp only [fcBit]
    rw [List.append_assoc, SortBitReader.readCount_reads count bounded, ok_bind]
    dsimp only
    rw [SortBitReader.takeBits_reads, ok_bind, List.length_append, Nat.add_assoc]
  whole := by
    intro impossible
    cases impossible
  accepts := fun _ out _ _ _ => ProfileDetail.append_ensures _ _

theorem unsigned_lawful (width : Nat) : (unsigned width).Lawful where
  reads := by
    intro out result literal retained _ done
    obtain ⟨_, exact_width, framed⟩ := bind_eq_ok.mp done
    obtain ⟨none_retained, same⟩ := require_eq_ok.mp exact_width
    cases framed
    refine ⟨[], (List.append_nil _).symm, fun rest position => ?_⟩
    simp only [unsigned]
    rw [require_true none_retained, ok_bind, List.nil_append, ← same, SortBitReader.takeBits_reads,
      ok_bind, none_retained]
  whole := by
    intro _ out result retained suffixBits done
    obtain ⟨_, exact_width, -⟩ := bind_eq_ok.mp done
    exact (require_eq_ok.mp exact_width).1
  accepts := by
    intro key bits ordered out retained _ whole
    obtain ⟨-, -, rfl⟩ := SortBitWriter.writeBits_ok ordered
    have none_retained := whole rfl
    simp only [unsigned]
    rw [require_true ⟨none_retained, by simp [none_retained]⟩, ok_bind]
    trivial

theorem rawString_lawful (count : CountCode) : (rawString count).Lawful where
  reads := by
    intro out result literal retained bounded done
    obtain ⟨_, whole_bytes, framed⟩ := bind_eq_ok.mp done
    obtain ⟨none_retained, bytes⟩ := require_eq_ok.mp whole_bytes
    have product : literal.length / 8 * 8 = literal.length := by omega
    refine ⟨count.bits (literal.length / 8), SortBitWriter.writeCount_ok framed,
      fun rest position => ?_⟩
    simp only [rawString]
    rw [require_true none_retained, ok_bind, List.append_assoc,
      SortBitReader.readCount_reads count (by omega), ok_bind]
    dsimp only
    rw [ProfileDetail.multiply, product, if_pos bounded, ok_bind,
      SortBitReader.takeBits_reads, ok_bind, List.length_append, Nat.add_assoc, none_retained]
  whole := by
    intro _ out result retained suffixBits done
    obtain ⟨_, whole_bytes, -⟩ := bind_eq_ok.mp done
    exact (require_eq_ok.mp whole_bytes).1
  accepts := by
    intro key bits ordered out retained _ whole
    obtain ⟨rfl, -⟩ := SortString.stringBits_ok ordered
    have none_retained := whole rfl
    simp only [rawString]
    rw [require_true ⟨none_retained, by rw [none_retained, SortString.length_bits]; omega⟩, ok_bind]
    exact ProfileDetail.append_ensures _ _

end SortProfileKey

namespace SortProfileValue

theorem string_lawful (count : CountCode) : (string count).Lawful where
  consumes := by
    intro reader value after done
    obtain ⟨⟨bytes, middle⟩, size, done⟩ := bind_eq_ok.mp done
    obtain ⟨_, -, done⟩ := bind_eq_ok.mp done
    obtain ⟨⟨bits, last⟩, payload, done⟩ := bind_eq_ok.mp done
    cases done
    obtain ⟨first, first_split, first_reads⟩ := SortBitReader.readCount_consumes count _ _ _ size
    obtain ⟨second, second_split, second_reads⟩ := SortBitReader.takeBits_consumes _ _ _ _ payload
    have length : second.length = 8 * bytes := by
      obtain ⟨_, enough, same⟩ := bind_eq_ok.mp payload
      cases same
      have enough := require_eq_ok.mp enough
      have split := congrArg List.length second_split
      rw [List.length_append, List.length_drop] at split
      omega
    refine ⟨first ++ second, by rw [first_split, second_split, List.append_assoc],
      fun rest position => ?_⟩
    have enough : bytes ≤ (second ++ rest).length / 8 := by
      rw [List.length_append]
      omega
    simp only [string]
    rw [List.append_assoc, first_reads, ok_bind]
    dsimp only
    rw [require_true enough, ok_bind, second_reads, ok_bind, List.length_append, Nat.add_assoc]
  written := by
    intro value out result done
    obtain ⟨first, size, rest⟩ := bind_eq_ok.mp done
    obtain ⟨bits, coded, rest⟩ := bind_eq_ok.mp rest
    obtain ⟨rfl, bounded⟩ := SortString.stringBits_ok coded
    refine ⟨count.bits value.length ++ SortString.bits value, ?_, fun tail position => ?_⟩
    · rw [(ProfileDetail.append_ok rest).1, SortBitWriter.writeCount_ok size, List.append_assoc]
    · have taken := SortBitReader.takeBits_reads (SortString.bits value)
      have enough : value.length ≤ (SortString.bits value ++ tail).length / 8 := by
        rw [List.length_append, SortString.length_bits]
        omega
      rw [SortString.length_bits] at taken
      simp only [string]
      rw [List.append_assoc, SortBitReader.readCount_reads count (by omega), ok_bind]
      dsimp only
      rw [require_true enough, ok_bind, taken, ok_bind, List.length_append, Nat.add_assoc]

theorem bit_lawful (count : CountCode) : (bit count).Lawful where
  consumes := by
    have payload : ∀ size, Consumes fun reader => reader.takeBits size >>=
        fun found : BitString × SortBitReader =>
          (.ok ((), found.2) : Result (Unit × SortBitReader)) :=
      fun size => (SortBitReader.takeBits_consumes size).bind fun _ => .pure ()
    exact (SortBitReader.readCount_consumes count).bind payload
  written := by
    intro value out result done
    obtain ⟨first, size, rest⟩ := bind_eq_ok.mp done
    refine ⟨count.bits value.1.length ++ value.1, ?_, fun tail position => ?_⟩
    · rw [(ProfileDetail.append_ok rest).1, SortBitWriter.writeCount_ok size, List.append_assoc]
    · simp only [bit]
      rw [List.append_assoc, SortBitReader.readCount_reads count (value.2.trans (Nat.sub_le _ _)),
        ok_bind]
      dsimp only
      rw [SortBitReader.takeBits_reads, ok_bind, List.length_append, Nat.add_assoc]

theorem unsigned_lawful (width : Nat) : (unsigned width).Lawful where
  consumes := (SortBitReader.takeBits_consumes width).bind fun _ => .pure ()
  written := by
    intro value out result done
    obtain ⟨-, -, appended⟩ := SortBitWriter.writeBits_ok done
    refine ⟨BitField.toBits width value.toNat, appended, fun tail position => ?_⟩
    have taken := SortBitReader.takeBits_reads (BitField.toBits width value.toNat) tail position
    rw [BitField.length_toBits] at taken
    simp only [unsigned]
    rw [taken, ok_bind, BitField.length_toBits]

theorem tombstone_lawful {V : Type} {codec : ProfileValue V} (lawful : codec.Lawful) :
    (tombstone codec).Lawful where
  consumes := by
    have payload : ∀ present, Consumes fun reader =>
        if present ≠ 0 then codec.skip reader else .ok ((), reader) := by
      intro present
      by_cases live : present ≠ 0
      · simp only [if_pos live]
        exact lawful.consumes
      · simp only [if_neg live]
        exact .pure ()
    exact (SortBitReader.readBits_consumes 1).bind payload
  written := by
    intro value out result done
    cases value with
    | none =>
        obtain ⟨-, -, appended⟩ := SortBitWriter.writeBits_ok done
        refine ⟨BitField.toBits 1 0, appended, fun tail position => ?_⟩
        simp only [tombstone]
        rw [SortBitReader.readBits_reads (by decide), ok_bind]
        rfl
    | some value =>
        obtain ⟨next, present, rest⟩ := bind_eq_ok.mp done
        obtain ⟨-, -, appended⟩ := SortBitWriter.writeBits_ok present
        obtain ⟨bits, extended, reads⟩ := lawful.written rest
        refine ⟨BitField.toBits 1 1 ++ bits, ?_, fun tail position => ?_⟩
        · rw [extended, appended, List.append_assoc]
        · simp only [tombstone]
          rw [List.append_assoc, SortBitReader.readBits_reads (by decide), ok_bind]
          dsimp only
          rw [if_pos (by decide), reads, List.length_append, Nat.add_assoc]

theorem niche_lawful {V : Type} [DecidableEq V] {codec : ProfileValue V} (lawful : codec.Lawful)
    (sentinel : V) : (niche codec sentinel).Lawful where
  consumes := lawful.consumes
  written := by
    intro value out result done
    cases value with
    | none => exact lawful.written done
    | some value =>
        obtain ⟨_, -, rest⟩ := bind_eq_ok.mp done
        exact lawful.written rest

theorem none_lawful : none.Lawful where
  consumes := .pure ()
  written := by
    intro _ out result done
    cases done
    exact ⟨[], (List.append_nil out).symm, fun _ _ => rfl⟩

end SortProfileValue

end Everett

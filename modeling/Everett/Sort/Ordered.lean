import Everett.Sort.Codecs

/-!
# Ordered key codecs

An ordered encoding compares bit by bit as its keys do, and no encoding is a prefix of another one.
Strings escape their zero bytes, bit strings announce each bit, and unsigned integers are fields of
a fixed width.
-/

namespace Everett

open Outcome

/-- The ordered part of a key codec: `less`, `write_ordered` and `read_ordered`. -/
structure OrderedCodec (K : Type) where
  less : K → K → Bool
  write : K → BitString → Result BitString
  read : SortBitReader → Result (K × SortBitReader)

/-- A codec whose encodings are known bits: they are all it writes and all it accepts, and they are
ordered as the keys are. -/
structure OrderedCodec.Lawful {K : Type} (codec : OrderedCodec K) (valid : K → Prop)
    (code : K → BitString) : Prop where
  written : ∀ {key out result}, codec.write key out = .ok result →
    valid key ∧ result = out ++ code key
  complete : ∀ {key out}, valid key → out.length + (code key).length ≤ maximum64 - 7 →
    codec.write key out = .ok (out ++ code key)
  reads : ∀ {key}, valid key → Reads codec.read (code key) key
  accepted : ∀ {reader key rest}, codec.read reader = .ok (key, rest) →
    valid key ∧ reader.bits = code key ++ rest.bits
  ordered : ∀ {a b}, valid a → valid b →
    (compareBits (code a) (code b) = .lt ↔ codec.less a b = true)

/-- No encoding is a prefix of another one. -/
theorem OrderedCodec.Lawful.prefix_free {K : Type} {codec : OrderedCodec K} {valid : K → Prop}
    {code : K → BitString} (lawful : codec.Lawful valid code) {a b : K} (first : valid a)
    (second : valid b) (extends_code : code a <+: code b) : a = b := by
  obtain ⟨rest, whole⟩ := extends_code
  have one := lawful.reads first rest 0
  have two := lawful.reads second [] 0
  rw [List.append_nil, ← whole, one] at two
  exact (Prod.mk.inj (Except.ok.inj two)).1

/-! ## Fields -/

/-- Fields of one width are ordered as their numbers are. -/
theorem BitField.order_lt {v w : BitString} (size : v.length = w.length) :
    Word.order v w = .lt ↔ BitField.ofBits v < BitField.ofBits w := by
  induction v generalizing w with
  | nil =>
      obtain rfl := List.length_eq_zero_iff.mp size.symm
      simp [Word.order]
  | cons a v induction =>
      cases w with
      | nil => cases size
      | cons b w =>
          have tails : v.length = w.length := Nat.succ.inj size
          have left := BitField.ofBits_lt v
          have right := BitField.ofBits_lt w
          rw [← tails] at right
          rw [BitField.ofBits_cons, BitField.ofBits_cons, ← tails]
          by_cases heads : a = b
          · subst heads
            rw [Word.order, if_pos rfl, induction tails]
            omega
          · cases a <;> cases b
            · exact absurd rfl heads
            · simp [Word.order]
              omega
            · simp [Word.order]
              omega
            · exact absurd rfl heads

theorem SortBitWriter.writeBits_fits {out : BitString} {value width : Nat} (narrow : width ≤ 64)
    (small : value < 2 ^ width) (room : out.length + width ≤ maximum64 - 7) :
    SortBitWriter.writeBits out value width = .ok (out ++ BitField.toBits width value) := by
  have summed : out.length + width ≤ maximum64 := room.trans (Nat.sub_le _ _)
  rw [SortBitWriter.writeBits, require_true ⟨narrow, small⟩, ok_bind, ProfileDetail.append,
    BitField.length_toBits, ProfileDetail.add, if_pos summed, ok_bind, if_neg (Nat.not_lt.mpr room)]

/-- What a field was read from. -/
theorem SortBitReader.readBits_ok {reader rest : SortBitReader} {width value : Nat}
    (done : reader.readBits width = .ok (value, rest)) :
    reader.bits = BitField.toBits width value ++ rest.bits ∧ value < 2 ^ width := by
  obtain ⟨_, fits, last⟩ := bind_eq_ok.mp done
  have enough := (require_eq_ok.mp fits).2
  have length : (reader.bits.take width).length = width := List.length_take_of_le enough
  cases last
  have field := BitField.toBits_ofBits (reader.bits.take width)
  have small := BitField.ofBits_lt (reader.bits.take width)
  rw [length] at field small
  exact ⟨by rw [field, List.take_append_drop], small⟩

namespace SortCodec

/-! ## Strings -/

/-- The loop of `write_ordered`. -/
def escapeByte (out : BitString) (c : UInt8) : Result BitString := do
  let out ← SortBitWriter.writeBits out c.toNat 8
  if c = 0 then SortBitWriter.writeBits out 255 8 else .ok out

/-- The loop of `read_ordered`, for as many bytes as there can be. -/
def unescape : Nat → SortBitReader → List UInt8 → Result (List UInt8 × SortBitReader)
  | 0, _, _ => .error "truncated backspace remainder"
  | fuel + 1, reader, result => do
      let (c, reader) ← reader.readBits 8
      if c = 0 then do
        let (escape, reader) ← reader.readBits 8
        if escape = 0 then .ok (result, reader)
        else do
          require (escape = 255) "noncanonical string escape"
          unescape fuel reader (result ++ [UInt8.ofNat c])
      else unescape fuel reader (result ++ [UInt8.ofNat c])

/-- `ordered_string_key`. -/
def orderedString : OrderedCodec (List UInt8) where
  less a b := compareBits (SortString.bits a) (SortString.bits b) = .lt
  write value out := do
    let out ← value.foldlM escapeByte out
    SortBitWriter.writeBits out 0 16
  read reader := unescape (reader.bits.length + 1) reader []

/-- A byte, and the escape of a zero byte. -/
def escapeBits (c : UInt8) : BitString :=
  BitField.toBits 8 c.toNat ++ if c = 0 then BitField.toBits 8 255 else []

/-- The encoding of a string. -/
def stringCode (value : List UInt8) : BitString :=
  value.flatMap escapeBits ++ BitField.toBits 16 0

theorem escapeByte_ok {out result : BitString} {c : UInt8} (done : escapeByte out c = .ok result) :
    result = out ++ escapeBits c := by
  obtain ⟨next, first, rest⟩ := bind_eq_ok.mp done
  rw [escapeBits, ← List.append_assoc, ← (SortBitWriter.writeBits_ok first).2.2]
  split_ifs at rest ⊢
  · exact (SortBitWriter.writeBits_ok rest).2.2
  · cases rest
    exact (List.append_nil _).symm

theorem escapeByte_fits {out : BitString} {c : UInt8}
    (room : out.length + (escapeBits c).length ≤ maximum64 - 7) :
    escapeByte out c = .ok (out ++ escapeBits c) := by
  have byte : c.toNat < 2 ^ 8 := c.toNat_lt
  rw [escapeBits, List.length_append, BitField.length_toBits] at room
  rw [escapeByte, escapeBits, SortBitWriter.writeBits_fits (by decide) byte (by omega), ok_bind]
  split_ifs with zero
  · rw [if_pos zero, BitField.length_toBits] at room
    rw [SortBitWriter.writeBits_fits (by decide) (by decide), List.append_assoc]
    rw [List.length_append, BitField.length_toBits]
    omega
  · rw [List.append_nil]

theorem escape_ok {value : List UInt8} {out result : BitString}
    (done : value.foldlM escapeByte out = .ok result) :
    result = out ++ value.flatMap escapeBits := by
  induction value generalizing out with
  | nil =>
      cases done
      exact (List.append_nil _).symm
  | cons c value induction =>
      rw [List.foldlM_cons] at done
      obtain ⟨next, first, rest⟩ := bind_eq_ok.mp done
      rw [induction rest, escapeByte_ok first, List.flatMap_cons, List.append_assoc]

theorem escape_fits {value : List UInt8} {out : BitString}
    (room : out.length + (value.flatMap escapeBits).length ≤ maximum64 - 7) :
    value.foldlM escapeByte out = .ok (out ++ value.flatMap escapeBits) := by
  induction value generalizing out with
  | nil => exact congrArg Except.ok (List.append_nil out).symm
  | cons c value induction =>
      rw [List.flatMap_cons, List.length_append] at room
      rw [List.foldlM_cons, escapeByte_fits (by omega), ok_bind, induction, List.flatMap_cons,
        List.append_assoc]
      rw [List.length_append]
      omega

/-- The terminator stops the loop, and escaped bytes do not. -/
theorem unescape_reads (value : List UInt8) {fuel : Nat} (enough : value.length < fuel)
    (result : List UInt8) (rest : BitString) (position : Nat) :
    unescape fuel ⟨stringCode value ++ rest, position⟩ result =
      .ok (result ++ value, ⟨rest, position + (stringCode value).length⟩) := by
  have byte := @SortBitReader.readBits_reads 8 (by decide)
  induction value generalizing fuel result position with
  | nil =>
      obtain ⟨fuel, rfl⟩ := Nat.exists_eq_succ_of_ne_zero (Nat.ne_of_gt enough)
      have code : stringCode [] = BitField.toBits 8 0 ++ BitField.toBits 8 0 := by decide
      rw [unescape, code, List.append_assoc, byte, ok_bind]
      dsimp only
      rw [if_pos (by decide), byte, ok_bind]
      dsimp only
      rw [if_pos (by decide), List.append_nil]
      rfl
  | cons c value induction =>
      obtain ⟨fuel, rfl⟩ := Nat.exists_eq_succ_of_ne_zero (Nat.ne_of_gt (Nat.zero_lt_of_lt enough))
      have code : stringCode (c :: value) = escapeBits c ++ stringCode value := by
        rw [stringCode, List.flatMap_cons, List.append_assoc]
        rfl
      have small : c.toNat % 2 ^ 8 = c.toNat := Nat.mod_eq_of_lt c.toNat_lt
      have later := fun position => @induction fuel (by simpa using enough) (result ++ [c]) position
      rw [unescape, code, List.length_append]
      by_cases zero : c = 0
      · rw [escapeBits, if_pos zero, List.append_assoc, List.append_assoc, byte, ok_bind]
        dsimp only
        rw [if_pos (by rw [zero]; rfl), byte, ok_bind]
        dsimp only
        rw [if_neg (by decide), require_true (by decide), ok_bind, small, UInt8.ofNat_toNat, later,
          List.append_assoc, List.length_append]
        simp only [List.singleton_append, Nat.add_assoc]
      · have nonzero : c.toNat ≠ 0 := fun none_set => zero (UInt8.toNat_inj.mp none_set)
        rw [escapeBits, if_neg zero, List.append_nil, List.append_assoc, byte, ok_bind, small]
        dsimp only
        rw [if_neg nonzero, UInt8.ofNat_toNat, later, List.append_assoc]
        simp only [List.singleton_append, Nat.add_assoc]

/-- The loop accepts nothing but encodings. -/
theorem unescape_ok {fuel : Nat} {reader rest : SortBitReader} {result value : List UInt8}
    (done : unescape fuel reader result = .ok (value, rest)) :
    ∃ more, value = result ++ more ∧ reader.bits = stringCode more ++ rest.bits := by
  induction fuel generalizing reader result with
  | zero => cases done
  | succ fuel induction =>
      rw [unescape] at done
      obtain ⟨⟨c, next⟩, read, done⟩ := bind_eq_ok.mp done
      obtain ⟨bits, small⟩ := SortBitReader.readBits_ok read
      dsimp only at done
      have byte : (UInt8.ofNat c).toNat = c := UInt8.toNat_ofNat_of_lt' small
      have extend : ∀ {after : SortBitReader}, unescape fuel after (result ++ [UInt8.ofNat c]) =
          .ok (value, rest) → reader.bits = escapeBits (UInt8.ofNat c) ++ after.bits →
          ∃ more, value = result ++ more ∧ reader.bits = stringCode more ++ rest.bits := by
        intro after later whole
        obtain ⟨more, spelled, tail⟩ := induction later
        refine ⟨UInt8.ofNat c :: more, ?_, ?_⟩
        · rw [spelled, List.append_assoc, List.singleton_append]
        · rw [whole, tail, stringCode, stringCode, List.flatMap_cons, List.append_assoc,
            List.append_assoc, List.append_assoc]
      by_cases zero : c = 0
      · rw [if_pos zero] at done
        obtain ⟨⟨escape, after⟩, read_escape, done⟩ := bind_eq_ok.mp done
        obtain ⟨escape_bits, _⟩ := SortBitReader.readBits_ok read_escape
        dsimp only at done
        by_cases terminator : escape = 0
        · rw [if_pos terminator] at done
          cases done
          refine ⟨[], (List.append_nil _).symm, ?_⟩
          rw [bits, escape_bits, zero, terminator, ← List.append_assoc]
          rfl
        · rw [if_neg terminator] at done
          obtain ⟨_, escaped, later⟩ := bind_eq_ok.mp done
          refine extend later ?_
          rw [bits, escape_bits, escapeBits, byte, if_pos (by rw [zero]; rfl),
            require_eq_ok.mp escaped, List.append_assoc]
      · rw [if_neg zero] at done
        refine extend done ?_
        have nonzero : UInt8.ofNat c ≠ 0 := fun none_set => zero (by rw [← byte, none_set]; rfl)
        rw [bits, escapeBits, byte, if_neg nonzero, List.append_nil]

/-- A byte is behind the terminator of a string. -/
theorem order_terminator : ∀ c : UInt8, ∀ rest,
    Word.order (stringCode []) (escapeBits c ++ rest) = .lt := by
  intro c rest
  have terminator : stringCode [] = BitField.toBits 8 0 ++ BitField.toBits 8 0 := by decide
  have first : Word.order (BitField.toBits 8 0) (BitField.toBits 8 c.toNat) = .lt ∨ c = 0 := by
    rw [BitField.order_lt (by rw [BitField.length_toBits, BitField.length_toBits]),
      BitField.ofBits_toBits, BitField.ofBits_toBits_of_lt c.toNat_lt]
    rcases Nat.eq_zero_or_pos c.toNat with zero | positive
    · exact .inr (UInt8.toNat_inj.mp zero)
    · exact .inl positive
  have apart : ∀ {field : BitString}, field.length = 8 → ∀ rest,
      Word.order (BitField.toBits 8 0) field = .lt →
      Word.order (BitField.toBits 8 0 ++ BitField.toBits 8 0) (field ++ rest) = .lt := by
    intro field size rest less
    have different : BitField.toBits 8 0 ≠ field := by
      rintro rfl
      rw [Word.order_self] at less
      cases less
    rw [(Word.append_of_ne different (by rw [size]; rfl) _ rest).2, less]
  rw [terminator, escapeBits]
  by_cases zero : c = 0
  · rw [if_pos zero, zero, List.append_assoc]
    change Word.order (BitField.toBits 8 0 ++ _) (BitField.toBits 8 0 ++ _) = _
    rw [Word.order_append]
    have last := apart (BitField.length_toBits 8 255) rest (by decide)
    have field : BitField.toBits 8 0 ≠ BitField.toBits 8 255 := by decide
    have whole := Word.append_of_ne field (by decide) [] rest
    rw [List.append_nil] at whole
    rw [whole.2]
    decide
  · rw [if_neg zero, List.append_nil]
    exact apart (BitField.length_toBits 8 _) rest (first.resolve_right zero)

/-- Escaped strings are ordered as the strings are. -/
theorem order_stringCode (a b : List UInt8) :
    Word.order (stringCode a) (stringCode b) =
      Word.order (SortString.bits a) (SortString.bits b) := by
  have code : ∀ c value, stringCode (c :: value) = escapeBits c ++ stringCode value := by
    intro c value
    rw [stringCode, List.flatMap_cons, List.append_assoc]
    rfl
  have plain : ∀ c value, SortString.bits (c :: value) =
      BitField.toBits 8 c.toNat ++ SortString.bits value := fun c value => List.flatMap_cons
  have behind : ∀ (c : UInt8) value, Word.order [] (SortString.bits (c :: value)) = .lt :=
    fun c value => rfl
  have flip : ∀ {v w : BitString}, Word.order v w = .lt → Word.order w v = .gt := fun less =>
    Word.order_eq_gt.mpr (Word.order_eq_lt.mp less)
  induction a generalizing b with
  | nil =>
      cases b with
      | nil => rw [Word.order_self, Word.order_self]
      | cons d b => rw [code, order_terminator, ← behind d b]; rfl
  | cons c a induction =>
      cases b with
      | nil => rw [code, flip (order_terminator c _), ← flip (behind c a)]; rfl
      | cons d b =>
          by_cases heads : c = d
          · rw [heads, code, code, Word.order_append, induction, plain, plain, Word.order_append]
          · have different : BitField.toBits 8 c.toNat ≠ BitField.toBits 8 d.toNat := by
              intro same
              have numbers := congrArg BitField.ofBits same
              rw [BitField.ofBits_toBits_of_lt c.toNat_lt, BitField.ofBits_toBits_of_lt d.toNat_lt]
                at numbers
              exact heads (UInt8.toNat_inj.mp numbers)
            have size : (BitField.toBits 8 c.toNat).length = (BitField.toBits 8 d.toNat).length := by
              rw [BitField.length_toBits, BitField.length_toBits]
            rw [code, code, plain, plain, escapeBits, escapeBits, List.append_assoc,
              List.append_assoc, (Word.append_of_ne different size _ _).2,
              (Word.append_of_ne different size _ _).2]

theorem orderedString_lawful : orderedString.Lawful (fun _ => True) stringCode where
  written := by
    intro value out result written
    obtain ⟨next, bytes, last⟩ := bind_eq_ok.mp written
    refine ⟨trivial, ?_⟩
    rw [(SortBitWriter.writeBits_ok last).2.2, escape_ok bytes, stringCode, List.append_assoc]
  complete := by
    intro value out _ room
    rw [stringCode, List.length_append, BitField.length_toBits] at room
    change (value.foldlM escapeByte out >>= fun out => SortBitWriter.writeBits out 0 16) = _
    rw [escape_fits (by omega), ok_bind, SortBitWriter.writeBits_fits (by decide) (by decide),
      stringCode, List.append_assoc]
    rw [List.length_append]
    omega
  reads := by
    intro value _ rest position
    have short : value.length ≤ (value.flatMap escapeBits).length := by
      induction value with
      | nil => exact Nat.zero_le _
      | cons c value induction =>
          rw [List.flatMap_cons, List.length_append, escapeBits, List.length_append,
            BitField.length_toBits, List.length_cons]
          omega
    refine unescape_reads value ?_ [] rest position
    rw [stringCode, List.length_append, List.length_append]
    omega
  accepted := by
    intro reader value rest done
    obtain ⟨more, spelled, bits⟩ := unescape_ok done
    rw [List.nil_append] at spelled
    rw [spelled]
    exact ⟨trivial, bits⟩
  ordered := by
    intro a b _ _
    change Word.order _ _ = .lt ↔ decide (Word.order _ _ = .lt) = true
    rw [order_stringCode, decide_eq_true_iff]

/-! ## Bit strings -/

/-- The loop of `read_ordered`, for as many bits as there can be. -/
def announcedBits : Nat → SortBitReader → BitString → Result (BitString × SortBitReader)
  | 0, _, _ => .error "truncated backspace remainder"
  | fuel + 1, reader, out => do
      let (more, reader) ← reader.readBits 1
      if more = 0 then .ok (out, reader)
      else do
        let (bit, reader) ← reader.readBits 1
        let out ← SortBitWriter.writeBits out bit 1
        announcedBits fuel reader out

/-- The ordered part of `fc_bit_key`. -/
def orderedBits : OrderedCodec PackedBits where
  less a b := compareBits a.1 b.1 = .lt
  write value out := do
    let out ← value.1.foldlM (fun out bit => SortBitWriter.writeBits out (2 ||| bit.toNat) 2) out
    SortBitWriter.writeBits out 0 1
  read reader := do
    let (result, reader) ← announcedBits (reader.bits.length + 1) reader []
    if fits : result.length ≤ maximum64 - 7 then .ok (⟨result, fits⟩, reader)
    else .error "profile bit string too large"

/-- The encoding of a bit string. -/
def bitsCode (bits : BitString) : BitString := bits.flatMap (fun bit => [true, bit]) ++ [false]

theorem bitsCode_cons (bit : Bool) (bits : BitString) :
    bitsCode (bit :: bits) = true :: bit :: bitsCode bits := rfl

theorem announced_field (bit : Bool) : BitField.toBits 2 (2 ||| bit.toNat) = [true, bit] := by
  cases bit <;> rfl

theorem announce_ok {bits out result : BitString}
    (done : bits.foldlM (fun out bit => SortBitWriter.writeBits out (2 ||| bit.toNat) 2) out =
      .ok result) : result = out ++ bits.flatMap fun bit => [true, bit] := by
  induction bits generalizing out with
  | nil =>
      cases done
      exact (List.append_nil _).symm
  | cons bit bits induction =>
      rw [List.foldlM_cons] at done
      obtain ⟨next, first, rest⟩ := bind_eq_ok.mp done
      rw [induction rest, (SortBitWriter.writeBits_ok first).2.2, announced_field,
        List.flatMap_cons, List.append_assoc]

theorem announce_fits {bits out : BitString} (room : out.length + 2 * bits.length ≤ maximum64 - 7) :
    bits.foldlM (fun out bit => SortBitWriter.writeBits out (2 ||| bit.toNat) 2) out =
      .ok (out ++ bits.flatMap fun bit => [true, bit]) := by
  induction bits generalizing out with
  | nil => exact congrArg Except.ok (List.append_nil out).symm
  | cons bit bits induction =>
      have small : (2 ||| bit.toNat) < 2 ^ 2 := by cases bit <;> decide
      rw [List.length_cons] at room
      rw [List.foldlM_cons, SortBitWriter.writeBits_fits (by decide) small (by omega), ok_bind,
        announced_field, induction, List.flatMap_cons, List.append_assoc]
      rw [List.length_append, List.length_cons, List.length_singleton]
      omega

theorem length_bitsCode (bits : BitString) : (bitsCode bits).length = 2 * bits.length + 1 := by
  induction bits with
  | nil => rfl
  | cons bit bits induction =>
      rw [bitsCode_cons, List.length_cons, List.length_cons, induction, List.length_cons]
      omega

theorem readBits_bit (bit : Bool) (rest : BitString) (position : Nat) :
    SortBitReader.readBits 1 ⟨bit :: rest, position⟩ =
      .ok (bit.toNat, ⟨rest, position + 1⟩) := by
  have field : BitField.toBits 1 bit.toNat = [bit] := by cases bit <;> rfl
  have small : bit.toNat % 2 ^ 1 = bit.toNat := Nat.mod_eq_of_lt (Nat.lt_succ_of_le bit.toNat_le)
  have read := SortBitReader.readBits_reads (show 1 ≤ 64 by decide) bit.toNat rest position
  rwa [field, small] at read

/-- The bits which are announced are read back. -/
theorem announcedBits_reads (bits : BitString) {fuel : Nat} (enough : bits.length < fuel)
    (out : BitString) (room : out.length + bits.length ≤ maximum64 - 7) (rest : BitString)
    (position : Nat) :
    announcedBits fuel ⟨bitsCode bits ++ rest, position⟩ out =
      .ok (out ++ bits, ⟨rest, position + (bitsCode bits).length⟩) := by
  induction bits generalizing fuel out position with
  | nil =>
      obtain ⟨fuel, rfl⟩ := Nat.exists_eq_succ_of_ne_zero (Nat.ne_of_gt enough)
      change announcedBits (fuel + 1) ⟨false :: rest, position⟩ out = _
      rw [announcedBits, readBits_bit, ok_bind, List.append_nil]
      rfl
  | cons bit bits induction =>
      obtain ⟨fuel, rfl⟩ := Nat.exists_eq_succ_of_ne_zero (Nat.ne_of_gt (Nat.zero_lt_of_lt enough))
      rw [List.length_cons] at enough room
      have field : BitField.toBits 1 bit.toNat = [bit] := by cases bit <;> rfl
      have small : bit.toNat < 2 ^ 1 := Nat.lt_succ_of_le bit.toNat_le
      have later := @induction fuel (by omega) (out ++ [bit]) (by
        rw [List.length_append, List.length_singleton]
        omega) (position + 1 + 1)
      rw [bitsCode_cons, List.cons_append, List.cons_append, announcedBits, readBits_bit, ok_bind]
      dsimp only
      rw [if_neg (by decide), readBits_bit, ok_bind]
      dsimp only
      rw [SortBitWriter.writeBits_fits (by decide) small (by omega), ok_bind, field, later,
        List.append_assoc, List.singleton_append, List.length_cons, List.length_cons]
      simp only [Nat.add_assoc, Nat.add_comm, Nat.add_left_comm]

/-- The loop accepts nothing but encodings. -/
theorem announcedBits_ok {fuel : Nat} {reader rest : SortBitReader} {out result : BitString}
    (done : announcedBits fuel reader out = .ok (result, rest)) :
    ∃ more, result = out ++ more ∧ reader.bits = bitsCode more ++ rest.bits := by
  have one : ∀ {n : Nat}, n < 2 ^ 1 → n ≠ 0 → n = 1 := by omega
  induction fuel generalizing reader out with
  | zero => cases done
  | succ fuel induction =>
      rw [announcedBits] at done
      obtain ⟨⟨more, next⟩, read, done⟩ := bind_eq_ok.mp done
      obtain ⟨bits, small⟩ := SortBitReader.readBits_ok read
      dsimp only at done
      by_cases terminator : more = 0
      · rw [if_pos terminator] at done
        cases done
        refine ⟨[], (List.append_nil _).symm, ?_⟩
        rw [bits, terminator]
        rfl
      · rw [if_neg terminator] at done
        obtain ⟨⟨bit, after⟩, read_bit, done⟩ := bind_eq_ok.mp done
        obtain ⟨next_bits, _⟩ := SortBitReader.readBits_ok read_bit
        obtain ⟨extended, written, later⟩ := bind_eq_ok.mp done
        obtain ⟨tail, spelled, tail_bits⟩ := induction later
        have single : BitField.toBits 1 bit = [bit.testBit 0] := rfl
        refine ⟨bit.testBit 0 :: tail, ?_, ?_⟩
        · rw [spelled, (SortBitWriter.writeBits_ok written).2.2, single, List.append_assoc]
          rfl
        · rw [bits, next_bits, tail_bits, one small terminator, single]
          rfl

theorem order_bitsCode (a b : BitString) :
    Word.order (bitsCode a) (bitsCode b) = Word.order a b := by
  induction a generalizing b with
  | nil => cases b <;> rfl
  | cons x a induction =>
      cases b with
      | nil => rfl
      | cons y b =>
          rw [bitsCode_cons, bitsCode_cons, Word.order, if_pos rfl, Word.order, Word.order,
            induction]

theorem orderedBits_lawful :
    orderedBits.Lawful (fun _ => True) fun bits => bitsCode bits.1 where
  written := by
    intro value out result written
    obtain ⟨next, bits, last⟩ := bind_eq_ok.mp written
    refine ⟨trivial, ?_⟩
    rw [(SortBitWriter.writeBits_ok last).2.2, announce_ok bits, bitsCode, List.append_assoc]
    rfl
  complete := by
    intro value out _ room
    have length : (value.1.flatMap fun bit => [true, bit]).length + 1 = 2 * value.1.length + 1 := by
      rw [← length_bitsCode, bitsCode, List.length_append, List.length_singleton]
    rw [length_bitsCode] at room
    change (value.1.foldlM (fun out bit => SortBitWriter.writeBits out (2 ||| bit.toNat) 2) out >>=
      fun out => SortBitWriter.writeBits out 0 1) = _
    rw [announce_fits (by omega), ok_bind, SortBitWriter.writeBits_fits (by decide) (by decide),
      bitsCode, List.append_assoc]
    · rfl
    · rw [List.length_append]
      omega
  reads := by
    intro value _ rest position
    have enough : value.1.length < (bitsCode value.1 ++ rest).length + 1 := by
      rw [List.length_append, length_bitsCode]
      omega
    have room : ([] : BitString).length + value.1.length ≤ maximum64 - 7 := by
      rw [List.length_nil, Nat.zero_add]
      exact value.2
    simp only [orderedBits]
    rw [announcedBits_reads value.1 enough [] room, ok_bind]
    dsimp only
    exact dif_pos value.2
  accepted := by
    intro reader value rest done
    obtain ⟨⟨result, next⟩, read, last⟩ := bind_eq_ok.mp done
    obtain ⟨more, spelled, bits⟩ := announcedBits_ok read
    dsimp only at last
    split_ifs at last with fits
    cases last
    rw [List.nil_append] at spelled
    exact ⟨trivial, by rw [bits, ← spelled]⟩
  ordered := by
    intro a b _ _
    change Word.order _ _ = .lt ↔ decide (Word.order _ _ = .lt) = true
    rw [order_bitsCode, decide_eq_true_iff]

/-! ## Unsigned integers -/

/-- The ordered part of `unsigned_key`. -/
def orderedUnsigned (width : Nat) : OrderedCodec UInt64 where
  less a b := a < b
  write key out := (unsignedKey width).write key none out
  read reader := (unsignedKey width).read none reader

theorem orderedUnsigned_lawful {width : Nat} (narrow : width ≤ 64) :
    (orderedUnsigned width).Lawful (fun key => key.toNat < 2 ^ width)
      fun key => BitField.toBits width key.toNat where
  written := by
    intro key out result written
    obtain ⟨_, small, appended⟩ := SortBitWriter.writeBits_ok written
    exact ⟨small, appended⟩
  complete := by
    intro key out small room
    rw [BitField.length_toBits] at room
    exact SortBitWriter.writeBits_fits narrow small room
  reads := by
    intro key small rest position
    have read := SortBitReader.readBits_reads narrow key.toNat rest position
    change (SortBitReader.readBits width _ >>= fun (value, reader) =>
      .ok (UInt64.ofNat value, reader)) = _
    rw [read, ok_bind, Nat.mod_eq_of_lt small]
    dsimp only
    rw [UInt64.ofNat_toNat]
  accepted := by
    intro reader key rest done
    obtain ⟨⟨value, next⟩, read, last⟩ := bind_eq_ok.mp done
    obtain ⟨bits, small⟩ := SortBitReader.readBits_ok read
    cases last
    have bounded : value < 2 ^ 64 :=
      small.trans_le (Nat.pow_le_pow_right (by decide) narrow)
    have number : (UInt64.ofNat value).toNat = value := UInt64.toNat_ofNat_of_lt' bounded
    rw [number]
    exact ⟨small, bits⟩
  ordered := by
    intro a b first second
    change Word.order _ _ = .lt ↔ decide (a < b) = true
    rw [BitField.order_lt (by rw [BitField.length_toBits, BitField.length_toBits]),
      BitField.ofBits_toBits_of_lt first, BitField.ofBits_toBits_of_lt second, decide_eq_true_iff]
    exact UInt64.lt_iff_toNat_lt.symm

end SortCodec

end Everett

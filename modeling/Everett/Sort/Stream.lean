import Everett.Library.BitField
import Everett.Policy

/-!
# Bit streams of sort records

A writer appends to a bit string, and a reader consumes one from the front.  The reservoir of the
reader only caches the bits at its position.  Counts are written in an exponential-Golomb or a
Golomb code.
-/

namespace Everett

open Outcome

/-- A code of counts within its static bounds. -/
structure CountCode where
  code : BitBackspaceCode
  valid : match code with
    | .exponentialGolomb order => order ≤ 63
    | .golomb modulus => 0 < modulus ∧ modulus ≤ maximum64

namespace CountCode

/-- The order zero is within the static bound. -/
theorem order_zero_le : 0 ≤ 63 := Nat.zero_le 63

/-- Bits of an exponential-Golomb code of order zero. -/
def exponentialBits (quotient : Nat) : BitString :=
  if quotient = maximum64 then List.replicate 64 false ++ true :: List.replicate 64 false
  else List.replicate ((quotient + 1).size - 1) false ++
    BitField.toBits (quotient + 1).size (quotient + 1)

/-- Width of a long Golomb remainder. -/
def golombWidth (modulus : Nat) : Nat := (modulus - 1).size

/-- `golomb_cutoff`. -/
def golombCutoff (modulus : Nat) : Nat := 2 ^ golombWidth modulus - modulus

/-- Bits of a Golomb remainder. -/
def remainderBits (modulus remainder : Nat) : BitString :=
  if remainder < golombCutoff modulus then BitField.toBits (golombWidth modulus - 1) remainder
  else BitField.toBits (golombWidth modulus) (remainder + golombCutoff modulus)

/-- What `write_backspace` appends for a count. -/
def bits (count : CountCode) (value : Nat) : BitString :=
  match count.code with
  | .exponentialGolomb order => exponentialBits (value / 2 ^ order) ++ BitField.toBits order value
  | .golomb modulus => List.replicate (value / modulus) false ++
      true :: remainderBits modulus (value % modulus)

end CountCode

/-! ## Writing -/

namespace SortBitWriter

/-- `write_bits`. -/
def writeBits (out : BitString) (value width : Nat) : Result BitString := do
  require (width ≤ 64 ∧ value < 2 ^ width) "value exceeds bit field"
  ProfileDetail.append out (BitField.toBits width value)

/-- `write_count`. -/
def writeCount (count : CountCode) (out : BitString) (value : Nat) : Result BitString :=
  ProfileDetail.append out (count.bits value)

theorem writeBits_ok {out result : BitString} {value width : Nat}
    (written : writeBits out value width = .ok result) :
    width ≤ 64 ∧ value < 2 ^ width ∧ result = out ++ BitField.toBits width value := by
  obtain ⟨_, fits, appended⟩ := bind_eq_ok.mp written
  exact ⟨(require_eq_ok.mp fits).1, (require_eq_ok.mp fits).2, (ProfileDetail.append_ok appended).1⟩

end SortBitWriter

/-! ## Reading -/

/-- `sort_bit_reader`: the bits at its position. -/
structure SortBitReader where
  bits : BitString
  position : Nat
  deriving DecidableEq

/-- Count zeros up to a limit, and drop the one after them. -/
def zeroRun (limit : Nat) (truncated overflow : String) : Nat → BitString → Result (Nat × BitString)
  | _, [] => .error truncated
  | zeros, true :: rest => .ok (zeros, rest)
  | zeros, false :: rest =>
      if zeros = limit then .error overflow else zeroRun limit truncated overflow (zeros + 1) rest

namespace SortBitReader

/-- `empty`. -/
def empty (reader : SortBitReader) : Bool := reader.bits.isEmpty

/-- `read_bits`. -/
def readBits (width : Nat) (reader : SortBitReader) : Result (Nat × SortBitReader) := do
  require (width ≤ 64 ∧ width ≤ reader.bits.length) "truncated backspace remainder"
  .ok (BitField.ofBits (reader.bits.take width),
    ⟨reader.bits.drop width, reader.position + width⟩)

/-- `take_bits`. -/
def takeBits (count : Nat) (reader : SortBitReader) : Result (BitString × SortBitReader) := do
  require (count ≤ reader.bits.length) "truncated sort payload"
  .ok (reader.bits.take count, ⟨reader.bits.drop count, reader.position + count⟩)

/-- `read_zero_run`. -/
def readZeroRun (limit : Nat) (truncated overflow : String) (reader : SortBitReader) :
    Result (Nat × SortBitReader) := do
  let (zeros, rest) ← zeroRun limit truncated overflow 0 reader.bits
  .ok (zeros, ⟨rest, reader.position + (zeros + 1)⟩)

/-- `read_exponential`. -/
def readExponential (reader : SortBitReader) : Result (Nat × SortBitReader) := do
  let (zeros, reader) ← reader.readZeroRun 64 "truncated exponential-Golomb count"
    "overflowing exponential-Golomb count"
  require (zeros ≤ reader.bits.length) "truncated exponential-Golomb count"
  let (suffix, reader) ← reader.readBits zeros
  if zeros = 64 then do
    require (suffix = 0) "overflowing exponential-Golomb count"
    .ok (maximum64, reader)
  else .ok (2 ^ zeros - 1 + suffix, reader)

/-- The remainder of a Golomb code. -/
def readRemainder (modulus : Nat) (reader : SortBitReader) : Result (Nat × SortBitReader) :=
  if CountCode.golombWidth modulus = 0 then .ok (0, reader)
  else do
    let (remainder, reader) ← reader.readBits (CountCode.golombWidth modulus - 1)
    if CountCode.golombCutoff modulus ≤ remainder then do
      let (bit, reader) ← reader.readBits 1
      .ok (2 * remainder + bit - CountCode.golombCutoff modulus, reader)
    else .ok (remainder, reader)

/-- `read_count`. -/
def readCount (count : CountCode) (reader : SortBitReader) : Result (Nat × SortBitReader) :=
  match count.code with
  | .exponentialGolomb order => do
      let (quotient, reader) ← reader.readExponential
      require (quotient ≤ maximum64 / 2 ^ order) "overflowing exponential-Golomb backspace"
      let (remainder, reader) ← reader.readBits order
      .ok (quotient * 2 ^ order + remainder, reader)
  | .golomb modulus => do
      let (quotient, reader) ← reader.readZeroRun (maximum64 / modulus)
        "truncated backspace remainder" "overflowing Golomb quotient"
      let (remainder, reader) ← reader.readRemainder modulus
      require (remainder ≤ maximum64 - quotient * modulus) "overflowing Golomb backspace"
      .ok (quotient * modulus + remainder, reader)

end SortBitReader

/-- A reader takes exactly some bits for a value, whatever follows them. -/
def Reads {α : Type} (read : SortBitReader → Result (α × SortBitReader)) (bits : BitString)
    (value : α) : Prop :=
  ∀ rest position, read ⟨bits ++ rest, position⟩ =
    .ok (value, ⟨rest, position + bits.length⟩)

namespace SortBitReader

theorem readBits_reads {width : Nat} (narrow : width ≤ 64) (n : Nat) :
    Reads (readBits width) (BitField.toBits width n) (n % 2 ^ width) := by
  intro rest position
  have length := BitField.length_toBits width n
  have enough : width ≤ (BitField.toBits width n ++ rest).length := by
    rw [List.length_append, length]
    exact Nat.le_add_right _ _
  simp only [readBits]
  rw [require_true ⟨narrow, enough⟩, ok_bind, List.take_left' length, List.drop_left' length,
    BitField.ofBits_toBits, length]

theorem takeBits_reads (bits : BitString) :
    Reads (takeBits bits.length) bits bits := by
  intro rest position
  simp only [takeBits]
  rw [require_true (by simp), ok_bind, List.take_left, List.drop_left]

theorem zeroRun_replicate {limit : Nat} (truncated overflow : String) (more zeros : Nat)
    (within : zeros + more ≤ limit) (rest : BitString) :
    zeroRun limit truncated overflow zeros (List.replicate more false ++ true :: rest) =
      .ok (zeros + more, rest) := by
  induction more generalizing zeros with
  | zero => rfl
  | succ more induction =>
      rw [List.replicate_succ, List.cons_append, zeroRun, if_neg (by omega),
        induction (zeros + 1) (by omega), Nat.add_right_comm, Nat.add_assoc]

theorem readZeroRun_reads {limit zeros : Nat} (truncated overflow : String) (within : zeros ≤ limit) :
    Reads (readZeroRun limit truncated overflow)
      (List.replicate zeros false ++ [true]) zeros := by
  intro rest position
  simp only [readZeroRun, List.append_assoc, List.singleton_append]
  rw [zeroRun_replicate truncated overflow zeros 0 (by omega), ok_bind, Nat.zero_add,
    List.length_append, List.length_replicate, List.length_singleton]

/-- A run of zeros before a field of as many bits. -/
theorem readExponential_run {zeros : Nat} (within : zeros ≤ 64) (n : Nat) {quotient : Nat}
    (value : if zeros = 64 then n % 2 ^ zeros = 0 ∧ quotient = maximum64
      else quotient = 2 ^ zeros - 1 + n % 2 ^ zeros) :
    Reads readExponential (List.replicate zeros false ++ [true] ++ BitField.toBits zeros n)
      quotient := by
  intro rest position
  have run := readZeroRun_reads "truncated exponential-Golomb count"
    "overflowing exponential-Golomb count" within
  have enough : zeros ≤ (BitField.toBits zeros n ++ rest).length := by
    rw [List.length_append, BitField.length_toBits]
    exact Nat.le_add_right _ _
  rw [List.append_assoc, readExponential, run, ok_bind]
  dsimp only
  rw [require_true enough, ok_bind, readBits_reads within, ok_bind]
  dsimp only
  rw [@List.length_append _ _ (BitField.toBits zeros n), ← Nat.add_assoc]
  split_ifs at value ⊢
  · rw [require_true value.1, ok_bind, value.2]
  · rw [value]

theorem readExponential_reads {quotient : Nat} (bounded : quotient ≤ maximum64) :
    Reads readExponential (CountCode.exponentialBits quotient) quotient := by
  rcases bounded.lt_or_eq with small | rfl
  · obtain ⟨zeros, size⟩ := Nat.exists_eq_succ_of_ne_zero
      (Nat.size_pos.mpr (Nat.succ_pos quotient)).ne'
    rw [Nat.succ_eq_add_one] at size
    have below := Nat.lt_size_self (quotient + 1)
    have above : 2 ^ zeros ≤ quotient + 1 := Nat.lt_size.mp (by omega)
    have upper : (quotient + 1).size ≤ 64 := Nat.size_le.mpr (by unfold maximum64 at small; omega)
    have bits : CountCode.exponentialBits quotient =
        List.replicate zeros false ++ [true] ++ BitField.toBits zeros (quotient + 1) := by
      rw [CountCode.exponentialBits, if_neg small.ne, BitField.toBits_size (n := quotient + 1) (by omega),
        size, Nat.succ_sub_one, List.append_assoc, List.singleton_append]
    have field : (quotient + 1) % 2 ^ zeros = quotient + 1 - 2 ^ zeros := by
      rw [Nat.mod_eq_sub_mod above, Nat.mod_eq_of_lt]
      rw [size, Nat.pow_succ] at below
      omega
    have positive : 0 < 2 ^ zeros := Nat.two_pow_pos zeros
    rw [bits]
    refine readExponential_run (by omega) _ ?_
    rw [if_neg (by omega), field]
    omega
  · have bits : CountCode.exponentialBits maximum64 =
        List.replicate 64 false ++ [true] ++ BitField.toBits 64 0 := by
      rw [CountCode.exponentialBits, if_pos rfl]
      decide
    rw [bits]
    exact readExponential_run le_rfl 0 ⟨rfl, rfl⟩

/-- A modulus lies between two powers of two. -/
theorem golombWidth_bounds {modulus : Nat} (large : 2 ≤ modulus) :
    0 < CountCode.golombWidth modulus ∧ modulus ≤ 2 ^ CountCode.golombWidth modulus ∧
      2 ^ CountCode.golombWidth modulus < 2 * modulus := by
  have positive : 0 < (modulus - 1).size := Nat.size_pos.mpr (by omega)
  have below := Nat.lt_size_self (modulus - 1)
  have above : 2 ^ ((modulus - 1).size - 1) ≤ modulus - 1 := Nat.lt_size.mp (by omega)
  have double : 2 ^ (modulus - 1).size = 2 * 2 ^ ((modulus - 1).size - 1) := by
    rw [← Nat.pow_succ', Nat.succ_eq_add_one, Nat.sub_add_cancel positive]
  unfold CountCode.golombWidth
  omega

theorem readRemainder_reads {modulus remainder : Nat} (bounded : modulus ≤ maximum64)
    (less : remainder < modulus) :
    Reads (readRemainder modulus)
      (CountCode.remainderBits modulus remainder) remainder := by
  intro rest position
  rcases Nat.lt_or_ge modulus 2 with one | large
  · have only : modulus = 1 := by omega
    have none_left : remainder = 0 := by omega
    subst only none_left
    rfl
  obtain ⟨positive, upper, lower⟩ := golombWidth_bounds large
  have narrow : CountCode.golombWidth modulus ≤ 64 := Nat.size_le.mpr (by
    unfold maximum64 at bounded
    omega)
  have double : 2 ^ CountCode.golombWidth modulus =
      2 * 2 ^ (CountCode.golombWidth modulus - 1) := by
    rw [← Nat.pow_succ', Nat.succ_eq_add_one, Nat.sub_add_cancel positive]
  have cutoff := CountCode.golombCutoff.eq_1 modulus
  simp only [readRemainder]
  rw [if_neg positive.ne', CountCode.remainderBits]
  split_ifs with short
  · have field : remainder % 2 ^ (CountCode.golombWidth modulus - 1) = remainder :=
      Nat.mod_eq_of_lt (by omega)
    rw [readBits_reads (by omega), ok_bind, field]
    dsimp only
    rw [if_neg (by omega)]
  · have split := BitField.toBits_eq_append 1 (CountCode.golombWidth modulus - 1)
      (remainder + CountCode.golombCutoff modulus)
    rw [Nat.sub_add_cancel positive, pow_one] at split
    have field : (remainder + CountCode.golombCutoff modulus) / 2 %
        2 ^ (CountCode.golombWidth modulus - 1) =
          (remainder + CountCode.golombCutoff modulus) / 2 := Nat.mod_eq_of_lt (by omega)
    rw [split, List.append_assoc, readBits_reads (by omega), ok_bind, field]
    dsimp only
    rw [if_pos (by omega), readBits_reads (by omega), ok_bind]
    have bit := Nat.div_add_mod (remainder + CountCode.golombCutoff modulus) 2
    rw [pow_one, List.length_append, Nat.add_assoc]
    dsimp only
    congr 2
    omega

/-- Every count is read back from its code. -/
theorem readCount_reads (count : CountCode) {value : Nat} (bounded : value ≤ maximum64) :
    Reads (readCount count) (count.bits value) value := by
  intro rest position
  obtain ⟨code, valid⟩ := count
  cases code with
  | exponentialGolomb order =>
      have quotient : value / 2 ^ order ≤ maximum64 / 2 ^ order := Nat.div_le_div_right bounded
      have narrow : order ≤ 64 := Nat.le_succ_of_le valid
      have small := (Nat.div_le_self value (2 ^ order)).trans bounded
      simp only [readCount, CountCode.bits]
      rw [List.append_assoc, readExponential_reads small, ok_bind]
      dsimp only
      rw [require_true quotient, ok_bind, readBits_reads narrow, ok_bind]
      dsimp only
      rw [List.length_append, ← Nat.add_assoc, Nat.div_add_mod']
  | golomb modulus =>
      have within : value / modulus ≤ maximum64 / modulus := Nat.div_le_div_right bounded
      have product := Nat.div_add_mod' value modulus
      simp only [readCount, CountCode.bits]
      rw [← List.singleton_append, ← List.append_assoc, List.append_assoc,
        readZeroRun_reads _ _ within, ok_bind]
      dsimp only
      rw [readRemainder_reads valid.2 (Nat.mod_lt value valid.1), ok_bind]
      dsimp only
      rw [require_true (by omega), ok_bind, product,
        @List.length_append _ _ (CountCode.remainderBits modulus (value % modulus)),
        ← Nat.add_assoc]

/-- A count takes at least one bit. -/
theorem bits_ne_nil (count : CountCode) (value : Nat) : count.bits value ≠ [] := by
  unfold CountCode.bits
  split
  · refine fun none_left => ?_
    have exponential := (List.append_eq_nil_iff.mp none_left).1
    unfold CountCode.exponentialBits at exponential
    split_ifs at exponential
    · simp at exponential
    · rw [BitField.toBits_size (Nat.succ_pos _)] at exponential
      simp at exponential
  · simp

end SortBitReader

end Everett

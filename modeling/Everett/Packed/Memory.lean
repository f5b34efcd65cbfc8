import Everett.Bits
import Everett.Library.BigEndian

/-!
# Memory

Bytes have addresses, and spans may overlap.  No byte is read or written outside of its span.  Words
go through the byte order of the machine, but are always most significant byte first in memory.
-/

namespace Everett

open Outcome BitWords BigEndian

/-- Bytes by address. -/
abbrev Memory := ℕ → BitVec 8

/-- `std::span` of bytes. -/
structure ByteSpan where
  data : ℕ
  size : ℕ

/-- `std::endian::native`; a machine may have another order of bytes than these. -/
inductive Endian
  | little
  | big
  | other

namespace ByteSpan

/-- A byte of a span. -/
def read (span : ByteSpan) (memory : Memory) (i : ℕ) : Result (BitVec 8) :=
  if i < span.size then .ok (memory (span.data + i)) else .error "read outside of a span"

/-- Some bytes of a span. -/
def window (span : ByteSpan) (memory : Memory) (i count : ℕ) : Result (ℕ → BitVec 8) :=
  if i + count ≤ span.size then .ok fun k => memory (span.data + i + k)
  else .error "read outside of a span"

/-- Replace a byte of a span. -/
def write (span : ByteSpan) (memory : Memory) (i : ℕ) (byte : BitVec 8) : Result Memory :=
  if i < span.size then .ok (Function.update memory (span.data + i) byte)
  else .error "write outside of a span"

/-- Replace some bytes of a span. -/
def overwrite (span : ByteSpan) (memory : Memory) (i count : ℕ) (bytes : ℕ → BitVec 8) :
    Result Memory :=
  if i + count ≤ span.size then
    .ok fun k => if span.data + i ≤ k ∧ k < span.data + i + count then bytes (k - (span.data + i))
      else memory k
  else .error "write outside of a span"

/-- `std::memmove`. -/
def memmove (target : ByteSpan) (memory : Memory) (i : ℕ) (source : ByteSpan) (j count : ℕ) :
    Result Memory := do
  let bytes ← source.window memory j count
  target.overwrite memory i count bytes

variable {span target : ByteSpan} {i j count : ℕ} (memory : Memory)

theorem read_ok (inside : i < span.size) : span.read memory i = .ok (memory (span.data + i)) :=
  if_pos inside

theorem window_ok (inside : i + count ≤ span.size) :
    span.window memory i count = .ok fun k => memory (span.data + i + k) :=
  if_pos inside

theorem overwrite_ok (inside : i + count ≤ span.size) (bytes : ℕ → BitVec 8) :
    ∃ after, span.overwrite memory i count bytes = .ok after ∧
      Puts memory after (8 * (span.data + i)) (8 * count) (bitOf bytes) :=
  ⟨_, if_pos inside, .whole_bytes memory _ _ bytes⟩

/-- Bytes are moved as they were, also onto themselves. -/
theorem memmove_ok (target_fits : i + count ≤ target.size) (source_fits : j + count ≤ span.size) :
    ∃ after, target.memmove memory i span j count = .ok after ∧
      Puts memory after (8 * (target.data + i)) (8 * count)
        fun k => bitOf memory (8 * (span.data + j) + k) := by
  obtain ⟨after, written, puts⟩ := overwrite_ok memory target_fits
    fun k => memory (span.data + j + k)
  refine ⟨after, ?_, puts.congr fun k _ => bitOf_shift memory _ k⟩
  rw [memmove, window_ok memory source_fits, ok_bind, written]

end ByteSpan

/-! ## Words -/

namespace KeyDetail

/-- `reverse_bytes`. -/
def reverseBytes (x : BitVec 64) : BitVec 64 :=
  let x := ((x &&& 0x00ff00ff00ff00ff#64) <<< 8) ||| ((x >>> 8) &&& 0x00ff00ff00ff00ff#64)
  let x := ((x &&& 0x0000ffff0000ffff#64) <<< 16) ||| ((x >>> 16) &&& 0x0000ffff0000ffff#64)
  (x <<< 32) ||| (x >>> 32)

/-- The word which `std::memcpy` makes of eight bytes on a little-endian machine. -/
def littleEndian (bytes : ℕ → BitVec 8) : BitVec 64 :=
  (List.range 8).foldl (fun value i => value ||| (bytes i).setWidth 64 <<< (8 * i)) 0#64

/-- `load_big`: other machines load single bytes. -/
def loadBig (native : Endian) (span : ByteSpan) (memory : Memory) (i : ℕ) :
    Result (BitVec 64) := do
  let bytes ← span.window memory i 8
  .ok (match native with
    | .little => reverseBytes (littleEndian bytes)
    | .big => bigEndian bytes 8
    | .other => bigEndian bytes 8)

/-- `store_big`: other machines store single bytes. -/
def storeBig (native : Endian) (target : ByteSpan) (memory : Memory) (i : ℕ) (value : BitVec 64) :
    Result Memory :=
  target.overwrite memory i 8 fun k => match native with
    | .little => (reverseBytes value >>> (8 * k)).setWidth 8
    | .big => (value >>> (56 - 8 * k)).setWidth 8
    | .other => (value >>> (56 - 8 * k)).setWidth 8

/-- Neighbouring groups of bits are swapped. -/
theorem getLsbD_swap {x mask : BitVec 64} {k i : ℕ} (low : ℕ → Prop) [DecidablePred low]
    (masked : ∀ i < 64, mask.getLsbD i = decide (low i)) (bottom : ∀ i < k, low i)
    (shifts : ∀ i, k ≤ i → (low (i - k) ↔ ¬ low i)) (small : i < 64) :
    (((x &&& mask) <<< k) ||| ((x >>> k) &&& mask)).getLsbD i =
      x.getLsbD (if low i then k + i else i - k) := by
  rw [BitVec.getLsbD_or, BitVec.getLsbD_shiftLeft, BitVec.getLsbD_and, BitVec.getLsbD_and,
    BitVec.getLsbD_ushiftRight, masked i small, masked (i - k) (by omega), decide_eq_true small,
    Bool.true_and]
  by_cases first : low i
  · rw [if_pos first, decide_eq_true first, Bool.and_true]
    by_cases front : i < k
    · rw [decide_eq_true front, Bool.not_true, Bool.false_and, Bool.false_or]
    · have not_low : ¬ low (i - k) := fun here => (shifts i (by omega)).mp here first
      rw [decide_eq_false not_low, Bool.and_false, Bool.and_false, Bool.false_or]
  · have behind : k ≤ i := Nat.not_lt.mp fun front => first (bottom i front)
    have low_before : low (i - k) := (shifts i behind).mpr first
    rw [if_neg first, decide_eq_false first, decide_eq_true low_before,
      decide_eq_false (Nat.not_lt.mpr behind), Bool.and_true, Bool.and_false, Bool.or_false,
      Bool.not_false, Bool.true_and]

theorem getLsbD_reverseBytes (x : BitVec 64) {i : ℕ} (small : i < 64) :
    (reverseBytes x).getLsbD i = x.getLsbD (8 * (7 - i / 8) + i % 8) := by
  have bytes : ∀ (x : BitVec 64) {i : ℕ}, i < 64 →
      (((x &&& 0x00ff00ff00ff00ff#64) <<< 8) |||
        ((x >>> 8) &&& 0x00ff00ff00ff00ff#64)).getLsbD i =
        x.getLsbD (if i % 16 < 8 then 8 + i else i - 8) := by
    intro x i small
    exact getLsbD_swap (fun i => i % 16 < 8) (by decide) (fun i _ => by omega)
      (fun i _ => by omega) small
  have pairs : ∀ (x : BitVec 64) {i : ℕ}, i < 64 →
      (((x &&& 0x0000ffff0000ffff#64) <<< 16) |||
        ((x >>> 16) &&& 0x0000ffff0000ffff#64)).getLsbD i =
        x.getLsbD (if i % 32 < 16 then 16 + i else i - 16) := by
    intro x i small
    exact getLsbD_swap (fun i => i % 32 < 16) (by decide) (fun i _ => by omega)
      (fun i _ => by omega) small
  have halves : ∀ (x : BitVec 64) {i : ℕ}, i < 64 →
      ((x <<< 32) ||| (x >>> 32)).getLsbD i = x.getLsbD (if i < 32 then 32 + i else i - 32) := by
    intro x i small
    rw [BitVec.getLsbD_or, BitVec.getLsbD_shiftLeft, BitVec.getLsbD_ushiftRight,
      decide_eq_true small, Bool.true_and]
    by_cases front : i < 32
    · rw [if_pos front, decide_eq_true front, Bool.not_true, Bool.false_and, Bool.false_or]
    · rw [if_neg front, decide_eq_false front, BitVec.getLsbD_of_ge x (32 + i) (by omega),
        Bool.or_false, Bool.not_false, Bool.true_and]
  rw [reverseBytes, halves _ small, pairs _ (by split <;> omega),
    bytes _ (by split_ifs <;> omega)]
  congr 1
  split_ifs <;> omega

theorem getLsbD_littleEndian (bytes : ℕ → BitVec 8) {i : ℕ} (small : i < 64) :
    (littleEndian bytes).getLsbD i = (bytes (i / 8)).getLsbD (i % 8) := by
  have partial_ : ∀ count, ((List.range count).foldl
      (fun value i => value ||| (bytes i).setWidth 64 <<< (8 * i)) 0#64).getLsbD i =
        (decide (i < 8 * count) && (bytes (i / 8)).getLsbD (i % 8)) := by
    intro count
    induction count with
    | zero => simp
    | succ count induction =>
        rw [List.range_succ, List.foldl_append, List.foldl_cons, List.foldl_nil, BitVec.getLsbD_or,
          induction, BitVec.getLsbD_shiftLeft, BitVec.getLsbD_setWidth, decide_eq_true small,
          decide_eq_true (show i - 8 * count < 64 by omega), Bool.true_and, Bool.true_and]
        rcases Nat.lt_trichotomy (i / 8) count with before | here | behind
        · rw [decide_eq_true (show i < 8 * count by omega),
            decide_eq_true (show i < 8 * (count + 1) by omega), Bool.not_true, Bool.false_and,
            Bool.or_false]
        · have place : i - 8 * count = i % 8 := by omega
          rw [decide_eq_false (show ¬ i < 8 * count by omega),
            decide_eq_true (show i < 8 * (count + 1) by omega), Bool.not_false, Bool.false_and,
            Bool.false_or, Bool.true_and, Bool.true_and, place, here]
        · rw [decide_eq_false (show ¬ i < 8 * count by omega),
            decide_eq_false (show ¬ i < 8 * (count + 1) by omega),
            BitVec.getLsbD_of_ge _ _ (show 8 ≤ i - 8 * count by omega), Bool.and_false,
            Bool.false_and, Bool.or_false]
  rw [littleEndian, partial_, decide_eq_true (show i < 8 * 8 by omega), Bool.true_and]

/-- A word has its first byte on top. -/
theorem loadBig_ok (native : Endian) {span : ByteSpan} (memory : Memory) {i : ℕ}
    (inside : i + 8 ≤ span.size) :
    loadBig native span memory i =
      .ok (bigEndian (fun k => memory (span.data + i + k)) 8) := by
  rw [loadBig, ByteSpan.window_ok memory inside, ok_bind]
  cases native with
  | little =>
      refine congrArg Except.ok (BitVec.eq_of_getLsbD_eq fun i small => ?_)
      have place : (8 * (7 - i / 8) + i % 8) / 8 = (8 * 8 - 1 - i) / 8 ∧
          (8 * (7 - i / 8) + i % 8) % 8 = 7 - (8 * 8 - 1 - i) % 8 := by omega
      dsimp only
      rw [getLsbD_reverseBytes _ small, getLsbD_littleEndian _ (by omega),
        getLsbD_bigEndian _ _ small, decide_eq_true (show i < 8 * 8 by omega), Bool.true_and, bitOf,
        place.1, place.2]
  | big => rfl
  | other => rfl

theorem storeBig_ok (native : Endian) {target : ByteSpan} (memory : Memory) {i : ℕ}
    (inside : i + 8 ≤ target.size) (value : BitVec 64) :
    ∃ after, storeBig native target memory i value = .ok after ∧
      Puts memory after (8 * (target.data + i)) 64 fun k => value.getLsbD (63 - k) := by
  have top : ∀ k < 64, ((value >>> (56 - 8 * (k / 8))).setWidth 8).getLsbD (7 - k % 8) =
      value.getLsbD (63 - k) := by
    intro k small
    have place : 56 - 8 * (k / 8) + (7 - k % 8) = 63 - k := by omega
    rw [BitVec.getLsbD_setWidth, decide_eq_true (by omega), Bool.true_and,
      BitVec.getLsbD_ushiftRight, place]
  obtain ⟨after, written, puts⟩ := ByteSpan.overwrite_ok memory inside
    fun k => match native with
      | .little => (reverseBytes value >>> (8 * k)).setWidth 8
      | .big => (value >>> (56 - 8 * k)).setWidth 8
      | .other => (value >>> (56 - 8 * k)).setWidth 8
  refine ⟨after, written, puts.congr fun k small => ?_⟩
  rw [bitOf]
  cases native with
  | little =>
      have place : 8 * (7 - (8 * (k / 8) + (7 - k % 8)) / 8) + (8 * (k / 8) + (7 - k % 8)) % 8 =
          63 - k := by omega
      rw [BitVec.getLsbD_setWidth, decide_eq_true (by omega), Bool.true_and,
        BitVec.getLsbD_ushiftRight, getLsbD_reverseBytes _ (by omega), place]
  | big => exact top k small
  | other => exact top k small

end KeyDetail

end Everett

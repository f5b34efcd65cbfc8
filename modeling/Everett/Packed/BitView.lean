import Everett.Library.Loop
import Everett.Packed.Memory

/-!
# Bit views

A `bit_view` begins and ends anywhere in its bytes.  Fields of up to 64 bits are loaded from it, and
stored anywhere in a span.
-/

namespace Everett

open Outcome BitWords BigEndian KeyDetail

/-- `bit_view`: meaningful bits, most significant first. -/
structure BitView where
  bytes : ByteSpan
  offset : ℕ
  size : ℕ
  extent : bytes.size * 8 ≤ maximum64
  fits : offset + size ≤ bytes.size * 8

namespace BitView

/-- The constructor of `bit_view`. -/
def make (bytes : ByteSpan) (size offset : ℕ) : Result BitView :=
  if extent : bytes.size * 8 ≤ maximum64 then
    if fits : offset ≤ bytes.size * 8 ∧ size ≤ bytes.size * 8 - offset then
      .ok ⟨bytes, offset, size, extent, by omega⟩
    else .error "bit view exceeds storage"
  else .error "profile multiplication"

/-- Position of the first bit of a view in memory. -/
def start (view : BitView) : ℕ := 8 * view.bytes.data + view.offset

/-- The meaningful bits of a view. -/
def bits (view : BitView) (memory : Memory) : BitString :=
  (List.range view.size).map fun i => bitOf memory (view.start + i)

/-- `at`. -/
def at_ (view : BitView) (memory : Memory) (i : ℕ) : Result Bool :=
  if view.size ≤ i then .error "bit position"
  else do
    let bit := view.offset + i
    let byte ← view.bytes.read memory (bit / 8)
    .ok (byte.getLsbD (7 - bit % 8))

@[simp]
theorem length_bits (view : BitView) (memory : Memory) : (view.bits memory).length = view.size := by
  rw [bits, List.length_map, List.length_range]

theorem getElem?_bits (view : BitView) (memory : Memory) {i : ℕ} (inside : i < view.size) :
    (view.bits memory)[i]? = some (bitOf memory (view.start + i)) := by
  rw [bits, List.getElem?_map, List.getElem?_range inside]
  rfl

/-- A single bit of a view is the one of its sequence. -/
theorem at_ok (view : BitView) (memory : Memory) {i : ℕ} (inside : i < view.size) :
    view.at_ memory i = .ok (bitOf memory (view.start + i)) := by
  have fits := view.fits
  have place : (view.start + i) / 8 = view.bytes.data + (view.offset + i) / 8 ∧
      (view.start + i) % 8 = (view.offset + i) % 8 := by
    rw [start]
    omega
  rw [at_, if_neg (Nat.not_le.mpr inside)]
  dsimp only
  rw [ByteSpan.read_ok memory (by omega), ok_bind, bitOf, place.1, place.2]

end BitView

/-! ## Fields -/

namespace ProfileDetail

/-- `low_mask`. -/
def lowMask (width : ℕ) : BitVec 64 :=
  if width = 64 then BitVec.allOnes 64 else 1#64 <<< width - 1#64

/-- The part of `load_bits` which moves a field of eight or nine bytes to the top of a word. -/
def loadTop (native : Endian) (span : ByteSpan) (memory : Memory) (source shift bytes : ℕ) :
    Result (BitVec 64) := do
  let value ← loadBig native span memory source
  if shift = 0 then .ok value
  else if bytes = 9 then do
    let byte ← span.read memory (source + 8)
    .ok (value <<< shift ||| byte.setWidth 64 >>> (8 - shift))
  else .ok (value <<< shift)

/-- `load_bits`. -/
def loadBits (native : Endian) (data : BitView) (memory : Memory) (first width : ℕ) :
    Result (BitVec 64) :=
  if width = 0 then .ok 0#64
  else
    let offset := data.offset + first
    let source := offset / 8
    let shift := offset % 8
    let bytes := (shift + width + 7) / 8
    if 8 ≤ bytes then do
      let value ← loadTop native data.bytes memory source shift bytes
      .ok (if width = 64 then value else value >>> (64 - width))
    else do
      let value ← (List.range bytes).foldlM (fun (value : BitVec 64) i => do
        let byte ← data.bytes.read memory (source + i)
        .ok (value <<< 8 ||| byte.setWidth 64)) 0#64
      .ok ((value >>> (bytes * 8 - shift - width)) &&& lowMask width)

/-- A round of `store_bits` with the memory, the position and the width which is left. -/
def storeRound (target : ByteSpan) (value : BitVec 64) :
    Memory × ℕ × ℕ → Result ((Memory × ℕ × ℕ) ⊕ Memory)
  | (memory, at_, width) =>
      if width = 0 then .ok (.inr memory)
      else do
        let take := min width (8 - at_ % 8)
        let shift := 8 - at_ % 8 - take
        let mask := (lowMask take).setWidth 32 <<< shift
        let bits := ((value >>> (width - take)) &&& lowMask take).setWidth 32 <<< shift
        let byte ← target.read memory (at_ / 8)
        let memory ← target.write memory (at_ / 8)
          (((byte.setWidth 32 &&& ~~~mask) ||| bits).setWidth 8)
        .ok (.inl (memory, at_ + take, width - take))

/-- `store_bits`. -/
def storeBits (native : Endian) (target : ByteSpan) (memory : Memory) (at_ : ℕ)
    (value : BitVec 64) (width : ℕ) : Result Memory :=
  if width = 0 then .ok memory
  else if width = 64 ∧ at_ % 8 = 0 then storeBig native target memory (at_ / 8) value
  else Loop.run "endless store" (storeRound target value) (width + 1) (memory, at_, width)

theorem getLsbD_lowMask {width : ℕ} (small : width ≤ 64) (i : ℕ) :
    (lowMask width).getLsbD i = decide (i < width) := by
  rw [lowMask]
  split
  · subst width
    exact BitVec.getLsbD_allOnes
  · exact getLsbD_below (by omega) i

theorem foldlM_bytes (span : ByteSpan) (memory : Memory) (source : ℕ) {count : ℕ}
    (inside : source + count ≤ span.size) :
    (List.range count).foldlM (fun (value : BitVec 64) i => do
      let byte ← span.read memory (source + i)
      .ok (value <<< 8 ||| byte.setWidth 64)) 0#64 =
        .ok (bigEndian (fun k => memory (span.data + source + k)) count) := by
  induction count with
  | zero => rfl
  | succ count induction =>
      rw [List.range_succ, List.foldlM_append, induction (by omega), ok_bind, List.foldlM_cons,
        ByteSpan.read_ok memory (by omega), ok_bind, ok_bind, List.foldlM_nil, bigEndian, bigEndian,
        List.range_succ, List.foldl_append, List.foldl_cons, List.foldl_nil, Nat.add_assoc]
      rfl

/-- A field of eight or nine bytes, moved to the top of a word. -/
theorem loadTop_ok (native : Endian) {span : ByteSpan} (memory : Memory) {source shift width : ℕ}
    (inside : source + (shift + width + 7) / 8 ≤ span.size) (long : 8 ≤ (shift + width + 7) / 8)
    (small : width ≤ 64) (byte : shift < 8) :
    ∃ value, loadTop native span memory source shift ((shift + width + 7) / 8) = .ok value ∧
      ∀ i < 64, 64 ≤ i + width →
        value.getLsbD i = bitOf memory (8 * (span.data + source) + (63 + shift - i)) := by
  have word : ∀ i < 64, (bigEndian (fun k => memory (span.data + source + k)) 8).getLsbD i =
      bitOf memory (8 * (span.data + source) + (63 - i)) := by
    intro i below
    rw [getLsbD_bigEndian _ _ below, decide_eq_true (by omega), Bool.true_and, bitOf_shift]
  rw [loadTop, loadBig_ok native memory (by omega), ok_bind]
  by_cases aligned : shift = 0
  · rw [if_pos aligned]
    refine ⟨_, rfl, fun i below _ => ?_⟩
    rw [word i below, aligned, Nat.add_zero]
  · rw [if_neg aligned]
    by_cases nine : (shift + width + 7) / 8 = 9
    · rw [if_pos nine, ByteSpan.read_ok memory (by omega), ok_bind]
      refine ⟨_, rfl, fun i below _ => ?_⟩
      rw [BitVec.getLsbD_or, BitVec.getLsbD_shiftLeft, BitVec.getLsbD_ushiftRight,
        BitVec.getLsbD_setWidth, decide_eq_true below, Bool.true_and]
      by_cases front : i < shift
      · have place : 8 * (span.data + (source + 8)) + (7 - (8 - shift + i)) =
            8 * (span.data + source) + (63 + shift - i) := by omega
        rw [decide_eq_true front, Bool.not_true, Bool.false_and, Bool.false_or,
          decide_eq_true (by omega), Bool.true_and, getLsbD_byte _ _ (by omega), place]
      · have place : 63 - (i - shift) = 63 + shift - i := by omega
        rw [decide_eq_false front, Bool.not_false, Bool.true_and, word _ (by omega), place,
          BitVec.getLsbD_of_ge _ (8 - shift + i) (by omega), Bool.and_false, Bool.or_false]
    · rw [if_neg nine]
      refine ⟨_, rfl, fun i below top => ?_⟩
      have place : 63 - (i - shift) = 63 + shift - i := by omega
      rw [BitVec.getLsbD_shiftLeft, decide_eq_true below, Bool.true_and,
        decide_eq_false (by omega), Bool.not_false, Bool.true_and, word _ (by omega), place]

/-- A field of a view is loaded exactly. -/
theorem loadBits_ok (native : Endian) (data : BitView) (memory : Memory) {first width : ℕ}
    (inside : first + width ≤ data.size) (small : width ≤ 64) :
    loadBits native data memory first width =
      .ok (fieldOf (bitOf memory) (data.start + first) width) := by
  have fits := data.fits
  rw [loadBits]
  split
  · subst width
    rfl
  · rename_i some_width
    have byte : (data.offset + first) % 8 < 8 := Nat.mod_lt _ (by decide)
    have room : (data.offset + first) / 8 + ((data.offset + first) % 8 + width + 7) / 8 ≤
        data.bytes.size := by omega
    have place : ∀ i < width, 8 * (data.bytes.data + (data.offset + first) / 8) +
        ((data.offset + first) % 8 + width - 1 - i) = data.start + first + width - 1 - i := by
      intro i _
      rw [BitView.start]
      omega
    dsimp only
    generalize (data.offset + first) % 8 = shift at *
    generalize (data.offset + first) / 8 = source at *
    split
    · rename_i long
      obtain ⟨value, loaded, top⟩ := loadTop_ok native memory room long small byte
      have whole : (if width = 64 then value else value >>> (64 - width)) =
          value >>> (64 - width) := by
        split
        · subst width
          rfl
        · rfl
      rw [loaded, ok_bind, whole]
      refine congrArg Except.ok (fieldOf_eq fun i below => ?_)
      rw [BitVec.getLsbD_ushiftRight]
      by_cases covered : i < width
      · have index : 63 + shift - (64 - width + i) = shift + width - 1 - i := by omega
        rw [top _ (by omega) (by omega), index, place i covered, decide_eq_true covered,
          Bool.true_and]
      · rw [BitVec.getLsbD_of_ge _ _ (by omega), decide_eq_false covered, Bool.false_and]
    · rename_i short
      rw [foldlM_bytes _ memory source (by omega), ok_bind]
      refine congrArg Except.ok (fieldOf_eq fun i below => ?_)
      rw [BitVec.getLsbD_and, getLsbD_lowMask small, BitVec.getLsbD_ushiftRight]
      by_cases covered : i < width
      · have index : 8 * ((shift + width + 7) / 8) - 1 -
            ((shift + width + 7) / 8 * 8 - shift - width + i) = shift + width - 1 - i := by omega
        rw [getLsbD_bigEndian _ _ (by omega), decide_eq_true (by omega), index, bitOf_shift,
          place i covered, decide_eq_true covered, Bool.true_and, Bool.and_true]
      · rw [decide_eq_false covered, Bool.and_false, Bool.false_and]

/-! ## Stores -/

/-- A round stores the next bits up to the end of a byte. -/
theorem storeRound_ok {target : ByteSpan} (value : BitVec 64) (memory : Memory) {at_ width : ℕ}
    (fits : at_ + width ≤ 8 * target.size) (small : width ≤ 64) (some_width : width ≠ 0) :
    ∃ after, storeRound target value (memory, at_, width) =
        .ok (.inl (after, at_ + min width (8 - at_ % 8), width - min width (8 - at_ % 8))) ∧
      Puts memory after (8 * target.data + at_) (min width (8 - at_ % 8))
        fun i => value.getLsbD (width - 1 - i) := by
  have start : 8 * target.data + at_ = 8 * (target.data + at_ / 8) + at_ % 8 := by omega
  rw [storeRound, if_neg some_width]
  dsimp only
  generalize take_eq : min width (8 - at_ % 8) = take
  have within : at_ % 8 + take ≤ 8 := by omega
  rw [ByteSpan.read_ok memory (by omega), ok_bind, ByteSpan.write, if_pos (by omega), ok_bind, start]
  refine ⟨_, rfl, .update within fun i below => ?_⟩
  rw [BitVec.getLsbD_setWidth, BitVec.getLsbD_or, BitVec.getLsbD_and, BitVec.getLsbD_not,
    BitVec.getLsbD_shiftLeft, BitVec.getLsbD_shiftLeft, BitVec.getLsbD_setWidth,
    BitVec.getLsbD_setWidth, BitVec.getLsbD_setWidth, BitVec.getLsbD_and, BitVec.getLsbD_ushiftRight,
    getLsbD_lowMask (by omega), decide_eq_true (show 7 - i < 8 by omega),
    decide_eq_true (show 7 - i < 32 by omega), Bool.true_and, Bool.true_and, Bool.true_and,
    Bool.true_and, decide_eq_true (show 7 - i - (8 - at_ % 8 - take) < 32 by omega), Bool.true_and,
    Bool.true_and]
  by_cases below_field : 7 - i < 8 - at_ % 8 - take
  · rw [decide_eq_true below_field, if_neg (by omega), Bool.not_true, Bool.false_and,
      Bool.false_and, Bool.not_false, Bool.and_true, Bool.or_false, getLsbD_byte _ _ (by omega)]
    congr 1
    omega
  · rw [decide_eq_false below_field, Bool.not_false, Bool.true_and, Bool.true_and]
    by_cases covered : 7 - i - (8 - at_ % 8 - take) < take
    · have index : width - take + (7 - i - (8 - at_ % 8 - take)) = width - 1 - (i - at_ % 8) := by
        omega
      rw [decide_eq_true covered, if_pos (by omega), Bool.not_true, Bool.and_false, Bool.false_or,
        Bool.and_true, index]
    · rw [decide_eq_false covered, if_neg (by omega), Bool.not_false, Bool.and_true, Bool.and_false,
        Bool.or_false, getLsbD_byte _ _ (by omega)]
      congr 1
      omega

/-- The rounds of a store go on from the bits which were stored before. -/
theorem storeRound_advances {target : ByteSpan} (value : BitVec 64) (memory : Memory)
    {at_ width : ℕ} (fits : at_ + width ≤ 8 * target.size) (small : width ≤ 64) :
    Loop.Advances (storeRound target value)
      (fun state => ∃ stored, state.2.1 = at_ + stored ∧ stored + state.2.2 = width ∧
        Puts memory state.1 (8 * target.data + at_) stored fun i => value.getLsbD (width - 1 - i))
      (fun state => state.2.2)
      (fun after => Puts memory after (8 * target.data + at_) width
        fun i => value.getLsbD (width - 1 - i)) := by
  rintro ⟨middle, position, left⟩ ⟨stored, rfl, total, puts⟩
  dsimp only at puts total
  subst total
  by_cases ended : left = 0
  · subst ended
    exact .inr ⟨middle, by rw [storeRound, if_pos rfl], puts⟩
  · obtain ⟨after, stepped, more⟩ := storeRound_ok value middle
      (show at_ + stored + left ≤ 8 * target.size by omega) (by omega) ended
    refine .inl ⟨_, stepped, ⟨stored + min left (8 - (at_ + stored) % 8), Nat.add_assoc _ _ _,
      by dsimp only; omega, ?_⟩, by dsimp only; omega⟩
    rw [← Nat.add_assoc] at more
    refine puts.append (more.congr fun i _ => ?_)
    have index : left - 1 - i = stored + left - 1 - (stored + i) := by omega
    rw [index]

/-- A store replaces its field and no other bit. -/
theorem storeBits_ok (native : Endian) {target : ByteSpan} (memory : Memory) {at_ width : ℕ}
    (value : BitVec 64) (fits : at_ + width ≤ 8 * target.size) (small : width ≤ 64) :
    ∃ after, storeBits native target memory at_ value width = .ok after ∧
      Puts memory after (8 * target.data + at_) width fun i => value.getLsbD (width - 1 - i) := by
  rw [storeBits]
  split
  · subst width
    exact ⟨memory, rfl, .nothing _ _ _⟩
  · split
    · rename_i whole
      obtain ⟨rfl, aligned⟩ := whole
      have place : 8 * target.data + at_ = 8 * (target.data + at_ / 8) := by omega
      rw [place]
      exact storeBig_ok native memory (by omega) value
    · exact (storeRound_advances value memory fits small).run_ok _ _ _
        ⟨0, rfl, Nat.zero_add _, .nothing _ _ _⟩ (Nat.lt_succ_self _)

end ProfileDetail

end Everett

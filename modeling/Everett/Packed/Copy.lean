import Everett.Packed.BitView

/-!
# Copies of bits

`copy_bits` moves a view to any position of a span, also when both are in one buffer.  It works from
the end when the target lies behind the beginning of the source, so no bit is replaced before it was
read.
-/

namespace Everett.ProfileDetail

open Outcome BitWords BigEndian KeyDetail

/-- `byte_count`. -/
def byteCount (bits : ℕ) : ℕ := (bits + 7) % 2 ^ 64 / 8

section Copy

variable (native : Endian) (target : ByteSpan) (first : ℕ) (source : BitView)

/-- Store a field of the source which was loaded before. -/
def copyField (memory : Memory) (at_ width : ℕ) : Result Memory := do
  let value ← loadBits native source memory at_ width
  storeBits native target memory (first + at_) value width

/-- A round of the loop from the end, with what is left to copy. -/
def backwardRound : Memory × ℕ → Result ((Memory × ℕ) ⊕ Memory)
  | (memory, count) =>
      if count = 0 then .ok (.inr memory)
      else do
        let width := min count 64
        let memory ← copyField native target first source memory (count - width) width
        .ok (.inl (memory, count - width))

/-- Fill the first byte of the target. -/
def copyHead (memory : Memory) : Result (Memory × ℕ) :=
  if first % 8 = 0 then .ok (memory, 0)
  else do
    let width := min source.size (8 - first % 8)
    let memory ← copyField native target first source memory 0 width
    .ok (memory, width)

/-- A round of the loop over words. -/
def wordRound : Memory × ℕ → Result ((Memory × ℕ) ⊕ (Memory × ℕ))
  | (memory, at_) =>
      if 64 ≤ source.size - at_ then do
        let value ← loadBits native source memory at_ 64
        let memory ← storeBig native target memory ((first + at_) / 8) value
        .ok (.inl (memory, at_ + 64))
      else .ok (.inr (memory, at_))

/-- Copy whole bytes or words to an aligned position. -/
def copyMiddle (memory : Memory) (at_ : ℕ) : Result (Memory × ℕ) :=
  if (source.offset + at_) % 8 = 0 then do
    let bytes := (source.size - at_) / 8
    let memory ← if bytes = 0 then .ok memory
      else target.memmove memory ((first + at_) / 8) source.bytes ((source.offset + at_) / 8) bytes
    .ok (memory, at_ + bytes * 8)
  else Loop.run "endless copy" (wordRound native target first source) (source.size + 1)
    (memory, at_)

/-- A round of the last loop. -/
def tailRound : Memory × ℕ → Result ((Memory × ℕ) ⊕ Memory)
  | (memory, at_) =>
      if at_ = source.size then .ok (.inr memory)
      else do
        let width := min (source.size - at_) 8
        let memory ← copyField native target first source memory at_ width
        .ok (.inl (memory, at_ + width))

/-- Whether the source must be copied from its end. -/
def backwards : Bool :=
  let destination := target.data + first / 8
  let origin := source.bytes.data + source.offset / 8
  let sourceBytes := byteCount (source.offset % 8 + source.size)
  (origin < destination ∨ destination = origin ∧ source.offset % 8 < first % 8) ∧
    destination - origin < sourceBytes

/-- `copy_bits`. -/
def copyBits (memory : Memory) : Result Memory :=
  if source.size = 0 then .ok memory
  else if (first ||| source.offset ||| source.size) % 8 = 0 then
    target.memmove memory (first / 8) source.bytes (source.offset / 8) (source.size / 8)
  else if backwards target first source then
    Loop.run "endless copy" (backwardRound native target first source) (source.size + 1)
      (memory, source.size)
  else do
    let (memory, at_) ← copyHead native target first source memory
    let (memory, at_) ← copyMiddle native target first source memory at_
    Loop.run "endless copy" (tailRound native target first source) (source.size + 1) (memory, at_)

end Copy

variable {native : Endian} {target : ByteSpan} {first : ℕ} {source : BitView}

/-- A field is copied as it is before. -/
theorem copyField_ok (native : Endian) (memory : Memory) (at_ width : ℕ)
    (fits : first + source.size ≤ 8 * target.size) (inside : at_ + width ≤ source.size)
    (small : width ≤ 64) :
    ∃ after, copyField native target first source memory at_ width = .ok after ∧
      Puts memory after (8 * target.data + first + at_) width
        fun i => bitOf memory (source.start + at_ + i) := by
  obtain ⟨after, stored, puts⟩ := storeBits_ok native memory
    (fieldOf (bitOf memory) (source.start + at_) width)
    (show first + at_ + width ≤ 8 * target.size by omega) small
  rw [← Nat.add_assoc] at puts
  refine ⟨after, ?_, puts.congr fun i below => ?_⟩
  · rw [copyField, loadBits_ok native source memory inside small, ok_bind, stored]
  · have place : source.start + at_ + width - 1 - (width - 1 - i) = source.start + at_ + i := by
      omega
    rw [getLsbD_fieldOf _ _ _ (by omega), decide_eq_true (by omega), Bool.true_and, place]

/-! ## From the beginning -/

/-- The source does not begin before the target, or ends before it. -/
def Ahead (target : ByteSpan) (first : ℕ) (source : BitView) : Prop :=
  8 * target.data + first ≤ source.start ∨ source.start + source.size ≤ 8 * target.data + first

/-- The first bits of the source were copied. -/
def Copied (target : ByteSpan) (first : ℕ) (source : BitView) (memory after : Memory)
    (count : ℕ) : Prop :=
  Puts memory after (8 * target.data + first) count fun i => bitOf memory (source.start + i)

variable {memory middle after : Memory} {count width at_ : ℕ}

/-- The next bits are still those of the source. -/
theorem Copied.step (ahead : Ahead target first source)
    (copied : Copied target first source memory middle count)
    (inside : count + width ≤ source.size)
    (puts : Puts middle after (8 * target.data + first + count) width
      fun i => bitOf middle (source.start + count + i)) :
    Copied target first source memory after (count + width) := by
  refine Puts.append copied (puts.congr fun i below => ?_)
  rw [Nat.add_assoc]
  rcases ahead with before | apart
  · exact copied.unchanged (.inr (by omega))
  · exact copied.unchanged (.inl (by omega))

theorem copyHead_ok (native : Endian) (memory : Memory)
    (fits : first + source.size ≤ 8 * target.size) :
    ∃ after count, copyHead native target first source memory = .ok (after, count) ∧
      Copied target first source memory after count ∧ count ≤ source.size ∧
      (count = source.size ∨ (first + count) % 8 = 0) := by
  rw [copyHead]
  split
  · exact ⟨memory, 0, rfl, .nothing _ _ _, Nat.zero_le _, .inr ‹_›⟩
  · obtain ⟨after, copied, puts⟩ := copyField_ok native memory 0 (min source.size (8 - first % 8)) fits
      (by omega) (by omega)
    refine ⟨after, _, ?_, puts, Nat.min_le_left _ _, by omega⟩
    dsimp only
    rw [copied, ok_bind]

/-- The loop over words copies them. -/
theorem wordRound_advances (native : Endian) (ahead : Ahead target first source)
    (fits : first + source.size ≤ 8 * target.size) :
    Loop.Advances (wordRound native target first source)
      (fun state => Copied target first source memory state.1 state.2 ∧ state.2 ≤ source.size ∧
        (state.2 = source.size ∨ (first + state.2) % 8 = 0))
      (fun state => source.size - state.2)
      (fun state => Copied target first source memory state.1 state.2 ∧ state.2 ≤ source.size) := by
  rintro ⟨middle, count⟩ ⟨copied, within, aligned⟩
  dsimp only at copied within aligned
  by_cases long : 64 ≤ source.size - count
  · have place : 8 * (target.data + (first + count) / 8) = 8 * target.data + first + count := by
      omega
    obtain ⟨after, stored, puts⟩ := storeBig_ok native middle
      (show (first + count) / 8 + 8 ≤ target.size by omega) (fieldOf (bitOf middle) (source.start + count) 64)
    rw [place] at puts
    refine .inl ⟨(after, count + 64), ?_, ⟨copied.step ahead (by omega) (puts.congr fun i below => ?_),
      by dsimp only; omega, by dsimp only; omega⟩, by dsimp only; omega⟩
    · rw [wordRound, if_pos long, loadBits_ok native source middle (by omega) le_rfl, ok_bind,
        stored, ok_bind]
    · have index : source.start + count + 64 - 1 - (63 - i) = source.start + count + i := by omega
      rw [getLsbD_fieldOf _ _ _ (by omega), decide_eq_true (by omega), Bool.true_and, index]
  · exact .inr ⟨(middle, count), by rw [wordRound, if_neg long], copied, within⟩

theorem copyMiddle_ok (native : Endian) (ahead : Ahead target first source)
    (fits : first + source.size ≤ 8 * target.size)
    (copied : Copied target first source memory middle count) (within : count ≤ source.size)
    (aligned : count = source.size ∨ (first + count) % 8 = 0) :
    ∃ after more, copyMiddle native target first source middle count = .ok (after, more) ∧
      Copied target first source memory after more ∧ more ≤ source.size := by
  rw [copyMiddle]
  split
  · rename_i source_aligned
    dsimp only
    by_cases none_left : (source.size - count) / 8 = 0
    · rw [if_pos none_left, ok_bind, none_left, Nat.zero_mul, Nat.add_zero]
      exact ⟨middle, count, rfl, copied, within⟩
    · have room := source.fits
      have from_eq : 8 * (source.bytes.data + (source.offset + count) / 8) =
          source.start + count := by
        rw [BitView.start]
        omega
      have to_eq : 8 * (target.data + (first + count) / 8) = 8 * target.data + first + count := by
        omega
      have whole_eq := Nat.mul_comm 8 ((source.size - count) / 8)
      obtain ⟨after, moved, puts⟩ := ByteSpan.memmove_ok middle
        (show (first + count) / 8 + (source.size - count) / 8 ≤ target.size by omega)
        (show (source.offset + count) / 8 + (source.size - count) / 8 ≤ source.bytes.size by omega)
      rw [from_eq, to_eq, whole_eq] at puts
      rw [if_neg none_left, moved, ok_bind]
      exact ⟨after, _, rfl, copied.step ahead (by omega) puts, by omega⟩
  · obtain ⟨⟨after, more⟩, ran, done⟩ := (wordRound_advances native ahead fits).run_ok
      "endless copy" (source.size + 1) (middle, count) ⟨copied, within, aligned⟩ (by dsimp only; omega)
    exact ⟨after, more, ran, done⟩

/-- The last loop copies what is left. -/
theorem tailRound_advances (native : Endian) (ahead : Ahead target first source)
    (fits : first + source.size ≤ 8 * target.size) :
    Loop.Advances (tailRound native target first source)
      (fun state => Copied target first source memory state.1 state.2 ∧ state.2 ≤ source.size)
      (fun state => source.size - state.2)
      (fun after => Copied target first source memory after source.size) := by
  rintro ⟨middle, count⟩ ⟨copied, within⟩
  dsimp only at copied within
  by_cases ended : count = source.size
  · subst ended
    exact .inr ⟨middle, by rw [tailRound, if_pos rfl], copied⟩
  · obtain ⟨after, moved, puts⟩ := copyField_ok native middle count (min (source.size - count) 8) fits
      (by omega) (by omega)
    refine .inl ⟨(after, count + min (source.size - count) 8), ?_,
      ⟨copied.step ahead (by omega) puts, by dsimp only; omega⟩, by dsimp only; omega⟩
    rw [tailRound, if_neg ended]
    dsimp only
    rw [moved, ok_bind]

/-! ## From the end -/

/-- The loop from the end copies what is before the bits which were copied. -/
theorem backwardRound_advances (native : Endian)
    (behind : source.start ≤ 8 * target.data + first)
    (fits : first + source.size ≤ 8 * target.size) :
    Loop.Advances (backwardRound native target first source)
      (fun state => state.2 ≤ source.size ∧
        Puts memory state.1 (8 * target.data + first + state.2) (source.size - state.2)
          fun i => bitOf memory (source.start + state.2 + i))
      (fun state => state.2)
      (fun after => Copied target first source memory after source.size) := by
  rintro ⟨middle, count⟩ ⟨within, copied⟩
  dsimp only at within copied
  by_cases ended : count = 0
  · subst ended
    exact .inr ⟨middle, by rw [backwardRound, if_pos rfl], copied⟩
  · generalize width_eq : min count 64 = width
    obtain ⟨after, moved, puts⟩ := copyField_ok native middle (count - width) width fits (by omega)
      (by omega)
    have start : 8 * target.data + first + count =
        8 * target.data + first + (count - width) + width := by omega
    have size : source.size - (count - width) = width + (source.size - count) := by omega
    refine .inl ⟨(after, count - width), ?_, ⟨by dsimp only; omega, ?_⟩, by dsimp only; omega⟩
    · rw [backwardRound, if_neg ended]
      dsimp only
      rw [width_eq, moved, ok_bind]
    · dsimp only
      rw [start] at copied
      rw [size]
      refine Puts.prepend (copied.congr fun i _ => ?_) (puts.congr fun i below => ?_)
      · have index : source.start + count + i = source.start + (count - width) + (width + i) := by
          omega
        rw [index]
      · exact copied.unchanged (.inl (by omega))

/-! ## Copies -/

/-- The copy works from the end unless it may work from the beginning. -/
theorem backwards_iff (target : ByteSpan) (first : ℕ) (source : BitView) :
    (backwards target first source = true → source.start ≤ 8 * target.data + first) ∧
      (backwards target first source = false → Ahead target first source) := by
  have fits := source.fits
  have extent := source.extent
  rw [maximum64] at extent
  have count : byteCount (source.offset % 8 + source.size) =
      (source.offset % 8 + source.size + 7) / 8 := by
    rw [byteCount, Nat.mod_eq_of_lt (by omega)]
  simp only [backwards, count, decide_eq_true_eq, decide_eq_false_iff_not, Ahead, BitView.start]
  omega

/-- A copy has the bits of its source, whether or not source and target overlap, and leaves all
other bits as they were. -/
theorem copyBits_ok (native : Endian) (memory : Memory)
    (fits : first + source.size ≤ 8 * target.size) :
    ∃ after, copyBits native target first source memory = .ok after ∧
      Copied target first source memory after source.size := by
  rw [copyBits]
  split
  · rename_i nothing
    rw [nothing]
    exact ⟨memory, rfl, .nothing _ _ _⟩
  · split
    · rename_i some_bits aligned
      have eight : 8 = 2 ^ 3 := rfl
      rw [eight, Nat.or_mod_two_pow, Nat.or_mod_two_pow, Nat.or_eq_zero_iff, Nat.or_eq_zero_iff,
        ← eight] at aligned
      obtain ⟨⟨to_aligned, from_aligned⟩, whole⟩ := aligned
      have room := source.fits
      have from_eq : 8 * (source.bytes.data + source.offset / 8) = source.start := by
        rw [BitView.start]
        omega
      have to_eq : 8 * (target.data + first / 8) = 8 * target.data + first := by omega
      have size_eq : 8 * (source.size / 8) = source.size := by omega
      obtain ⟨after, moved, puts⟩ := ByteSpan.memmove_ok memory
        (show first / 8 + source.size / 8 ≤ target.size by omega)
        (show source.offset / 8 + source.size / 8 ≤ source.bytes.size by omega)
      rw [from_eq, to_eq, size_eq] at puts
      exact ⟨after, moved, puts⟩
    · split
      · rename_i backward
        have behind := (backwards_iff target first source).1 backward
        refine (backwardRound_advances native behind fits).run_ok _ _ _ ⟨le_rfl, ?_⟩
          (Nat.lt_succ_self _)
        dsimp only
        rw [Nat.sub_self]
        exact .nothing _ _ _
      · rename_i forward
        have ahead := (backwards_iff target first source).2 (Bool.not_eq_true _ ▸ forward)
        obtain ⟨middle, count, filled, copied, within, aligned⟩ := copyHead_ok native memory fits
        obtain ⟨last, more, moved, copied, within⟩ :=
          copyMiddle_ok native ahead fits copied within aligned
        rw [filled, ok_bind]
        dsimp only
        rw [moved, ok_bind]
        exact (tailRound_advances native ahead fits).run_ok _ _ _ ⟨copied, within⟩ (by dsimp only; omega)

end Everett.ProfileDetail

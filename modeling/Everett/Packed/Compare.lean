import Everett.Packed.Copy

/-!
# Comparisons of bits

`common_bytes` finds the first difference of two ranges of bytes with registers, words and single
bytes.  `compare_common_bits` uses it where both views begin with a byte and reads fields elsewhere.
-/

namespace Everett

open Outcome BitWords BigEndian

namespace KeyDetail

/-- Architectures by their registers; the scalar one uses none. -/
inductive Architecture
  | scalar
  | neon
  | avx2
  | avx512
  | other
  deriving DecidableEq

/-- `register_bytes`. -/
def Architecture.registerBytes : Architecture → ℕ
  | neon => 16
  | avx2 => 32
  | avx512 => 64
  | scalar => 1
  | other => 1

/-- How a loop over bytes ends: the next loop goes on, or a difference was found. -/
inductive Scan
  | resume (at_ : ℕ)
  | found (at_ : ℕ)

/-- The mask of the lanes which differ. -/
def differing (lanes : ℕ) (x y : ℕ → BitVec 8) : BitVec 64 :=
  (List.range lanes).foldl (fun mask lane => if x lane ≠ y lane then mask ||| 1#64 <<< lane else mask)
    0#64

/-- The first different byte of two words; on other machines a difference is not located. -/
def locate (native : Endian) (x y : ℕ → BitVec 8) (at_ : ℕ) : ℕ ⊕ Scan :=
  match native with
  | .little =>
      let different := littleEndian x ^^^ littleEndian y
      if different = 0#64 then .inl (at_ + 8) else .inr (.found (at_ + countrZero different / 8))
  | .big =>
      let different := bigEndian x 8 ^^^ bigEndian y 8
      if different = 0#64 then .inl (at_ + 8) else .inr (.found (at_ + countlZero different / 8))
  | .other =>
      let different := bigEndian x 8 ^^^ bigEndian y 8
      if different = 0#64 then .inl (at_ + 8) else .inr (.resume at_)

section CommonBytes

variable (memory : Memory) (lhs rhs : ByteSpan) (count : ℕ)

/-- A round of the loop over registers. -/
def registerRound (arch : Architecture) (at_ : ℕ) : Result (ℕ ⊕ Scan) :=
  if arch.registerBytes ≤ count - at_ then do
    let x ← lhs.window memory at_ arch.registerBytes
    let y ← rhs.window memory at_ arch.registerBytes
    let bits := differing arch.registerBytes x y
    .ok (if bits = 0#64 then .inl (at_ + arch.registerBytes)
      else if arch = .neon then .inr (.resume at_)
      else .inr (.found (at_ + countrZero bits)))
  else .ok (.inr (.resume at_))

/-- A round of the loop over words. -/
def scalarRound (native : Endian) (at_ : ℕ) : Result (ℕ ⊕ Scan) :=
  if 8 ≤ count - at_ then do
    let x ← lhs.window memory at_ 8
    let y ← rhs.window memory at_ 8
    .ok (locate native x y at_)
  else .ok (.inr (.resume at_))

/-- A round of the loop over single bytes. -/
def byteRound (at_ : ℕ) : Result (ℕ ⊕ ℕ) :=
  if at_ = count then .ok (.inr at_)
  else do
    let x ← lhs.read memory at_
    let y ← rhs.read memory at_
    .ok (if x = y then .inl (at_ + 1) else .inr at_)

/-- The loop over registers of every architecture but the scalar one. -/
def registerScan (arch : Architecture) : Result Scan :=
  if arch = .scalar then .ok (.resume 0)
  else Loop.run "endless comparison" (registerRound memory lhs rhs count arch) (count + 1) 0

/-- `common_bytes` of the first bytes of two spans. -/
def commonBytes (arch : Architecture) (native : Endian) : Result ℕ := do
  let scan ← registerScan memory lhs rhs count arch
  match scan with
  | .found at_ => .ok at_
  | .resume at_ => do
      let scan ← Loop.run "endless comparison" (scalarRound memory lhs rhs count native) (count + 1)
        at_
      match scan with
      | .found at_ => .ok at_
      | .resume at_ => Loop.run "endless comparison" (byteRound memory lhs rhs count) (count + 1) at_

end CommonBytes

/-- Two sequences of bytes agree before a position. -/
def Agree (x y : ℕ → BitVec 8) (count position : ℕ) : Prop :=
  position ≤ count ∧ ∀ i < position, x i = y i

/-- The first difference of two sequences of bytes, or their end. -/
def FirstDifference (x y : ℕ → BitVec 8) (count position : ℕ) : Prop :=
  Agree x y count position ∧ (position < count → x position ≠ y position)

/-- What a loop over bytes leaves. -/
def Scan.Sound (x y : ℕ → BitVec 8) (count : ℕ) : Scan → Prop
  | .resume at_ => Agree x y count at_
  | .found at_ => FirstDifference x y count at_

variable {x y : ℕ → BitVec 8} {count at_ : ℕ}

/-- Bytes which agree in a window agree behind it. -/
theorem Agree.extend (agree : Agree x y count at_) {more : ℕ} (inside : at_ + more ≤ count)
    (same : ∀ k < more, x (at_ + k) = y (at_ + k)) : Agree x y count (at_ + more) := by
  refine ⟨inside, fun i below => ?_⟩
  by_cases before : i < at_
  · exact agree.2 i before
  · have place : at_ + (i - at_) = i := by omega
    have next := same (i - at_) (by omega)
    rwa [place] at next

theorem Agree.difference (agree : Agree x y count at_) {more : ℕ} (inside : at_ + more < count)
    (same : ∀ k < more, x (at_ + k) = y (at_ + k)) (differ : x (at_ + more) ≠ y (at_ + more)) :
    FirstDifference x y count (at_ + more) :=
  ⟨agree.extend inside.le same, fun _ => differ⟩

/-- Lanes with the same bits are the same. -/
theorem byte_eq_of_bits {k : ℕ} (same : ∀ i < 8, bitOf x (8 * k + i) = bitOf y (8 * k + i)) :
    x k = y k := by
  refine BitVec.eq_of_getLsbD_eq fun i small => ?_
  rw [getLsbD_byte x k small, getLsbD_byte y k small, same _ (by omega)]

theorem getLsbD_differing (x y : ℕ → BitVec 8) {lanes : ℕ} (small : lanes ≤ 64) (i : ℕ) :
    (differing lanes x y).getLsbD i = decide (i < lanes ∧ x i ≠ y i) :=
  getLsbD_foldl_bits (fun lane => x lane ≠ y lane) small i

/-- Words of the same bytes are the same, and the first different byte is located. -/
theorem locate_spec (native : Endian) (x y : ℕ → BitVec 8) (at_ : ℕ) :
    (locate native x y at_ = .inl (at_ + 8) ∧ ∀ k < 8, x k = y k) ∨
    (∃ k < 8, locate native x y at_ = .inr (.found (at_ + k)) ∧ (∀ i < k, x i = y i) ∧ x k ≠ y k) ∨
    locate native x y at_ = .inr (.resume at_) := by
  have same_little : ∀ {i : ℕ}, i < 64 →
      (littleEndian x ^^^ littleEndian y).getLsbD i = false →
      (x (i / 8)).getLsbD (i % 8) = (y (i / 8)).getLsbD (i % 8) := by
    intro i small clear
    rw [BitVec.getLsbD_xor, getLsbD_littleEndian x small, getLsbD_littleEndian y small] at clear
    simpa using clear
  have same_big : ∀ {i : ℕ}, i < 64 → (bigEndian x 8 ^^^ bigEndian y 8).getMsbD i = false →
      bitOf x i = bitOf y i := by
    intro i small clear
    have place : 8 * 8 - 1 - (64 - 1 - i) = i := by omega
    rw [BitVec.getMsbD_xor, BitVec.getMsbD, BitVec.getMsbD, getLsbD_bigEndian _ _ (by omega),
      getLsbD_bigEndian _ _ (by omega), decide_eq_true small, decide_eq_true (by omega), place,
      Bool.true_and, Bool.true_and, Bool.true_and, Bool.true_and] at clear
    simpa using clear
  cases native with
  | little =>
      rw [locate]
      generalize value_eq : littleEndian x ^^^ littleEndian y = value at *
      by_cases clear : value = 0#64
      · rw [if_pos clear]
        refine .inl ⟨rfl, fun k small => BitVec.eq_of_getLsbD_eq fun i below => ?_⟩
        have same := same_little (i := 8 * k + i) (by omega) (by rw [clear, BitVec.getLsbD_zero])
        have place : (8 * k + i) / 8 = k ∧ (8 * k + i) % 8 = i := by omega
        rwa [place.1, place.2] at same
      · obtain ⟨here, first⟩ := countrZero_spec clear
        have small : countrZero value < 64 := BitVec.lt_of_getLsbD here
        rw [if_neg clear]
        refine .inr (.inl ⟨countrZero value / 8, by omega, rfl, fun k before => ?_, fun same => ?_⟩)
        · refine BitVec.eq_of_getLsbD_eq fun i below => ?_
          have same := same_little (i := 8 * k + i) (by omega) (first _ (by omega))
          have place : (8 * k + i) / 8 = k ∧ (8 * k + i) % 8 = i := by omega
          rwa [place.1, place.2] at same
        · rw [← value_eq, BitVec.getLsbD_xor, value_eq, getLsbD_littleEndian x small,
            getLsbD_littleEndian y small, same, Bool.xor_self] at here
          cases here
  | big =>
      rw [locate]
      generalize value_eq : bigEndian x 8 ^^^ bigEndian y 8 = value at *
      by_cases clear : value = 0#64
      · rw [if_pos clear]
        refine .inl ⟨rfl, fun k small => byte_eq_of_bits fun i below => same_big (by omega) ?_⟩
        rw [clear, BitVec.getMsbD_zero]
      · obtain ⟨within, here, first⟩ := countlZero_spec clear
        rw [if_neg clear]
        refine .inr (.inl ⟨countlZero value / 8, by omega, rfl, fun k before => ?_, fun same => ?_⟩)
        · exact byte_eq_of_bits fun i below => same_big (by omega) (first _ (by omega))
        · have place : 8 * 8 - 1 - (64 - 1 - countlZero value) = countlZero value := by omega
          rw [← value_eq, BitVec.getMsbD_xor, value_eq, BitVec.getMsbD, BitVec.getMsbD,
            getLsbD_bigEndian _ _ (by omega), getLsbD_bigEndian _ _ (by omega), place, bitOf, bitOf,
            same, Bool.xor_self] at here
          cases here
  | other =>
      rw [locate]
      by_cases clear : bigEndian x 8 ^^^ bigEndian y 8 = 0#64
      · rw [if_pos clear]
        refine .inl ⟨rfl, fun k small => byte_eq_of_bits fun i below => same_big (by omega) ?_⟩
        rw [clear, BitVec.getMsbD_zero]
      · rw [if_neg clear]
        exact .inr (.inr rfl)

section Rounds

variable (memory : Memory) {lhs rhs : ByteSpan}

/-- The bytes of a span. -/
def bytesOf (span : ByteSpan) (i : ℕ) : BitVec 8 := memory (span.data + i)

theorem registerRound_advances (arch : Architecture) (left : count ≤ lhs.size)
    (right : count ≤ rhs.size) :
    Loop.Advances (registerRound memory lhs rhs count arch)
      (Agree (bytesOf memory lhs) (bytesOf memory rhs) count) (fun at_ => count - at_)
      (Scan.Sound (bytesOf memory lhs) (bytesOf memory rhs) count) := by
  intro at_ agree
  have lanes : 0 < arch.registerBytes ∧ arch.registerBytes ≤ 64 := by
    cases arch <;> decide
  rw [registerRound]
  by_cases room : arch.registerBytes ≤ count - at_
  · rw [if_pos room, ByteSpan.window_ok memory (by omega), ok_bind,
      ByteSpan.window_ok memory (by omega), ok_bind]
    dsimp only
    generalize bits_eq : differing arch.registerBytes (fun k => memory (lhs.data + at_ + k))
      (fun k => memory (rhs.data + at_ + k)) = bits
    have lane : ∀ k, bits.getLsbD k = decide (k < arch.registerBytes ∧
        bytesOf memory lhs (at_ + k) ≠ bytesOf memory rhs (at_ + k)) := by
      intro k
      rw [← bits_eq, getLsbD_differing _ _ lanes.2, bytesOf, bytesOf, Nat.add_assoc, Nat.add_assoc]
    have equal_lane : ∀ k < arch.registerBytes, bits.getLsbD k = false →
        bytesOf memory lhs (at_ + k) = bytesOf memory rhs (at_ + k) := by
      intro k below clear
      rw [lane] at clear
      by_contra differ
      exact of_decide_eq_false clear ⟨below, differ⟩
    by_cases clear : bits = 0#64
    · rw [if_pos clear]
      refine .inl ⟨_, rfl, agree.extend (by omega) fun k below => equal_lane k below ?_, by omega⟩
      rw [clear, BitVec.getLsbD_zero]
    · obtain ⟨here, first⟩ := countrZero_spec clear
      rw [lane, decide_eq_true_eq] at here
      rw [if_neg clear]
      refine .inr ?_
      split
      · exact ⟨_, rfl, agree⟩
      · exact ⟨_, rfl, agree.difference (by omega)
          (fun k before => equal_lane k (by omega) (first k before)) here.2⟩
  · rw [if_neg room]
    exact .inr ⟨_, rfl, agree⟩

theorem scalarRound_advances (native : Endian) (left : count ≤ lhs.size)
    (right : count ≤ rhs.size) :
    Loop.Advances (scalarRound memory lhs rhs count native)
      (Agree (bytesOf memory lhs) (bytesOf memory rhs) count) (fun at_ => count - at_)
      (Scan.Sound (bytesOf memory lhs) (bytesOf memory rhs) count) := by
  intro at_ agree
  have place : ∀ span : ByteSpan, (fun k => memory (span.data + at_ + k)) =
      fun k => bytesOf memory span (at_ + k) := by
    intro span
    funext k
    rw [bytesOf, Nat.add_assoc]
  rw [scalarRound]
  by_cases room : 8 ≤ count - at_
  · rw [if_pos room, ByteSpan.window_ok memory (by omega), ok_bind,
      ByteSpan.window_ok memory (by omega), ok_bind, place, place]
    obtain ⟨located, same⟩ | ⟨k, below, located, same, differ⟩ | located :=
      locate_spec native (fun k => bytesOf memory lhs (at_ + k))
        (fun k => bytesOf memory rhs (at_ + k)) at_
    · rw [located]
      exact .inl ⟨_, rfl, agree.extend (by omega) same, by dsimp only; omega⟩
    · rw [located]
      exact .inr ⟨_, rfl, agree.difference (by omega) same differ⟩
    · rw [located]
      exact .inr ⟨_, rfl, agree⟩
  · rw [if_neg room]
    exact .inr ⟨_, rfl, agree⟩

theorem byteRound_advances (left : count ≤ lhs.size) (right : count ≤ rhs.size) :
    Loop.Advances (byteRound memory lhs rhs count)
      (Agree (bytesOf memory lhs) (bytesOf memory rhs) count) (fun at_ => count - at_)
      (FirstDifference (bytesOf memory lhs) (bytesOf memory rhs) count) := by
  intro at_ agree
  have within := agree.1
  rw [byteRound]
  by_cases ended : at_ = count
  · rw [if_pos ended]
    exact .inr ⟨at_, rfl, agree, fun less => absurd less (by omega)⟩
  · rw [if_neg ended, ByteSpan.read_ok memory (by omega), ok_bind,
      ByteSpan.read_ok memory (by omega), ok_bind]
    by_cases same : memory (lhs.data + at_) = memory (rhs.data + at_)
    · rw [if_pos same]
      refine .inl ⟨_, rfl, agree.extend (by omega) fun k below => ?_, by dsimp only; omega⟩
      rw [Nat.lt_one_iff.mp below]
      exact same
    · rw [if_neg same]
      exact .inr ⟨at_, rfl, agree, fun _ => same⟩

/-- The first difference is found on every architecture, and no byte behind the range is read. -/
theorem commonBytes_ok (arch : Architecture) (native : Endian) (left : count ≤ lhs.size)
    (right : count ≤ rhs.size) :
    ∃ position, commonBytes memory lhs rhs count arch native = .ok position ∧
      FirstDifference (bytesOf memory lhs) (bytesOf memory rhs) count position := by
  have begins : Agree (bytesOf memory lhs) (bytesOf memory rhs) count 0 :=
    ⟨Nat.zero_le _, fun i below => absurd below (Nat.not_lt_zero i)⟩
  have registers : ∃ scan, registerScan memory lhs rhs count arch = .ok scan ∧
      scan.Sound (bytesOf memory lhs) (bytesOf memory rhs) count := by
    rw [registerScan]
    split
    · exact ⟨_, rfl, begins⟩
    · exact (registerRound_advances memory arch left right).run_ok _ _ _ begins (by omega)
  obtain ⟨scan, scanned, sound⟩ := registers
  rw [commonBytes, scanned, ok_bind]
  cases scan with
  | found at_ => exact ⟨at_, rfl, sound⟩
  | resume at_ =>
      obtain ⟨scan, scanned, sound⟩ := (scalarRound_advances memory native left right).run_ok
        "endless comparison" (count + 1) at_ sound (by omega)
      dsimp only
      rw [scanned, ok_bind]
      cases scan with
      | found at_ => exact ⟨at_, rfl, sound⟩
      | resume at_ =>
          exact (byteRound_advances memory left right).run_ok _ _ _ sound (by omega)

end Rounds

end KeyDetail

namespace BitView

open KeyDetail ProfileDetail

variable (memory : Memory) (a b : BitView)

/-- The comparison of the first meaningful bits, when they differ. -/
def compareFirst : Result (Option BitComparison) :=
  if min a.size b.size = 0 then .ok none
  else do
    let x ← a.bytes.read memory (a.offset / 8)
    let y ← b.bytes.read memory (b.offset / 8)
    let x := x.getLsbD (7 - a.offset % 8)
    let y := y.getLsbD (7 - b.offset % 8)
    .ok (if x ≠ y then some ⟨0, if x then .gt else .lt⟩ else none)

/-- The whole bytes which agree, or the comparison in the first one which does not. -/
def compareBytes (arch : Architecture) (native : Endian) : Result (ℕ ⊕ BitComparison) :=
  let count := min a.size b.size
  if 8 ≤ count ∧ a.offset % 8 = 0 ∧ b.offset % 8 = 0 then do
    let lhs : ByteSpan := ⟨a.bytes.data + a.offset / 8, count / 8⟩
    let rhs : ByteSpan := ⟨b.bytes.data + b.offset / 8, count / 8⟩
    let common ← commonBytes memory lhs rhs (count / 8) arch native
    let at_ := common * 8
    if 8 ≤ count - at_ then do
      let x ← loadBits native a memory at_ 8
      let y ← loadBits native b memory at_ 8
      .ok (.inr ⟨at_ + countlZero (x ^^^ y) - 56, if x < y then .lt else .gt⟩)
    else .ok (.inl at_)
  else .ok (.inl 0)

/-- A round of the loop over fields. -/
def compareRound (native : Endian) (at_ : ℕ) : Result (ℕ ⊕ BitComparison) :=
  let count := min a.size b.size
  if at_ = count then .ok (.inr ⟨count, compare a.size b.size⟩)
  else do
    let width := min (count - at_) 64
    let x ← loadBits native a memory at_ width
    let y ← loadBits native b memory at_ width
    let different := x ^^^ y
    .ok (if different = 0#64 then .inl (at_ + width)
      else .inr ⟨at_ + countlZero different - (64 - width), if x < y then .lt else .gt⟩)

/-- `compare_common_bits`. -/
def compareCommonBits (arch : Architecture) (native : Endian) : Result BitComparison := do
  let first ← compareFirst memory a b
  match first with
  | some comparison => .ok comparison
  | none => do
      let bytes ← compareBytes memory a b arch native
      match bytes with
      | .inr comparison => .ok comparison
      | .inl at_ =>
          Loop.run "endless comparison" (compareRound memory a b native) (min a.size b.size + 1) at_

variable {memory a b}

/-- Both views have the same bits before a position. -/
def Shared (memory : Memory) (a b : BitView) (at_ : ℕ) : Prop :=
  at_ ≤ min a.size b.size ∧ ∀ i < at_, bitOf memory (a.start + i) = bitOf memory (b.start + i)

theorem take_bits (view : BitView) {count : ℕ} (inside : count ≤ view.size) :
    (view.bits memory).take count =
      (List.range count).map fun i => bitOf memory (view.start + i) := by
  rw [bits, ← List.map_take, List.take_range, Nat.min_eq_left inside]

theorem Shared.take_eq {at_ : ℕ} (shared : Shared memory a b at_) :
    (a.bits memory).take at_ = (b.bits memory).take at_ := by
  obtain ⟨inside, same⟩ := shared
  rw [a.take_bits (by omega), b.take_bits (by omega)]
  exact List.map_congr_left fun i member => same i (List.mem_range.mp member)

/-- The bits behind shared ones may be shared as well. -/
theorem Shared.extend {at_ width : ℕ} (shared : Shared memory a b at_)
    (inside : at_ + width ≤ min a.size b.size)
    (same : ∀ i < width, bitOf memory (a.start + at_ + i) = bitOf memory (b.start + at_ + i)) :
    Shared memory a b (at_ + width) := by
  refine ⟨inside, fun i below => ?_⟩
  by_cases before : i < at_
  · exact shared.2 i before
  · have next := same (i - at_) (by omega)
    have place : ∀ start, start + at_ + (i - at_) = start + i := fun start => by omega
    rwa [place, place] at next

/-- The comparison at the first difference. -/
theorem Shared.differ {at_ : ℕ} (shared : Shared memory a b at_) (inside : at_ < min a.size b.size)
    (differ : bitOf memory (a.start + at_) ≠ bitOf memory (b.start + at_)) :
    Everett.compareCommonBits (a.bits memory) (b.bits memory) =
      ⟨at_, if bitOf memory (a.start + at_) then .gt else .lt⟩ := by
  obtain ⟨common, order⟩ := Word.compare_of_difference shared.take_eq
    (a.getElem?_bits memory (by omega)) (b.getElem?_bits memory (by omega)) differ
  rw [Everett.compareCommonBits, common, order]
  generalize bitOf memory (a.start + at_) = x at differ ⊢
  generalize bitOf memory (b.start + at_) = y at differ ⊢
  cases x <;> cases y <;> first | rfl | exact absurd rfl differ

/-- The comparison when one view is a prefix of the other. -/
theorem Shared.whole (shared : Shared memory a b (min a.size b.size)) :
    Everett.compareCommonBits (a.bits memory) (b.bits memory) =
      ⟨min a.size b.size, compare a.size b.size⟩ := by
  have agree := shared.take_eq
  rw [← a.length_bits memory, ← b.length_bits memory] at agree
  obtain ⟨common, order⟩ := Word.compare_of_agreement agree
  rw [Everett.compareCommonBits, common, order, length_bits, length_bits]

/-- Two fields behind shared bits show the first difference, if they have one. -/
theorem Shared.field {at_ : ℕ} (shared : Shared memory a b at_) (width : ℕ)
    (inside : at_ + width ≤ min a.size b.size) (small : width ≤ 64) :
    (fieldOf (bitOf memory) (a.start + at_) width ^^^ fieldOf (bitOf memory) (b.start + at_) width =
        0#64 → Shared memory a b (at_ + width)) ∧
    (fieldOf (bitOf memory) (a.start + at_) width ^^^ fieldOf (bitOf memory) (b.start + at_) width ≠
        0#64 →
      Everett.compareCommonBits (a.bits memory) (b.bits memory) =
        ⟨at_ + countlZero (fieldOf (bitOf memory) (a.start + at_) width ^^^
            fieldOf (bitOf memory) (b.start + at_) width) - (64 - width),
          if fieldOf (bitOf memory) (a.start + at_) width <
            fieldOf (bitOf memory) (b.start + at_) width then .lt else .gt⟩) := by
  have same_of_lead : ∀ {d : ℕ}, d ≤ lead (fun i => bitOf memory (a.start + at_ + i) ^^
      bitOf memory (b.start + at_ + i)) width 0 → ∀ i < d,
      bitOf memory (a.start + at_ + i) = bitOf memory (b.start + at_ + i) := by
    intro d least i below
    have clear := clear_of_lt_lead (below.trans_le least)
    rw [Nat.zero_add] at clear
    simpa using clear
  rw [fieldOf_xor, countlZero_fieldOf _ _ small]
  generalize lead_eq : lead (fun i => bitOf memory (a.start + at_ + i) ^^
    bitOf memory (b.start + at_ + i)) width 0 = d at same_of_lead
  have least : d ≤ width := lead_eq ▸ lead_le _ _ _
  rw [ne_eq, fieldOf_eq_zero_iff small, lead_eq]
  refine ⟨fun equal => ?_, fun different => ?_⟩
  · subst equal
    exact shared.extend inside (same_of_lead le_rfl)
  · have set := set_of_lead_lt (lead_eq.trans_lt (least.lt_of_ne different))
    rw [lead_eq, Nat.zero_add] at set
    have differ : bitOf memory (a.start + at_ + d) ≠ bitOf memory (b.start + at_ + d) := by
      simpa using set
    have upto := shared.extend (by omega) (same_of_lead le_rfl)
    have compared := upto.differ (by omega) (by rwa [← Nat.add_assoc, ← Nat.add_assoc])
    have position : at_ + (64 - width + d) - (64 - width) = at_ + d := by omega
    rw [compared, position, ← Nat.add_assoc]
    cases low : bitOf memory (a.start + at_ + d) with
    | false =>
        rw [low] at differ
        have high : bitOf memory (b.start + at_ + d) = true := by simpa using differ.symm
        rw [if_pos (fieldOf_lt small (by omega) (same_of_lead le_rfl) low high)]
        rfl
    | true =>
        rw [low] at differ
        have high : bitOf memory (b.start + at_ + d) = false := by simpa using differ.symm
        have less := fieldOf_lt small (by omega)
          (fun i below => (same_of_lead le_rfl i below).symm) high low
        rw [if_neg (BitVec.lt_asymm less)]
        rfl

/-- The comparison of the first bits is the one of the views, if they differ. -/
theorem compareFirst_ok (memory : Memory) (a b : BitView) :
    ∃ first, compareFirst memory a b = .ok first ∧ ∀ comparison, first = some comparison →
      comparison = Everett.compareCommonBits (a.bits memory) (b.bits memory) := by
  rw [compareFirst]
  split
  · exact ⟨none, rfl, nofun⟩
  · have left := a.fits
    have right := b.fits
    have bit : ∀ view : BitView, (memory (view.bytes.data + view.offset / 8)).getLsbD
        (7 - view.offset % 8) = bitOf memory (view.start + 0) := by
      intro view
      have place : (view.start + 0) / 8 = view.bytes.data + view.offset / 8 ∧
          (view.start + 0) % 8 = view.offset % 8 := by
        rw [start]
        omega
      rw [bitOf, place.1, place.2]
    have none_yet : Shared memory a b 0 :=
      ⟨Nat.zero_le _, fun i below => absurd below (Nat.not_lt_zero i)⟩
    rw [ByteSpan.read_ok memory (by omega), ok_bind, ByteSpan.read_ok memory (by omega), ok_bind]
    dsimp only
    rw [bit, bit]
    refine ⟨_, rfl, fun comparison found => ?_⟩
    split at found
    · cases found
      rw [none_yet.differ (by omega) ‹_›]
    · cases found

/-- Whole bytes which agree are shared, and a byte which does not decides the comparison. -/
theorem compareBytes_ok (memory : Memory) (a b : BitView) (arch : Architecture)
    (native : Endian) :
    (∃ at_, compareBytes memory a b arch native = .ok (.inl at_) ∧ Shared memory a b at_) ∨
    compareBytes memory a b arch native =
      .ok (.inr (Everett.compareCommonBits (a.bits memory) (b.bits memory))) := by
  have none_yet : Shared memory a b 0 :=
    ⟨Nat.zero_le _, fun i below => absurd below (Nat.not_lt_zero i)⟩
  rw [compareBytes]
  dsimp only
  split
  · rename_i aligned
    obtain ⟨long, left_aligned, right_aligned⟩ := aligned
    generalize count_eq : min a.size b.size = count at *
    obtain ⟨common, found, agree, ended⟩ :=
      @commonBytes_ok (count / 8) memory ⟨a.bytes.data + a.offset / 8, count / 8⟩
        ⟨b.bytes.data + b.offset / 8, count / 8⟩ arch native le_rfl le_rfl
    have place : ∀ view : BitView, view.offset % 8 = 0 → ∀ i,
        (view.start + i) / 8 = view.bytes.data + view.offset / 8 + i / 8 ∧
          (view.start + i) % 8 = i % 8 := by
      intro view view_aligned i
      rw [start]
      omega
    have bit : ∀ view : BitView, view.offset % 8 = 0 → ∀ i, bitOf memory (view.start + i) =
        (bytesOf memory ⟨view.bytes.data + view.offset / 8, count / 8⟩ (i / 8)).getLsbD
          (7 - i % 8) := by
      intro view view_aligned i
      rw [bitOf, (place view view_aligned i).1, (place view view_aligned i).2, bytesOf]
    have within := agree.1
    have shared : Shared memory a b (common * 8) := by
      refine ⟨by omega, fun i below => ?_⟩
      rw [bit a left_aligned, bit b right_aligned, agree.2 (i / 8) (by omega)]
    rw [found, ok_bind]
    split
    · rename_i more
      rw [loadBits_ok native a memory (by omega) (by decide), ok_bind,
        loadBits_ok native b memory (by omega) (by decide), ok_bind]
      obtain ⟨equal, different⟩ := shared.field 8 (by omega) (by decide)
      by_cases same : fieldOf (bitOf memory) (a.start + common * 8) 8 ^^^
          fieldOf (bitOf memory) (b.start + common * 8) 8 = 0#64
      · have longer := equal same
        refine absurd (BitVec.eq_of_getLsbD_eq fun i small => ?_) (ended (by omega))
        have next := longer.2 (common * 8 + (7 - i)) (by omega)
        have index : (common * 8 + (7 - i)) / 8 = common ∧
            7 - (common * 8 + (7 - i)) % 8 = i := by omega
        rwa [bit a left_aligned, bit b right_aligned, index.1, index.2] at next
      · rw [different same]
        exact .inr rfl
    · exact .inl ⟨_, rfl, shared⟩
  · exact .inl ⟨0, rfl, none_yet⟩

theorem compareRound_advances (memory : Memory) (a b : BitView) (native : Endian) :
    Loop.Advances (compareRound memory a b native) (Shared memory a b)
      (fun at_ => min a.size b.size - at_)
      (fun comparison =>
        comparison = Everett.compareCommonBits (a.bits memory) (b.bits memory)) := by
  intro at_ shared
  have within := shared.1
  rw [compareRound]
  dsimp only
  by_cases ended : at_ = min a.size b.size
  · rw [if_pos ended]
    subst ended
    exact .inr ⟨_, rfl, shared.whole.symm⟩
  · rw [if_neg ended]
    generalize width_eq : min (min a.size b.size - at_) 64 = width
    rw [loadBits_ok native a memory (by omega) (by omega), ok_bind,
      loadBits_ok native b memory (by omega) (by omega), ok_bind]
    obtain ⟨equal, different⟩ := shared.field width (by omega) (by omega)
    split
    · exact .inl ⟨_, rfl, equal ‹_›, by omega⟩
    · exact .inr ⟨_, rfl, (different ‹_›).symm⟩

/-- The comparison of two views is the one of their bits, on every architecture. -/
theorem compareCommonBits_ok (memory : Memory) (a b : BitView) (arch : Architecture)
    (native : Endian) :
    compareCommonBits memory a b arch native =
      .ok (Everett.compareCommonBits (a.bits memory) (b.bits memory)) := by
  obtain ⟨first, compared, decided⟩ := compareFirst_ok memory a b
  rw [compareCommonBits, compared, ok_bind]
  cases first with
  | some comparison => rw [decided comparison rfl]
  | none =>
      obtain ⟨at_, bytes, shared⟩ | bytes := compareBytes_ok memory a b arch native
      · obtain ⟨comparison, ran, same⟩ := (compareRound_advances memory a b native).run_ok
          "endless comparison" (min a.size b.size + 1) at_ shared (by omega)
        dsimp only
        rw [bytes, ok_bind]
        exact ran.trans (congrArg Except.ok same)
      · dsimp only
        rw [bytes, ok_bind]

end BitView

/-- A copy moves exactly the bits of its source, which may overlap its target, and no others, and
comparisons are those of the bits, wherever the views lie and whatever machine runs them. -/
theorem bit_moves_and_comparisons (native : Endian) (memory : Memory) :
    (∀ (target : ByteSpan) (first : ℕ) (source : BitView),
      first + source.size ≤ 8 * target.size →
      ∃ after, ProfileDetail.copyBits native target first source memory = .ok after ∧
        ∀ position, bitOf after position =
          if 8 * target.data + first ≤ position ∧
              position < 8 * target.data + first + source.size then
            bitOf memory (source.start + (position - (8 * target.data + first)))
          else bitOf memory position) ∧
    ∀ (arch : KeyDetail.Architecture) (a b : BitView),
      BitView.compareCommonBits memory a b arch native =
        .ok (compareCommonBits (a.bits memory) (b.bits memory)) :=
  ⟨fun _ _ _ fits => ProfileDetail.copyBits_ok native memory fits,
    fun arch a b => BitView.compareCommonBits_ok memory a b arch native⟩

/-- Twenty bits move by three within four bytes. -/
theorem bit_moves_within_buffer :
    let memory : Memory := fun address => BitVec.ofNat 8 (37 * address + 11)
    let source : BitView := ⟨⟨0, 4⟩, 2, 20, by decide, by decide⟩
    ∃ after, ProfileDetail.copyBits .little ⟨0, 4⟩ 5 source memory = .ok after ∧
      ∀ position, bitOf after position =
        if 8 * 0 + 5 ≤ position ∧ position < 8 * 0 + 5 + 20 then
          bitOf memory (source.start + (position - (8 * 0 + 5)))
        else bitOf memory position := by
  intro memory source
  exact (bit_moves_and_comparisons .little memory).1 ⟨0, 4⟩ 5 source (by decide)

end Everett

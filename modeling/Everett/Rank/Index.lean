import Everett.Bits
import Everett.Library.BitWords

/-!
# Bit rank

`rank_index` keeps for every block of 2048 bits its rank in an epoch of `2 ^ 32` bits and the
populations of its first three runs of 512 bits; `rank_view` adds them up.
-/

namespace Everett.Rank

open BitWords Outcome

/-! ## Kernels -/

/-- `prefix512_portable`. -/
def prefix512Portable (words : List (BitVec 64)) (bits : ℕ) : ℕ :=
  let whole := (List.range (bits / 64)).foldl
    (fun result word => result + popcount (words[word]?.getD 0#64)) 0
  if bits % 64 ≠ 0 then
    whole + popcount ((words[bits / 64]?.getD 0#64) &&& below (bits % 64))
  else whole

/-- `popcount512_portable`. -/
def popcount512Portable (words : List (BitVec 64)) : ℕ :=
  (List.range 8).foldl (fun total i => total + popcount (words[i]?.getD 0#64)) 0

theorem ones_words (words : List (BitVec 64)) (count : ℕ) :
    (List.range count).foldl (fun result word => result + popcount (words[word]?.getD 0#64)) 0 =
      ones (bitAt words) (64 * count) := by
  induction count with
  | zero => rfl
  | succ count induction =>
      rw [List.range_succ, List.foldl_append, induction, ones_word]
      rfl

theorem prefix512Portable_eq (words : List (BitVec 64)) (bits : ℕ) :
    prefix512Portable words bits = ones (bitAt words) bits := by
  have split := Nat.div_add_mod bits 64
  unfold prefix512Portable
  rw [ones_words]
  dsimp only
  split_ifs with rest
  · rw [← ones_masked words _ (Nat.mod_lt bits (by decide)), split]
  · rw [not_not.mp rest, Nat.add_zero] at split
    rw [split]

theorem popcount512Portable_eq (words : List (BitVec 64)) :
    popcount512Portable words = ones (bitAt words) 512 := ones_words words 8

/-- The vector form of `prefix512`: every word is masked by its place against the boundary, and the
populations of all lanes are added up. -/
def prefix512Vectors (words : List (BitVec 64)) (bits : ℕ) : ℕ :=
  let boundary := bits / 64
  (List.range 8).foldl (fun total position => total + popcount ((words[position]?.getD 0#64) &&&
    (if position < boundary then BitVec.allOnes 64
      else if position = boundary then below (bits % 64) else 0#64))) 0

theorem prefix512Vectors_eq (words : List (BitVec 64)) {bits : ℕ} (small : bits < 512) :
    prefix512Vectors words bits = ones (bitAt words) bits := by
  have loop : ∀ count, (List.range count).foldl (fun total position => total +
      popcount ((words[position]?.getD 0#64) &&&
        (if position < bits / 64 then BitVec.allOnes 64
          else if position = bits / 64 then below (bits % 64) else 0#64))) 0 =
      ones (bitAt words) (min (64 * count) bits) := by
    intro count
    induction count with
    | zero => rw [Nat.mul_zero, Nat.zero_min]; rfl
    | succ count induction =>
        rw [List.range_succ, List.foldl_append, induction]
        simp only [List.foldl_cons, List.foldl_nil]
        have split := Nat.div_add_mod bits 64
        have lane := Nat.mod_lt bits (y := 64) (by decide)
        rcases lt_trichotomy count (bits / 64) with less | same | more
        · rw [if_pos less, BitVec.and_allOnes, min_eq_left (by omega), min_eq_left (by omega),
            ones_word]
        · rw [if_neg same.not_lt, if_pos same, min_eq_left (by omega), min_eq_right (by omega),
            ← ones_masked words count lane, same, split]
        · rw [if_neg more.not_gt, if_neg more.ne', BitVec.and_zero, min_eq_right (by omega),
            min_eq_right (by omega)]
          rfl
  have whole := loop 8
  rwa [min_eq_right (by omega)] at whole

/-- The population kernels of an architecture.  Those of a vector architecture read eight words at
once and count the same bits. -/
structure Kernel where
  scalar : Bool
  popcount512 : List (BitVec 64) → ℕ
  prefix512 : List (BitVec 64) → ℕ → ℕ
  popcount512_eq : ∀ words, 8 ≤ words.length → popcount512 words = ones (bitAt words) 512
  prefix512_eq : ∀ words bits, 8 ≤ words.length → bits < 512 →
    prefix512 words bits = ones (bitAt words) bits

/-- The kernels of `simd::scalar`. -/
def Kernel.portable : Kernel where
  scalar := true
  popcount512 := popcount512Portable
  prefix512 := prefix512Portable
  popcount512_eq words _ := popcount512Portable_eq words
  prefix512_eq words bits _ _ := prefix512Portable_eq words bits

/-- The kernels of a vector architecture. -/
def Kernel.vector : Kernel where
  scalar := false
  popcount512 := popcount512Portable
  prefix512 := prefix512Vectors
  popcount512_eq words _ := popcount512Portable_eq words
  prefix512_eq words _ _ small := prefix512Vectors_eq words small

/-! ## Directory -/

/-- `rank_block`: the rank of a block in its epoch, and three populations at bits 0, 11 and 22. -/
structure RankBlock where
  before : BitVec 32
  runs : BitVec 32
  deriving DecidableEq, Repr

/-- The populations of three runs in one word. -/
def packRuns (a b c : ℕ) : BitVec 32 :=
  BitVec.ofNat 32 a ||| BitVec.ofNat 32 b <<< 11 ||| BitVec.ofNat 32 c <<< 22

/-- `run_prefix`. -/
def runPrefix (packed : BitVec 32) (run : ℕ) : ℕ :=
  let selected := packed.setWidth 64 &&& below (11 * run)
  ((selected * 0x400801#64) >>> 22 &&& 2047#64).toNat

/-- `starts_epoch`. -/
def startsEpoch (block : ℕ) : Bool := block % 2 ^ 21 = 0

/-- What `build` has made so far. -/
structure Building where
  blocks : List RankBlock
  supers : List ℕ
  epochBase : ℕ
  total : ℕ

/-- `begin_block`, with `directory_cursor::before`: the relative count of a block. -/
def beginBlock (state : Building) (block : ℕ) : Result (BitVec 32 × Building) :=
  let base := if startsEpoch block then state.total else state.epochBase
  if state.total < base ∨ 2 ^ 32 - 1 < state.total - base then .error "rank relative count"
  else .ok (BitVec.ofNat 32 (state.total - base), { state with
    epochBase := base
    supers := if startsEpoch block then state.supers ++ [base] else state.supers })

/-- Complete the entry of a block. -/
def endBlock (state : Building) (before : BitVec 32) (a b c d : ℕ) : Building :=
  { state with
    blocks := state.blocks ++ [⟨before, packRuns a b c⟩]
    total := (state.total + (a + b + c + d)) % 2 ^ 64 }

/-- A block of 2048 bits. -/
def fullBlock (kernel : Kernel) (words : List (BitVec 64)) (state : Building) (block : ℕ) :
    Result Building := do
  let (before, state) ← beginBlock state block
  let words := words.drop (block * 32)
  .ok (endBlock state before (kernel.popcount512 words) (kernel.popcount512 (words.drop 8))
    (kernel.popcount512 (words.drop 16)) (kernel.popcount512 (words.drop 24)))

/-- The loop over the words of the final partial block. -/
def tailCounts (words : List (BitVec 64)) (count : ℕ) : List ℕ :=
  (List.range count).foldl
    (fun counts word => counts.modify (word / 8) (· + popcount (words[word]?.getD 0#64)))
    [0, 0, 0, 0]

/-- The final partial block. -/
def tailBlock (words : List (BitVec 64)) (state : Building) (block : ℕ) : Result Building := do
  let (before, state) ← beginBlock state block
  let words := words.drop (block * 32)
  let counts := tailCounts words words.length
  .ok (endBlock state before (counts[0]?.getD 0) (counts[1]?.getD 0) (counts[2]?.getD 0)
    (counts[3]?.getD 0))

/-- `rank_index`. -/
structure RankIndex where
  words : List (BitVec 64)
  blocks : List RankBlock
  supers : List ℕ
  bitCount : ℕ

/-- Largest admitted number of bits. -/
def maximumBits : ℕ := 2 ^ 64 - 1 - 0xffffffff

/-- The copy of the source, without the unused bits of its final word. -/
def ownWords (source : List (BitVec 64)) (bits : ℕ) : List (BitVec 64) :=
  if bits % 64 ≠ 0 then source.modify (source.length - 1) (· &&& below (bits % 64)) else source

/-- `rank_index::build`. -/
def build (kernel : Kernel) (source : List (BitVec 64)) (bits : ℕ) : Result RankIndex :=
  if maximumBits < bits ∨ source.length ≠ (bits + 63) / 64 then .error "rank source length"
  else do
    let words := ownWords source bits
    let state ← (List.range (bits / 2048)).foldlM (fullBlock kernel words) ⟨[], [], 0, 0⟩
    let state ←
      if bits / 2048 ≠ (bits + 2047) / 2048 then tailBlock words state (bits / 2048) else .ok state
    .ok ⟨words, state.blocks, state.supers, bits⟩

/-- The checks of `rank_view`. -/
def view (index : RankIndex) : Result RankIndex :=
  if maximumBits < index.bitCount ∨ index.words.length ≠ (index.bitCount + 63) / 64 ∨
      index.blocks.length ≠ (index.bitCount + 2047) / 2048 ∨
      index.supers.length ≠ (index.bitCount + 0xffffffff) / 2 ^ 32 then
    .error "invalid rank spans"
  else .ok index

/-- `rank_view::rank`. -/
def rank (kernel : Kernel) (index : RankIndex) (position : ℕ) : Result ℕ :=
  if index.bitCount ≤ position then .error "rank position"
  else
    let block := index.blocks[position / 2048]?.getD ⟨0, 0⟩
    let run := position / 512 % 4
    let result := index.supers[position / 2 ^ 32]?.getD 0 + block.before.toNat +
      runPrefix block.runs run
    let words := index.words.drop (position / 512 * 8)
    let bits := position % 512
    .ok ((if bits = 0 then result
      else if ¬kernel.scalar ∧ 8 ≤ words.length then result + kernel.prefix512 words bits
      else result + prefix512Portable words bits) % 2 ^ 64)

/-- `rank_view::count`. -/
def count (kernel : Kernel) (index : RankIndex) : Result ℕ :=
  if index.bitCount = 0 then .ok 0
  else do
    let last := index.bitCount - 1
    let before ← rank kernel index last
    .ok (before + ((index.words[last / 64]?.getD 0#64).getLsbD (last % 64)).toNat)

/-! ## Runs -/

theorem packRuns_toNat {a b c : ℕ} (small_a : a ≤ 512) (small_b : b ≤ 512) (small_c : c ≤ 512) :
    (packRuns a b c).toNat = a + 2 ^ 11 * b + 2 ^ 22 * c := by
  have first : a ||| b <<< 11 = a + 2 ^ 11 * b := by
    rw [Nat.or_comm, ← Nat.shiftLeft_add_eq_or_of_lt (by omega), Nat.shiftLeft_eq]
    omega
  have second : (a + 2 ^ 11 * b) ||| c <<< 22 = a + 2 ^ 11 * b + 2 ^ 22 * c := by
    rw [Nat.or_comm, ← Nat.shiftLeft_add_eq_or_of_lt (by omega), Nat.shiftLeft_eq]
    omega
  rw [packRuns, BitVec.toNat_or, BitVec.toNat_or, BitVec.toNat_shiftLeft, BitVec.toNat_shiftLeft,
    BitVec.toNat_ofNat, BitVec.toNat_ofNat, BitVec.toNat_ofNat, Nat.mod_eq_of_lt (by omega),
    Nat.mod_eq_of_lt (a := b) (by omega), Nat.mod_eq_of_lt (a := c) (by omega),
    Nat.mod_eq_of_lt (by rw [Nat.shiftLeft_eq]; omega),
    Nat.mod_eq_of_lt (by rw [Nat.shiftLeft_eq]; omega), first, second]

theorem below_toNat {k : ℕ} (small : k < 64) : (below k).toNat = 2 ^ k - 1 := by
  apply Nat.eq_of_testBit_eq
  intro i
  rw [Nat.testBit_two_pow_sub_one]
  exact getLsbD_below small i

/-- Lanes below a carry add up at bit 22 of the product. -/
theorem lanes_sum {x y z : ℕ} (small_x : x ≤ 512) (small_y : y ≤ 512) (small_z : z ≤ 512) :
    (x + 2 ^ 11 * y + 2 ^ 22 * z) * 0x400801 % 2 ^ 64 / 2 ^ 22 % 2 ^ 11 = x + y + z := by
  have product : (x + 2 ^ 11 * y + 2 ^ 22 * z) * 0x400801 =
      x + 2 ^ 11 * (x + y) + 2 ^ 22 * (x + y + z + 2 ^ 11 * (y + z + 2 ^ 11 * z)) := by
    ring
  have fits : x + 2 ^ 11 * (x + y) + 2 ^ 22 * (x + y + z + 2 ^ 11 * (y + z + 2 ^ 11 * z)) <
      2 ^ 64 := by omega
  have low : x + 2 ^ 11 * (x + y) < 2 ^ 22 := by omega
  have lane : x + y + z < 2 ^ 11 := by omega
  rw [product, Nat.mod_eq_of_lt fits, Nat.add_mul_div_left _ _ (by decide), Nat.div_eq_of_lt low,
    Nat.zero_add, Nat.add_mul_mod_self_left, Nat.mod_eq_of_lt lane]

/-- One multiplication adds up the lanes below a run. -/
theorem runPrefix_eq {a b c : ℕ} (small_a : a ≤ 512) (small_b : b ≤ 512) (small_c : c ≤ 512)
    {run : ℕ} (small : run < 4) :
    runPrefix (packRuns a b c) run = [0, a, a + b, a + b + c][run]?.getD 0 := by
  have packed := packRuns_toNat small_a small_b small_c
  have selected : ((packRuns a b c).setWidth 64 &&& below (11 * run)).toNat =
      (a + 2 ^ 11 * b + 2 ^ 22 * c) % 2 ^ (11 * run) := by
    rw [BitVec.toNat_and, below_toNat (by omega), BitVec.toNat_setWidth, packed,
      Nat.and_two_pow_sub_one_eq_mod, Nat.mod_eq_of_lt (a := _ + _) (by omega)]
  have sum : runPrefix (packRuns a b c) run =
      (a + 2 ^ 11 * b + 2 ^ 22 * c) % 2 ^ (11 * run) * 0x400801 % 2 ^ 64 / 2 ^ 22 % 2 ^ 11 := by
    rw [runPrefix, BitVec.toNat_and, BitVec.toNat_ushiftRight, BitVec.toNat_mul, selected]
    change (_ >>> 22) &&& (2 ^ 11 - 1) = _
    rw [Nat.and_two_pow_sub_one_eq_mod, Nat.shiftRight_eq_div_pow]
    rfl
  have cut : (a + 2 ^ 11 * b + 2 ^ 22 * c) % 2 ^ (11 * run) =
      [0, a + 2 ^ 11 * 0 + 2 ^ 22 * 0, a + 2 ^ 11 * b + 2 ^ 22 * 0,
        a + 2 ^ 11 * b + 2 ^ 22 * c][run]?.getD 0 := by
    interval_cases run
    · exact Nat.mod_one _
    · change _ % 2048 = a + 2 ^ 11 * 0 + 2 ^ 22 * 0
      omega
    · change _ % 4194304 = a + 2 ^ 11 * b + 2 ^ 22 * 0
      omega
    · change _ % 8589934592 = a + 2 ^ 11 * b + 2 ^ 22 * c
      omega
  rw [sum, cut]
  interval_cases run
  · exact lanes_sum (x := 0) (y := 0) (z := 0) (by decide) (by decide) (by decide)
  · exact lanes_sum small_a (by decide) (by decide)
  · exact lanes_sum small_a small_b (by decide)
  · exact lanes_sum small_a small_b small_c

end Everett.Rank

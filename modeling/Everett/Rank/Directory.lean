import Everett.Rank.Index

/-!
# Exactness of bit rank

The directory of a bit vector holds the exact counts of every block, run and epoch, so that a rank
query adds up to the number of bits before its position.
-/

namespace Everett.Rank

open BitWords Outcome

variable {words : List (BitVec 64)} {state : Building} {n : ℕ}

/-- The populations of the four runs of a block. -/
structure Counts (g : ℕ → Bool) (a b c d : ℕ) : Prop where
  first : ones g 512 = a
  second : ones g 1024 = a + b
  third : ones g 1536 = a + b + c
  fourth : ones g 2048 = a + b + c + d

theorem ones_add_le (f : ℕ → Bool) (m k : ℕ) : ones f (m + k) ≤ ones f m + k := by
  rw [ones_add]
  exact Nat.add_le_add_left (ones_le _ _) _

/-- Lanes of ten bits hold the populations of runs. -/
theorem Counts.le {g : ℕ → Bool} {a b c d : ℕ} (counts : Counts g a b c d) :
    a ≤ 512 ∧ b ≤ 512 ∧ c ≤ 512 ∧ d ≤ 512 := by
  obtain ⟨first, second, third, fourth⟩ := counts
  have one := ones_le g 512
  have two := ones_add_le g 512 512
  have three := ones_add_le g 1024 512
  have four := ones_add_le g 1536 512
  simp only [Nat.reduceAdd] at two three four
  refine ⟨?_, ?_, ?_, ?_⟩ <;> omega

/-- The entry of a block is exact. -/
structure Entry (words : List (BitVec 64)) (block : ℕ) (entry : RankBlock) : Prop where
  runs : ∃ a b c d, Counts (bitAt (words.drop (block * 32))) a b c d ∧
    entry.runs = packRuns a b c
  before : entry.before.toNat + ones (bitAt words) (2 ^ 32 * (block / 2 ^ 21)) =
    ones (bitAt words) (2048 * block)

/-- The directory of the blocks before one. -/
structure Built (words : List (BitVec 64)) (n : ℕ) (state : Building) : Prop where
  total : state.total = ones (bitAt words) (2048 * n)
  blocks : state.blocks.length = n
  entries : ∀ b entry, state.blocks[b]? = some entry → Entry words b entry
  supers : state.supers.length = (n + 2 ^ 21 - 1) / 2 ^ 21
  epochs : ∀ e base, state.supers[e]? = some base → base = ones (bitAt words) (2 ^ 32 * e)
  base : 0 < n → state.epochBase = ones (bitAt words) (2 ^ 32 * ((n - 1) / 2 ^ 21))

theorem built_nil (words : List (BitVec 64)) : Built words 0 ⟨[], [], 0, 0⟩ where
  total := rfl
  blocks := rfl
  entries := by simp
  supers := rfl
  epochs := by simp
  base := fun positive => absurd positive (Nat.lt_irrefl 0)

/-- The relative count of a block fits in 32 bits. -/
theorem Built.begin (built : Built words n state) :
    ∃ before next, beginBlock state n = .ok (before, next) ∧
      before.toNat + ones (bitAt words) (2 ^ 32 * (n / 2 ^ 21)) = ones (bitAt words) (2048 * n) ∧
      next.blocks = state.blocks ∧ next.total = state.total ∧
      next.epochBase = ones (bitAt words) (2 ^ 32 * (n / 2 ^ 21)) ∧
      next.supers.length = (n + 1 + 2 ^ 21 - 1) / 2 ^ 21 ∧
      ∀ e base, next.supers[e]? = some base → base = ones (bitAt words) (2 ^ 32 * e) := by
  have total := built.total
  unfold beginBlock
  by_cases starts : n % 2 ^ 21 = 0
  · have marked : startsEpoch n = true := by simpa [startsEpoch] using starts
    have whole : 2 ^ 32 * (n / 2 ^ 21) = 2048 * n := by omega
    have size := built.supers
    rw [marked]
    simp only [if_true, lt_irrefl, Nat.sub_self, Nat.not_lt_zero, or_self, if_false]
    refine ⟨_, _, rfl, ?_, rfl, rfl, ?_, ?_, ?_⟩
    · rw [whole]
      exact Nat.zero_add _
    · rw [whole, ← total]
    · rw [List.length_append, size, List.length_singleton]
      omega
    · intro e base there
      rcases lt_or_ge e state.supers.length with inside | outside
      · rw [List.getElem?_append_left inside] at there
        exact built.epochs e base there
      · rw [List.getElem?_append_right outside] at there
        obtain ⟨last, same⟩ := List.getElem?_eq_some_iff.mp there
        have inside : e - state.supers.length < 1 := last
        have here : e = n / 2 ^ 21 := by omega
        rw [← same, List.getElem_singleton, here, whole, ← total]
  · have unmarked : startsEpoch n = false := by simpa [startsEpoch] using starts
    have positive : 0 < n := by omega
    have same : (n - 1) / 2 ^ 21 = n / 2 ^ 21 := by omega
    have base := built.base positive
    rw [same] at base
    have split : 2048 * n = 2 ^ 32 * (n / 2 ^ 21) + 2048 * (n % 2 ^ 21) := by omega
    have least : state.epochBase ≤ state.total := by
      rw [base, total]
      exact ones_mono _ (by omega)
    have most : state.total ≤ state.epochBase + 2048 * (n % 2 ^ 21) := by
      rw [base, total, split]
      exact ones_add_le _ _ _
    have fits : state.total - state.epochBase < 2 ^ 32 := by omega
    rw [unmarked]
    simp only [Bool.false_eq_true, if_false]
    rw [if_neg (by omega)]
    refine ⟨_, _, rfl, ?_, rfl, rfl, base, ?_, built.epochs⟩
    · rw [BitVec.toNat_ofNat, Nat.mod_eq_of_lt fits, ← base, ← total]
      omega
    · rw [built.supers]
      omega

/-- One more block. -/
theorem Built.finish (built : Built words n state) {next : Building} {before : BitVec 32}
    {a b c d : ℕ} (counts : Counts (bitAt (words.drop (n * 32))) a b c d)
    (fits : 2048 * (n + 1) < 2 ^ 64)
    (relative : before.toNat + ones (bitAt words) (2 ^ 32 * (n / 2 ^ 21)) =
      ones (bitAt words) (2048 * n))
    (blocks : next.blocks = state.blocks) (total : next.total = state.total)
    (base : next.epochBase = ones (bitAt words) (2 ^ 32 * (n / 2 ^ 21)))
    (supers : next.supers.length = (n + 1 + 2 ^ 21 - 1) / 2 ^ 21)
    (epochs : ∀ e base, next.supers[e]? = some base → base = ones (bitAt words) (2 ^ 32 * e)) :
    Built words (n + 1) (endBlock next before a b c d) where
  total := by
    have size : 2048 * n = 64 * (n * 32) := by omega
    have further := ones_drop words (n * 32) 2048
    rw [counts.fourth, ← size] at further
    have small := ones_le (bitAt words) (2048 * (n + 1))
    rw [Nat.mul_add, Nat.mul_one] at small fits ⊢
    change (next.total + (a + b + c + d)) % 2 ^ 64 = _
    rw [total, built.total, ← further, Nat.mod_eq_of_lt (by omega)]
  blocks := by
    change (next.blocks ++ [_]).length = n + 1
    rw [blocks, List.length_append, built.blocks, List.length_singleton]
  entries := by
    intro i entry there
    change (next.blocks ++ [_])[i]? = some entry at there
    rw [blocks] at there
    rcases lt_or_ge i state.blocks.length with inside | outside
    · rw [List.getElem?_append_left inside] at there
      exact built.entries i entry there
    · rw [List.getElem?_append_right outside] at there
      obtain ⟨last, same⟩ := List.getElem?_eq_some_iff.mp there
      have inside : i - state.blocks.length < 1 := last
      have here : i = n := by
        rw [built.blocks] at outside inside
        omega
      rw [← same, List.getElem_singleton, here]
      exact ⟨⟨a, b, c, d, counts, rfl⟩, relative⟩
  supers := supers
  epochs := epochs
  base := fun _ => base

/-! ## Blocks -/

theorem fullBlock_counts (kernel : Kernel) (part : List (BitVec 64)) (whole : 32 ≤ part.length) :
    Counts (bitAt part) (kernel.popcount512 part) (kernel.popcount512 (part.drop 8))
      (kernel.popcount512 (part.drop 16)) (kernel.popcount512 (part.drop 24)) := by
  rw [kernel.popcount512_eq part (by omega),
    kernel.popcount512_eq (part.drop 8) (by rw [List.length_drop]; omega),
    kernel.popcount512_eq (part.drop 16) (by rw [List.length_drop]; omega),
    kernel.popcount512_eq (part.drop 24) (by rw [List.length_drop]; omega)]
  have second := ones_drop part 8 512
  have third := ones_drop part 16 512
  have fourth := ones_drop part 24 512
  exact ⟨rfl, second, third.trans (by rw [second]), fourth.trans (by rw [third, second])⟩

/-- The populations of the words of the tail so far. -/
theorem tailCounts_get (part : List (BitVec 64)) (count : ℕ) (fits : count ≤ 32) {j : ℕ}
    (small : j < 4) :
    (tailCounts part count)[j]?.getD 0 + ones (bitAt part) (min (64 * count) (512 * j)) =
      ones (bitAt part) (min (64 * count) (512 * (j + 1))) ∧ (tailCounts part count).length = 4 := by
  induction count generalizing j with
  | zero =>
      rw [Nat.mul_zero, Nat.zero_min, Nat.zero_min]
      refine ⟨?_, rfl⟩
      interval_cases j <;> rfl
  | succ count induction =>
      obtain ⟨before, size⟩ := induction (by omega) small
      have step : tailCounts part (count + 1) =
          (tailCounts part count).modify (count / 8) (· + popcount (part[count]?.getD 0#64)) := by
        rw [tailCounts, List.range_succ, List.foldl_append]
        rfl
      have word := ones_word part count
      obtain ⟨value, there⟩ : ∃ value, (tailCounts part count)[j]? = some value :=
        ⟨_, List.getElem?_eq_getElem (by omega)⟩
      rw [there, Option.getD_some] at before
      rw [step, List.length_modify, List.getElem?_modify, there]
      refine ⟨?_, size⟩
      rcases lt_trichotomy (count / 8) j with less | rfl | more
      · have apart : count / 8 ≠ j := less.ne
        rw [min_eq_left (by omega), min_eq_left (by omega)] at before ⊢
        simp only [apart, if_false, Option.map_eq_map, Option.map_some, Option.getD_some]
        omega
      · rw [min_eq_right (by omega), min_eq_left (by omega)] at before ⊢
        simp only [if_true, Option.map_eq_map, Option.map_some, Option.getD_some]
        omega
      · have apart : count / 8 ≠ j := more.ne'
        rw [min_eq_right (by omega), min_eq_right (by omega)] at before ⊢
        simp only [apart, if_false, Option.map_eq_map, Option.map_some, Option.getD_some]
        omega

theorem tailBlock_counts (part : List (BitVec 64)) (short : part.length ≤ 32) :
    Counts (bitAt part) ((tailCounts part part.length)[0]?.getD 0)
      ((tailCounts part part.length)[1]?.getD 0) ((tailCounts part part.length)[2]?.getD 0)
      ((tailCounts part part.length)[3]?.getD 0) := by
  have cut : ∀ k, ones (bitAt part) (min (64 * part.length) k) = ones (bitAt part) k := by
    intro k
    rcases le_total k (64 * part.length) with inside | outside
    · rw [min_eq_right inside]
    · rw [min_eq_left outside]
      exact (ones_of_clear (fun i out => bitAt_out out) outside).symm
  have each : ∀ j < 4, (tailCounts part part.length)[j]?.getD 0 + ones (bitAt part) (512 * j) =
      ones (bitAt part) (512 * (j + 1)) := by
    intro j small
    have found := (tailCounts_get part part.length short small).1
    rwa [cut, cut] at found
  have zero := each 0 (by decide)
  have one := each 1 (by decide)
  have two := each 2 (by decide)
  have three := each 3 (by decide)
  simp only [Nat.mul_zero, ones_zero, Nat.reduceMul, Nat.reduceAdd] at zero one two three
  exact ⟨by omega, by omega, by omega, by omega⟩

theorem fullBlock_ok (kernel : Kernel) (built : Built words n state)
    (inside : 32 * (n + 1) ≤ words.length) (fits : 2048 * (n + 1) < 2 ^ 64) :
    ∃ next, fullBlock kernel words state n = .ok next ∧ Built words (n + 1) next := by
  obtain ⟨before, middle, begun, relative, blocks, total, base, supers, epochs⟩ := built.begin
  have counts := fullBlock_counts kernel (words.drop (n * 32)) (by rw [List.length_drop]; omega)
  refine ⟨_, ?_, built.finish counts fits relative blocks total base supers epochs⟩
  rw [fullBlock, begun]
  rfl

theorem tailBlock_ok (built : Built words n state) (short : words.length ≤ 32 * (n + 1))
    (fits : 2048 * (n + 1) < 2 ^ 64) :
    ∃ next, tailBlock words state n = .ok next ∧ Built words (n + 1) next := by
  obtain ⟨before, middle, begun, relative, blocks, total, base, supers, epochs⟩ := built.begin
  have counts := tailBlock_counts (words.drop (n * 32)) (by rw [List.length_drop]; omega)
  refine ⟨_, ?_, built.finish counts fits relative blocks total base supers epochs⟩
  rw [tailBlock, begun]
  rfl

/-- The loop over the full blocks. -/
theorem fullBlocks_ok (kernel : Kernel) (words : List (BitVec 64)) {count : ℕ}
    (inside : 32 * count ≤ words.length) (fits : 2048 * count < 2 ^ 64) :
    ∃ state, (List.range count).foldlM (fullBlock kernel words) ⟨[], [], 0, 0⟩ = .ok state ∧
      Built words count state := by
  induction count with
  | zero => exact ⟨_, rfl, built_nil words⟩
  | succ count induction =>
      obtain ⟨state, run, built⟩ := induction (by omega) (by omega)
      obtain ⟨next, step, further⟩ := fullBlock_ok kernel built inside fits
      refine ⟨next, ?_, further⟩
      rw [List.range_succ, List.foldlM_append, run, ok_bind, List.foldlM_cons, step, ok_bind]
      rfl

/-! ## The whole directory -/

variable {source : List (BitVec 64)} {bits : ℕ}

theorem ownWords_length (source : List (BitVec 64)) (bits : ℕ) :
    (ownWords source bits).length = source.length := by
  unfold ownWords
  split_ifs
  · exact List.length_modify ..
  · rfl

/-- The copy keeps the bits of the source and clears the rest of its final word. -/
theorem bitAt_ownWords (size : source.length = (bits + 63) / 64) (position : ℕ) :
    bitAt (ownWords source bits) position = (decide (position < bits) && bitAt source position) := by
  have split := Nat.div_add_mod bits 64
  have place := Nat.div_add_mod position 64
  have lane := Nat.mod_lt position (y := 64) (by decide)
  rcases lt_or_ge position (64 * source.length) with inside | outside
  · unfold ownWords
    split_ifs with rest
    · have last : source.length - 1 = bits / 64 := by omega
      have small := Nat.mod_lt bits (y := 64) (by decide)
      unfold bitAt
      rw [List.getElem?_modify, last, List.getElem?_eq_getElem (by omega)]
      by_cases here : bits / 64 = position / 64
      · have same : position < bits ↔ position % 64 < bits % 64 := by omega
        simp only [here, if_true, Option.map_eq_map, Option.map_some, Option.getD_some,
          BitVec.getLsbD_and, getLsbD_below small, same]
        exact Bool.and_comm _ _
      · have less : position < bits := by omega
        simp only [here, if_false, Option.map_eq_map, Option.map_some, Option.getD_some, less,
          decide_true, Bool.true_and]
    · have less : position < bits := by omega
      rw [decide_eq_true less, Bool.true_and]
  · rw [bitAt_out (by rw [ownWords_length]; exact outside), bitAt_out outside, Bool.and_false]

theorem ones_ownWords (size : source.length = (bits + 63) / 64) {position : ℕ}
    (inside : position ≤ bits) :
    ones (bitAt (ownWords source bits)) position = ones (bitAt source) position := by
  refine ones_congr fun i less => ?_
  rw [bitAt_ownWords size, decide_eq_true (less.trans_le inside), Bool.true_and]

/-- What holds of a directory. -/
structure Exact (source : List (BitVec 64)) (bits : ℕ) (index : RankIndex) : Prop where
  bitCount : index.bitCount = bits
  size : index.words.length = (bits + 63) / 64
  bounded : bits ≤ maximumBits
  same : ∀ position ≤ bits, ones (bitAt index.words) position = ones (bitAt source) position
  blocks : index.blocks.length = (bits + 2047) / 2048
  entries : ∀ block entry, index.blocks[block]? = some entry → Entry index.words block entry
  supers : index.supers.length = (bits + 0xffffffff) / 2 ^ 32
  epochs : ∀ e base, index.supers[e]? = some base → base = ones (bitAt index.words) (2 ^ 32 * e)

theorem build_ok (kernel : Kernel) (bounded : bits ≤ maximumBits)
    (size : source.length = (bits + 63) / 64) :
    ∃ index, build kernel source bits = .ok index ∧ Exact source bits index := by
  have most : maximumBits = 2 ^ 64 - 2 ^ 32 := rfl
  have length := ownWords_length source bits
  obtain ⟨state, run, built⟩ := @fullBlocks_ok kernel (ownWords source bits) (bits / 2048)
    (by omega) (by omega)
  obtain ⟨final, ended, whole⟩ : ∃ final,
      (if bits / 2048 ≠ (bits + 2047) / 2048 then
        tailBlock (ownWords source bits) state (bits / 2048) else .ok state) = .ok final ∧
      Built (ownWords source bits) ((bits + 2047) / 2048) final := by
    split_ifs with partly
    · have next : (bits + 2047) / 2048 = bits / 2048 + 1 := by omega
      rw [next]
      exact tailBlock_ok built (by omega) (by omega)
    · rw [← not_not.mp partly]
      exact ⟨state, rfl, built⟩
  refine ⟨⟨ownWords source bits, final.blocks, final.supers, bits⟩, ?_, rfl, length.trans size,
    bounded, fun _ inside => ones_ownWords size inside, whole.blocks, whole.entries, ?_,
    whole.epochs⟩
  · rw [build, if_neg (by omega)]
    dsimp only
    rw [run]
    simp only [ok_bind]
    split_ifs at ended ⊢
    · rw [ended, ok_bind]
    · rw [Except.ok.inj ended]
  · rw [whole.supers]
    omega

/-! ## Queries -/

variable {index : RankIndex}

theorem Exact.view_ok (exact : Exact source bits index) : view index = .ok index := by
  have := exact.bounded
  rw [view, exact.bitCount, exact.size, exact.blocks, exact.supers, if_neg (by omega)]

/-- The population below a run. -/
theorem Exact.run (exact : Exact source bits index) {position : ℕ} (inside : position < bits) :
    index.supers[position / 2 ^ 32]?.getD 0 +
        (index.blocks[position / 2048]?.getD ⟨0, 0⟩).before.toNat +
        runPrefix (index.blocks[position / 2048]?.getD ⟨0, 0⟩).runs (position / 512 % 4) =
      ones (bitAt index.words) (64 * (position / 512 * 8)) := by
  have here := exact.blocks
  have above := exact.supers
  obtain ⟨entry, there⟩ : ∃ entry, index.blocks[position / 2048]? = some entry :=
    ⟨_, List.getElem?_eq_getElem (by omega)⟩
  obtain ⟨base, epoch⟩ : ∃ base, index.supers[position / 2 ^ 32]? = some base :=
    ⟨_, List.getElem?_eq_getElem (by omega)⟩
  obtain ⟨⟨a, b, c, d, counts, packed⟩, before⟩ := exact.entries _ _ there
  obtain ⟨small_a, small_b, small_c, -⟩ := counts.le
  have lane : position / 512 % 4 < 4 := Nat.mod_lt _ (by decide)
  have same : position / 2048 / 2 ^ 21 = position / 2 ^ 32 := by
    exact Nat.div_div_eq_div_mul ..
  have place : 64 * (position / 512 * 8) =
      64 * (position / 2048 * 32) + 512 * (position / 512 % 4) := by omega
  rw [there, epoch, Option.getD_some, Option.getD_some, packed,
    runPrefix_eq small_a small_b small_c lane, exact.epochs _ _ epoch, place, ones_drop]
  rw [same] at before
  have start : 2048 * (position / 2048) = 64 * (position / 2048 * 32) := by omega
  rw [start] at before
  have runs : ones (bitAt (index.words.drop (position / 2048 * 32)))
      (512 * (position / 512 % 4)) = [0, a, a + b, a + b + c][position / 512 % 4]?.getD 0 := by
    generalize position / 512 % 4 = run at lane
    interval_cases run
    · rfl
    · exact counts.first
    · exact counts.second
    · exact counts.third
  rw [runs]
  omega

theorem Exact.rank_ok (exact : Exact source bits index) (kernel : Kernel) {position : ℕ}
    (inside : position < bits) :
    rank kernel index position = .ok (ones (bitAt source) position) := by
  have below := exact.run inside
  have lane : position % 512 < 512 := Nat.mod_lt _ (by decide)
  have place : 64 * (position / 512 * 8) + position % 512 = position := by omega
  have rest := ones_drop index.words (position / 512 * 8) (position % 512)
  rw [place, exact.same position inside.le] at rest
  have fits : ones (bitAt source) position < 2 ^ 64 := by
    have least := ones_le (bitAt source) position
    have bounded := exact.bounded
    have most : maximumBits = 2 ^ 64 - 2 ^ 32 := rfl
    omega
  rw [rank, exact.bitCount, if_neg (Nat.not_le.mpr inside)]
  dsimp only
  rw [below, prefix512Portable_eq, ← rest, Nat.mod_eq_of_lt]
  · split_ifs with first vector
    · rw [first, ones_zero, Nat.add_zero] at rest
      rw [rest]
    · rw [kernel.prefix512_eq _ _ vector.2 lane, ← rest]
    · rfl
  · split_ifs with first vector
    · omega
    · rw [kernel.prefix512_eq _ _ vector.2 lane, ← rest]
      exact fits
    · exact fits

theorem Exact.count_ok (exact : Exact source bits index) (kernel : Kernel) :
    count kernel index = .ok (ones (bitAt source) bits) := by
  rcases Nat.eq_zero_or_pos bits with rfl | positive
  · rw [count, exact.bitCount]
    rfl
  · have last : bits - 1 < bits := by omega
    have bit : ((index.words[(bits - 1) / 64]?.getD 0#64).getLsbD ((bits - 1) % 64)) =
        bitAt index.words (bits - 1) := rfl
    have before := exact.same (bits - 1) last.le
    have total := exact.same bits le_rfl
    have next := ones_succ (bitAt index.words) (bits - 1)
    rw [Nat.sub_add_cancel positive, total, before] at next
    rw [count, exact.bitCount, if_neg positive.ne']
    dsimp only
    rw [exact.rank_ok kernel last, bit, next]
    rfl

/-- A stored block: its relative count fits in its word, and its lanes hold the populations of its
runs, whose sums do not carry. -/
theorem Exact.entry_ok (exact : Exact source bits index) {block : ℕ} {entry : RankBlock}
    (there : index.blocks[block]? = some entry) :
    entry.before.toNat + ones (bitAt source) (2 ^ 32 * (block / 2 ^ 21)) =
        ones (bitAt source) (2048 * block) ∧
      ∃ a b c, a ≤ 512 ∧ b ≤ 512 ∧ c ≤ 512 ∧
        entry.runs.toNat = a + 2 ^ 11 * b + 2 ^ 22 * c ∧
        ∀ run < 4, runPrefix entry.runs run = [0, a, a + b, a + b + c][run]?.getD 0 := by
  obtain ⟨⟨a, b, c, d, counts, packed⟩, before⟩ := exact.entries block entry there
  obtain ⟨small_a, small_b, small_c, -⟩ := counts.le
  have size := exact.blocks
  have inside := (List.getElem?_eq_some_iff.mp there).1
  rw [exact.same _ (by omega), exact.same _ (by omega)] at before
  refine ⟨before, a, b, c, small_a, small_b, small_c, ?_, fun run small => ?_⟩
  · rw [packed, packRuns_toNat small_a small_b small_c]
  · rw [packed, runPrefix_eq small_a small_b small_c small]

/-- A bit vector is refused for its length or its directory is exact: every query for a position
returns the number of bits set before it, the lanes of a block hold the populations of its runs
and the relative count of a block fits in its word. -/
theorem bit_rank_exact (builder reader : Kernel) (source : List (BitVec 64)) (bits : ℕ) :
    (maximumBits < bits ∨ source.length ≠ (bits + 63) / 64) ∧
        build builder source bits = .error "rank source length" ∨
      ∃ index, build builder source bits = .ok index ∧ view index = .ok index ∧
        (∀ position < bits, rank reader index position = .ok (ones (bitAt source) position)) ∧
        (∀ position ≥ bits, rank reader index position = .error "rank position") ∧
        count reader index = .ok (ones (bitAt source) bits) ∧
        ∀ block entry, index.blocks[block]? = some entry →
          entry.before.toNat + ones (bitAt source) (2 ^ 32 * (block / 2 ^ 21)) =
            ones (bitAt source) (2048 * block) ∧
          ∃ a b c, a ≤ 512 ∧ b ≤ 512 ∧ c ≤ 512 ∧
            entry.runs.toNat = a + 2 ^ 11 * b + 2 ^ 22 * c ∧
            ∀ run < 4, runPrefix entry.runs run = [0, a, a + b, a + b + c][run]?.getD 0 := by
  by_cases refused : maximumBits < bits ∨ source.length ≠ (bits + 63) / 64
  · exact .inl ⟨refused, if_pos refused⟩
  · rw [not_or, not_lt, not_not] at refused
    obtain ⟨index, built, exact⟩ := build_ok builder refused.1 refused.2
    refine .inr ⟨index, built, exact.view_ok, fun position inside => exact.rank_ok reader inside,
      fun position outside => ?_, exact.count_ok reader, fun block entry => exact.entry_ok⟩
    rw [rank, exact.bitCount, if_pos outside]

end Everett.Rank

import Everett.EliasFano.Sections

/-!
# Selection

Every entry is found by its ordinal, in dense groups by counting the set bits since the sample and
in sparse groups by the positions which are kept apart.
-/

namespace Everett.EliasFano

open BitWords Outcome

variable {source : List (BitVec 64)} {index : Index}

/-! ## Positions -/

/-- The position of an entry. -/
def Sections.position (_ : Sections source index) (i : ℕ) : ℕ :=
  highPosition source index.lowWidth i

variable (sections : Sections source index)

include sections

theorem Sections.highBits_eq :
    index.highBits = index.universe_ / 2 ^ index.lowWidth + source.length := by
  rw [Index.highBits, sections.entries, if_neg sections.positive.ne']

theorem Sections.position_lt {i : ℕ} (inside : i < source.length) :
    sections.position i < index.highBits := by
  have top := Nat.div_le_div_right (c := 2 ^ index.lowWidth)
    (sections.sorted i (source.length - 1) (by omega) (by have := sections.positive; omega))
  rw [sections.highBits_eq, sections.greatest]
  unfold Sections.position highPosition
  omega

theorem Sections.increases (i j : ℕ) (less : i < j) (inside : j < source.length) :
    sections.position i < sections.position j :=
  sections.sorted.increases index.lowWidth i j less inside

theorem Sections.here {i : ℕ} (inside : i < source.length) :
    bitAt index.high (sections.position i) = true := by
  rw [sections.high, decide_eq_true]
  exact ⟨i, inside, rfl⟩

/-- The set bits before an entry are the entries before it. -/
theorem Sections.rank {i : ℕ} (inside : i < source.length) :
    ones (bitAt index.high) (sections.position i) = i :=
  ones_enumerated sections.increases sections.high inside

theorem Sections.word_lt {i : ℕ} (inside : i < source.length) :
    sections.position i / 64 < index.high.length := by
  have less := sections.position_lt inside
  rw [sections.high_size]
  omega

theorem Sections.position_mono {i j : ℕ} (least : i ≤ j) (inside : j < source.length) :
    sections.position i ≤ sections.position j := by
  rcases least.lt_or_eq with less | rfl
  · exact (sections.increases i j less inside).le
  · exact le_rfl

/-! ## Low bits -/

theorem Sections.lowBits_ok {i : ℕ} (inside : i < source.length) :
    ∃ low, lowBits index i = .ok low ∧ ∀ j, low.getLsbD j =
      (decide (j < index.lowWidth) && (itemOf source i).getLsbD j) := by
  unfold lowBits
  split_ifs with none
  · refine ⟨_, rfl, fun j => ?_⟩
    rw [none, decide_eq_false (Nat.not_lt_zero j), Bool.false_and, BitVec.getLsbD_zero]
  · have positive : 0 < index.lowWidth := Nat.pos_of_ne_zero none
    have room : (i + 1) * index.lowWidth ≤ source.length * index.lowWidth :=
      Nat.mul_le_mul_right _ inside
    rw [Nat.succ_mul] at room
    have size := sections.low_size
    have split := Nat.div_add_mod (i * index.lowWidth) 64
    have found : ∀ j, (field index.low (i * index.lowWidth) index.lowWidth).getLsbD j =
        (decide (j < index.lowWidth) && (itemOf source i).getLsbD j) := by
      intro j
      rw [getLsbD_field _ _ sections.narrow, sections.low positive]
      by_cases small : j < index.lowWidth
      · rw [packedBit, Nat.mul_comm, Nat.mul_add_div positive, Nat.mul_add_mod,
          Nat.div_eq_of_lt small, Nat.mod_eq_of_lt small, Nat.add_zero]
      · rw [decide_eq_false small, Bool.false_and, Bool.false_and]
    refine ⟨_, ?_, found⟩
    unfold field
    dsimp only
    rw [loadWord_ok (by omega), ok_bind]
    split_ifs with straddles
    · rw [loadWord_ok (by omega)]
      rfl
    · rfl

theorem Sections.decode_ok {i : ℕ} (inside : i < source.length) :
    decode index i (sections.position i) = .ok (itemOf source i) := by
  have least : i ≤ sections.position i := Nat.le_add_left _ _
  have high : sections.position i - i = (itemOf source i).toNat / 2 ^ index.lowWidth :=
    Nat.add_sub_cancel ..
  have sorted := sections.sorted i (source.length - 1) (by omega)
    (by have := sections.positive; omega)
  have top := Nat.div_le_div_right (c := 2 ^ index.lowWidth) sorted
  obtain ⟨low, loaded, bits⟩ := sections.lowBits_ok inside
  have value : BitVec.ofNat 64 ((itemOf source i).toNat / 2 ^ index.lowWidth) <<< index.lowWidth |||
      low = itemOf source i := by
    refine BitVec.eq_of_getLsbD_eq fun j small => ?_
    have fits : (itemOf source i).toNat / 2 ^ index.lowWidth < 2 ^ 64 :=
      (Nat.div_le_self _ _).trans_lt (itemOf source i).isLt
    rw [BitVec.getLsbD_or, BitVec.getLsbD_shiftLeft, bits, decide_eq_true small, Bool.true_and]
    by_cases below : j < index.lowWidth
    · simp only [below, decide_true, Bool.not_true, Bool.false_and, Bool.false_or, Bool.true_and]
    · have split : j - index.lowWidth + index.lowWidth = j := by omega
      have bit : (BitVec.ofNat 64 ((itemOf source i).toNat / 2 ^ index.lowWidth)).getLsbD
          (j - index.lowWidth) = (itemOf source i).getLsbD j := by
        rw [BitVec.getLsbD, BitVec.toNat_ofNat, Nat.mod_eq_of_lt fits, Nat.testBit_div_two_pow, split]
        rfl
      simp only [below, bit, decide_false, Bool.not_false, Bool.true_and, Bool.false_and,
        Bool.or_false]
  rw [decode, if_neg (Nat.not_lt.mpr least), high, sections.greatest, if_neg (Nat.not_lt.mpr top)]
  dsimp only
  rw [loaded, ok_bind, value, if_neg (Nat.not_lt.mpr sorted)]

/-! ## Groups -/

/-- The sample of a group. -/
theorem Sections.sample_ok {i : ℕ} (inside : i < source.length) :
    ∃ sample, index.samples[i / 256]? = some sample ∧
      Sampled sections.position source.length (i / 256) index.sparse sample := by
  have size := sections.samples.size
  have there : i / 256 < index.samples.length := by
    change index.samples.length = _ at size
    omega
  exact ⟨_, List.getElem?_eq_getElem there,
    sections.samples.each _ _ (List.getElem?_eq_getElem there)⟩

theorem Sections.sparsePosition_ok {i : ℕ} (inside : i < source.length) {sample : Sample}
    (sampled : Sampled sections.position source.length (i / 256) index.sparse sample)
    (far : sample.sparse ≠ dense) :
    sparsePosition index sample (i % 256) = .ok (sections.position i) := by
  have place : 256 * (i / 256) + i % 256 = i := Nat.div_add_mod i 256
  have kept := sampled.kept far (i % 256) (by omega) (by omega)
  rw [place] at kept
  have there := (List.getElem?_eq_some_iff.mp kept).1
  have word := sections.word_lt inside
  have bit : (itemOf index.high (sections.position i / 64)).getLsbD (sections.position i % 64) =
      true := sections.here inside
  rw [sparsePosition, if_neg (by omega), loadWord_eq kept, ok_bind,
    if_neg (Nat.not_le.mpr (sections.position_lt inside)), loadWord_ok word, ok_bind, if_pos bit]

/-! ## Dense scans -/

/-- The bits of a word from a position on. -/
theorem Sections.word_from {start word : ℕ} {value : BitVec 64}
    (bits : ∀ b < 64, value.getLsbD b =
      (decide (start ≤ 64 * word + b) && bitAt index.high (64 * word + b)))
    (below : 64 * word ≤ start) {b : ℕ} (small : b ≤ 64) (reached : start ≤ 64 * word + b) :
    ones value.getLsbD b + ones (bitAt index.high) start =
      ones (bitAt index.high) (64 * word + b) :=
  ones_from below reached fun i less => bits i (by omega)

/-- The bit of an entry in its word. -/
theorem Sections.position_in_word {i start word : ℕ} (inside : i < source.length) {value : BitVec 64}
    (bits : ∀ b < 64, value.getLsbD b =
      (decide (start ≤ 64 * word + b) && bitAt index.high (64 * word + b)))
    (below : 64 * word ≤ start) (after : start ≤ sections.position i)
    (here : sections.position i / 64 = word) :
    Position value (i - ones (bitAt index.high) start) (sections.position i % 64) := by
  have place : 64 * word + sections.position i % 64 = sections.position i := by
    rw [← here]
    exact Nat.div_add_mod _ _
  have lane := Nat.mod_lt (sections.position i) (y := 64) (by decide)
  refine ⟨?_, ?_⟩
  · rw [bits _ lane, place, decide_eq_true after, sections.here inside]
    rfl
  · have count := sections.word_from bits below lane.le (by omega)
    rw [place, sections.rank inside] at count
    omega

theorem Sections.scan_ok (deposits : Bool) {i first : ℕ} (inside : i < source.length)
    (near : sections.position i - first < 4096) {left word start remaining : ℕ} {mask : BitVec 64}
    (masked : ∀ b < 64, mask.getLsbD b = decide (start ≤ 64 * word + b))
    (below : 64 * word ≤ start) (above : start ≤ 64 * (word + 1))
    (after : start ≤ sections.position i)
    (count : ones (bitAt index.high) start + remaining = i)
    (enough : sections.position i / 64 < word + left) :
    scan deposits index first left word mask remaining = .ok (sections.position i) := by
  induction left generalizing word start remaining mask with
  | zero =>
      have : word ≤ sections.position i / 64 := by omega
      omega
  | succ left induction =>
      have there := sections.word_lt inside
      have later : word ≤ sections.position i / 64 := by omega
      have bits : ∀ b < 64, (itemOf index.high word &&& mask).getLsbD b =
          (decide (start ≤ 64 * word + b) && bitAt index.high (64 * word + b)) := by
        intro b small
        rw [BitVec.getLsbD_and, masked b small, bitAt_word _ _ small, Bool.and_comm]
        rfl
      have population := sections.word_from bits below le_rfl (by omega)
      rw [scan, if_neg (by omega)]
      dsimp only
      generalize itemOf index.high word &&& mask = value at *
      rcases later.lt_or_eq with further | here
      · have mono : ones (bitAt index.high) (64 * word + 64) ≤
            ones (bitAt index.high) (sections.position i) := ones_mono _ (by omega)
        rw [sections.rank inside] at mono
        have passed : popcount value + ones (bitAt index.high) start =
            ones (bitAt index.high) (64 * (word + 1)) := population
        change _ ≤ i at mono
        change ones (bitAt index.high) (64 * (word + 1)) ≤ i at mono
        rw [if_neg (by omega)]
        have all : ∀ b < 64, (BitVec.allOnes 64).getLsbD b =
            decide (64 * (word + 1) ≤ 64 * (word + 1) + b) := by
          intro b small
          rw [BitVec.getLsbD_allOnes, decide_eq_true small, decide_eq_true (by omega)]
        exact induction all le_rfl (by omega) (by omega) (by omega) (by omega)
      · have found := sections.position_in_word inside bits below after here.symm
        have ordinal : i - ones (bitAt index.high) start = remaining := by omega
        rw [ordinal] at found
        have less : remaining < popcount value := by
          have next := ones_succ value.getLsbD (sections.position i % 64)
          have mono : ones value.getLsbD (sections.position i % 64 + 1) ≤ popcount value :=
            ones_mono _ found.small
          rw [found.here, found.before, Bool.toNat_true] at next
          omega
        have place : word * 64 + sections.position i % 64 = sections.position i := by
          rw [here]
          exact Nat.div_add_mod' _ _
        have limit := sections.position_lt inside
        rw [if_pos less, selectWord_eq deposits found, place, if_neg (by omega)]

theorem Sections.selectHigh_ok (deposits : Bool) {i : ℕ} (inside : i < source.length) :
    selectHigh deposits index i = .ok (sections.position i) := by
  obtain ⟨sample, there, sampled⟩ := sections.sample_ok inside
  rw [selectHigh, there, demand_some, ok_bind]
  split_ifs with far high
  · exact sections.sparsePosition_ok inside sampled far
  · have start : 256 * (i / 256) < source.length := by omega
    rw [sampled.first] at high
    exact absurd (sections.position_lt start) (Nat.not_lt.mpr high)
  · have start : 256 * (i / 256) < source.length := by omega
    have near := sampled.spans (not_not.mp far) i (by omega) (by omega) inside
    have later := sections.position_mono (i := 256 * (i / 256)) (by omega) inside
    have split := Nat.div_add_mod (sections.position (256 * (i / 256))) 64
    have lane := Nat.mod_lt (sections.position (256 * (i / 256))) (y := 64) (by decide)
    rw [sampled.first, loadWord_ok (sections.word_lt start), ok_bind]
    refine @Sections.scan_ok _ _ sections deposits _ _ inside near _ _
      (sections.position (256 * (i / 256))) _ _ (fun b small => ?_) (by omega) (by omega) later ?_ (by omega)
    · rw [BitVec.getLsbD_shiftLeft, decide_eq_true small, Bool.true_and, BitVec.getLsbD_allOnes,
        Bool.eq_iff_iff]
      simp only [Bool.and_eq_true, decide_eq_true_eq, Bool.not_eq_true', decide_eq_false_iff_not]
      omega
    · rw [sections.rank start]
      exact Nat.div_add_mod i 256

theorem Sections.select_ok (deposits : Bool) {i : ℕ} (inside : i < source.length) :
    select deposits index i = .ok (itemOf source i) := by
  rw [select, sections.entries, if_neg (Nat.not_le.mpr inside), sections.selectHigh_ok deposits inside,
    ok_bind, sections.decode_ok inside]

end Everett.EliasFano

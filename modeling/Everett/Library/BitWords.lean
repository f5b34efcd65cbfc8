import Mathlib.Tactic

/-!
# Bits in words of 64 bits

A list of words is a sequence of bits, least significant first.  Populations count the set bits of
a sequence; masks, shifts and packed fields are read bit by bit.
-/

namespace Everett.BitWords

/-! ## Populations -/

/-- Number of set bits below a position. -/
def ones (f : ℕ → Bool) : ℕ → ℕ
  | 0 => 0
  | n + 1 => ones f n + (f n).toNat

variable {f g : ℕ → Bool} {m n : ℕ}

@[simp] theorem ones_zero (f : ℕ → Bool) : ones f 0 = 0 := rfl

theorem ones_succ (f : ℕ → Bool) (n : ℕ) : ones f (n + 1) = ones f n + (f n).toNat := rfl

theorem ones_add (f : ℕ → Bool) (m n : ℕ) :
    ones f (m + n) = ones f m + ones (fun i => f (m + i)) n := by
  induction n with
  | zero => rfl
  | succ n induction => rw [← Nat.add_assoc, ones_succ, ones_succ, induction, Nat.add_assoc]

theorem ones_congr (same : ∀ i < n, f i = g i) : ones f n = ones g n := by
  induction n with
  | zero => rfl
  | succ n induction =>
      rw [ones_succ, ones_succ, induction fun i less => same i (by omega), same n (by omega)]

theorem ones_le (f : ℕ → Bool) (n : ℕ) : ones f n ≤ n := by
  induction n with
  | zero => exact le_rfl
  | succ n induction =>
      rw [ones_succ]
      have := Bool.toNat_le (f n)
      omega

theorem ones_mono (f : ℕ → Bool) (less : m ≤ n) : ones f m ≤ ones f n := by
  obtain ⟨k, rfl⟩ := Nat.exists_eq_add_of_le less
  rw [ones_add]
  exact Nat.le_add_right _ _

theorem ones_false (clear : ∀ i < n, f i = false) : ones f n = 0 := by
  rw [ones_congr (g := fun _ => false) clear]
  induction n with
  | zero => rfl
  | succ n induction => exact induction fun i less => clear i (by omega)

/-- Nothing is set behind a position. -/
theorem ones_of_clear (clear : ∀ i, m ≤ i → f i = false) (less : m ≤ n) : ones f n = ones f m := by
  obtain ⟨k, rfl⟩ := Nat.exists_eq_add_of_le less
  rw [ones_add, ones_false fun i _ => clear (m + i) (Nat.le_add_right _ _), Nat.add_zero]

/-! ## Words -/

/-- `std::popcount`. -/
def popcount (word : BitVec 64) : ℕ := ones word.getLsbD 64

theorem popcount_le (word : BitVec 64) : popcount word ≤ 64 := ones_le _ _

/-- A mask of the bits below a position. -/
def below (k : ℕ) : BitVec 64 := 1#64 <<< k - 1#64

theorem getLsbD_below {k : ℕ} (small : k < 64) (i : ℕ) : (below k).getLsbD i = decide (i < k) := by
  have power : 2 ^ k < 2 ^ 64 := Nat.pow_lt_pow_right (by decide) small
  have shifted : (1#64 <<< k).toNat = 2 ^ k := by
    rw [BitVec.toNat_shiftLeft, BitVec.toNat_ofNat, Nat.shiftLeft_eq]
    omega
  have value : (below k).toNat = 2 ^ k - 1 := by
    have positive := Nat.two_pow_pos k
    rw [below, BitVec.toNat_sub, shifted, BitVec.toNat_ofNat]
    omega
  rw [BitVec.getLsbD, value, Nat.testBit_two_pow_sub_one]

theorem popcount_and_below {k : ℕ} (small : k < 64) (word : BitVec 64) :
    popcount (word &&& below k) = ones word.getLsbD k := by
  have split : popcount (word &&& below k) =
      ones (word &&& below k).getLsbD k +
        ones (fun i => (word &&& below k).getLsbD (k + i)) (64 - k) := by
    rw [popcount, ← ones_add, Nat.add_sub_cancel' small.le]
  have clear : ones (fun i => (word &&& below k).getLsbD (k + i)) (64 - k) = 0 :=
    ones_false fun i _ => by simp [getLsbD_below small]
  rw [split, clear, Nat.add_zero]
  refine ones_congr fun i less => ?_
  simp [getLsbD_below small, less]

/-- A word made of the bits which satisfy a predicate. -/
theorem getLsbD_foldl_bits (p : ℕ → Prop) [DecidablePred p] {m : ℕ} (small : m ≤ 64) (i : ℕ) :
    ((List.range m).foldl (fun mask bit => if p bit then mask ||| 1#64 <<< bit else mask)
      0#64).getLsbD i = decide (i < m ∧ p i) := by
  induction m with
  | zero => simp
  | succ m induction =>
      have single : (1#64 <<< m).getLsbD i = decide (i = m) := by
        rw [BitVec.getLsbD_shiftLeft, BitVec.getLsbD_one]
        grind
      rw [List.range_succ, List.foldl_append, List.foldl_cons, List.foldl_nil]
      split_ifs with holds
      · rw [BitVec.getLsbD_or, induction (by omega), single]
        grind
      · rw [induction (by omega)]
        grind

/-- `std::countr_zero`. -/
def countrZero (value : BitVec 64) : ℕ := ((List.range 64).find? value.getLsbD).getD 64

theorem countrZero_eq {value : BitVec 64} {i : ℕ} (here : value.getLsbD i = true)
    (first : ∀ j < i, value.getLsbD j = false) : countrZero value = i := by
  have small : i < 64 := BitVec.lt_of_getLsbD here
  have found : (List.range 64).find? value.getLsbD = some i := by
    rw [List.find?_range_eq_some]
    refine ⟨here, List.mem_range.mpr small, fun j less => ?_⟩
    rw [first j less]
    rfl
  rw [countrZero, found, Option.getD_some]

/-- The lowest set bit of a word which has one. -/
theorem countrZero_spec {value : BitVec 64} (some_bit : value ≠ 0#64) :
    value.getLsbD (countrZero value) = true ∧
      ∀ j < countrZero value, value.getLsbD j = false := by
  rw [countrZero]
  cases found : (List.range 64).find? value.getLsbD with
  | none =>
      rw [List.find?_range_eq_none] at found
      refine absurd (BitVec.eq_of_getLsbD_eq fun i small => ?_) some_bit
      rw [BitVec.getLsbD_zero]
      simpa using found i small
  | some i =>
      rw [List.find?_range_eq_some] at found
      obtain ⟨here, -, first⟩ := found
      exact ⟨here, fun j less => by simpa using first j less⟩

/-- The lowest set bit is cleared by the word below. -/
theorem getLsbD_clear_lowest {value : BitVec 64} {i : ℕ} (here : value.getLsbD i = true)
    (first : ∀ j < i, value.getLsbD j = false) (j : ℕ) :
    (value &&& (value - 1#64)).getLsbD j = (value.getLsbD j && decide (j ≠ i)) := by
  have small : i < 64 := BitVec.lt_of_getLsbD here
  have low : value.toNat % 2 ^ i = 0 := by
    refine Nat.eq_of_testBit_eq fun k => ?_
    rw [Nat.testBit_mod_two_pow, Nat.zero_testBit]
    by_cases below : k < i
    · have clear : value.toNat.testBit k = false := first k below
      rw [clear, Bool.and_false]
    · rw [decide_eq_false below, Bool.false_and]
  have bit : value.toNat / 2 ^ i % 2 = 1 := by
    have set : value.toNat.testBit i = true := here
    rw [← Nat.toNat_testBit, set]
    rfl
  have parts : value.toNat = 2 ^ (i + 1) * (value.toNat / 2 ^ (i + 1)) + 2 ^ i := by
    have split := Nat.div_add_mod value.toNat (2 ^ (i + 1))
    rw [Nat.mod_pow_succ, low, bit, Nat.mul_one, Nat.zero_add] at split
    exact split.symm
  have power := Nat.two_pow_pos i
  have less : 2 ^ i < 2 ^ (i + 1) := Nat.pow_lt_pow_succ (by decide)
  have before : (value - 1#64).toNat = 2 ^ (i + 1) * (value.toNat / 2 ^ (i + 1)) + (2 ^ i - 1) := by
    have bounded := value.isLt
    rw [BitVec.toNat_sub, BitVec.toNat_ofNat]
    omega
  rw [BitVec.getLsbD_and]
  rcases Nat.lt_trichotomy j i with below | rfl | above
  · rw [first j below, Bool.false_and, Bool.false_and]
  · have cleared : (value - 1#64).getLsbD j = false := by
      rw [BitVec.getLsbD, before, Nat.testBit_two_pow_mul_add _ (by omega), if_pos (by omega),
        Nat.testBit_two_pow_sub_one, decide_eq_false (Nat.lt_irrefl j)]
    rw [cleared, Bool.and_false, decide_eq_false (not_not.mpr rfl), Bool.and_false]
  · have same : (value - 1#64).getLsbD j = value.getLsbD j := by
      rw [BitVec.getLsbD, BitVec.getLsbD, before, parts,
        Nat.testBit_two_pow_mul_add _ (by omega), Nat.testBit_two_pow_mul_add _ less,
        if_neg (by omega), if_neg (by omega), ← parts]
    rw [same, Bool.and_self, decide_eq_true above.ne', Bool.and_true]

/-- Two set bits with the same number of bits below are one. -/
theorem ones_injective {i j : ℕ} (first : f i = true) (second : f j = true)
    (same : ones f i = ones f j) : i = j := by
  have grows : ∀ {i j : ℕ}, f i = true → i < j → ones f i < ones f j := by
    intro i j here less
    have next := ones_succ f i
    have mono : ones f (i + 1) ≤ ones f j := ones_mono f less
    rw [here, Bool.toNat_true] at next
    omega
  rcases lt_trichotomy i j with less | equal | more
  · exact absurd same (grows first less).ne
  · exact equal
  · exact absurd same.symm (grows second more).ne

/-- A number of bits below a position leaves a bit set there. -/
theorem exists_ones_eq {ordinal : ℕ} (less : ordinal < ones f n) :
    ∃ i < n, f i = true ∧ ones f i = ordinal := by
  induction n with
  | zero => exact absurd less (Nat.not_lt_zero _)
  | succ n induction =>
      rcases Nat.lt_or_ge ordinal (ones f n) with before | last
      · obtain ⟨i, inside, found⟩ := induction before
        exact ⟨i, inside.trans (Nat.lt_succ_self n), found⟩
      · rw [ones_succ] at less
        refine ⟨n, Nat.lt_succ_self n, ?_, ?_⟩
        · cases here : f n with
          | true => rfl
          | false =>
              rw [here, Bool.toNat_false] at less
              omega
        · have most := Bool.toNat_le (f n)
          omega

/-- There are no set bits between two positions. -/
theorem ones_gap (less : m ≤ n) (clear : ∀ i, m ≤ i → i < n → f i = false) :
    ones f n = ones f m := by
  obtain ⟨k, rfl⟩ := Nat.exists_eq_add_of_le less
  rw [ones_add, ones_false fun i small => clear (m + i) (Nat.le_add_right _ _) (by omega),
    Nat.add_zero]

/-- Increasing positions count themselves. -/
theorem ones_enumerated {position : ℕ → ℕ} {count : ℕ}
    (increases : ∀ i j, i < j → j < count → position i < position j)
    (bits : ∀ p, f p = decide (∃ j < count, position j = p)) {i : ℕ} (inside : i < count) :
    ones f (position i) = i := by
  have apart : ∀ i j, i < count → j < count → i ≠ j → position i ≠ position j := by
    intro i j first second other
    rcases Nat.lt_or_gt_of_ne other with less | more
    · exact (increases i j less second).ne
    · exact (increases j i more first).ne'
  induction i with
  | zero =>
      refine ones_false fun p less => ?_
      rw [bits, decide_eq_false]
      rintro ⟨j, small, rfl⟩
      rcases Nat.eq_zero_or_pos j with rfl | later
      · exact Nat.lt_irrefl _ less
      · exact Nat.lt_asymm less (increases 0 j later small)
  | succ i induction =>
      have before := induction (by omega)
      have here : f (position i) = true := by
        rw [bits, decide_eq_true]
        exact ⟨i, by omega, rfl⟩
      have next := increases i (i + 1) (Nat.lt_succ_self i) inside
      rw [ones_gap (f := f) (m := position i + 1) next fun p least most => ?_, ones_succ, before,
        here, Bool.toNat_true]
      rw [bits, decide_eq_false]
      rintro ⟨j, small, rfl⟩
      rcases Nat.lt_trichotomy j i with earlier | rfl | later
      · have := increases j i earlier (by omega)
        omega
      · omega
      · rcases Nat.lt_or_ge (i + 1) j with beyond | same
        · have := increases (i + 1) j beyond small
          omega
        · have equal : j = i + 1 := by omega
          rw [equal] at most
          omega

/-- The set bits from a position on. -/
theorem ones_from {start first n : ℕ} (below : first ≤ start) (inside : start ≤ first + n)
    (bits : ∀ i < n, g i = (decide (start ≤ first + i) && f (first + i))) :
    ones g n + ones f start = ones f (first + n) := by
  obtain ⟨d, rfl⟩ := Nat.exists_eq_add_of_le below
  obtain ⟨k, rfl⟩ : ∃ k, n = d + k := Nat.exists_eq_add_of_le (by omega)
  have early : ones g d = 0 := ones_false fun i less => by
    rw [bits i (by omega), decide_eq_false (by omega), Bool.false_and]
  have late : ones (fun i => g (d + i)) k = ones (fun i => f (first + d + i)) k :=
    ones_congr fun i less => by
      rw [bits (d + i) (by omega), decide_eq_true (by omega), Bool.true_and, Nat.add_assoc]
  rw [ones_add g, early, late, ← Nat.add_assoc first, ones_add f (first + d)]
  omega

/-! ## Sequences of words -/

/-- A bit of a sequence of words; there is none behind the last word. -/
def bitAt (words : List (BitVec 64)) (position : ℕ) : Bool :=
  (words[position / 64]?.getD 0#64).getLsbD (position % 64)

variable {words : List (BitVec 64)}

theorem bitAt_drop (words : List (BitVec 64)) (k i : ℕ) :
    bitAt (words.drop k) i = bitAt words (64 * k + i) := by
  unfold bitAt
  rw [List.getElem?_drop, Nat.mul_add_div (by decide), Nat.mul_add_mod]

theorem bitAt_word (words : List (BitVec 64)) (k : ℕ) {i : ℕ} (small : i < 64) :
    bitAt words (64 * k + i) = (words[k]?.getD 0#64).getLsbD i := by
  unfold bitAt
  rw [Nat.mul_add_div (by decide), Nat.mul_add_mod, Nat.div_eq_of_lt small, Nat.mod_eq_of_lt small,
    Nat.add_zero]

theorem bitAt_out {position : ℕ} (out : 64 * words.length ≤ position) :
    bitAt words position = false := by
  unfold bitAt
  rw [List.getElem?_eq_none (by omega)]
  simp

/-- The bits of one more word. -/
theorem ones_word (words : List (BitVec 64)) (k : ℕ) :
    ones (bitAt words) (64 * (k + 1)) =
      ones (bitAt words) (64 * k) + popcount (words[k]?.getD 0#64) := by
  rw [Nat.mul_add, Nat.mul_one, ones_add, popcount]
  congr 1
  exact ones_congr fun i less => bitAt_word words k less

/-- The first bits of a word. -/
theorem ones_masked (words : List (BitVec 64)) (k : ℕ) {i : ℕ} (small : i < 64) :
    ones (bitAt words) (64 * k + i) =
      ones (bitAt words) (64 * k) + popcount ((words[k]?.getD 0#64) &&& below i) := by
  rw [ones_add, popcount_and_below small]
  congr 1
  exact ones_congr fun j less => bitAt_word words k (less.trans small)

/-- The bits of a part of the words. -/
theorem ones_drop (words : List (BitVec 64)) (k n : ℕ) :
    ones (bitAt words) (64 * k + n) =
      ones (bitAt words) (64 * k) + ones (bitAt (words.drop k)) n := by
  rw [ones_add]
  congr 1
  exact ones_congr fun i _ => (bitAt_drop words k i).symm

theorem getElem_getLsbD (there : m < words.length) {i : ℕ} (small : i < 64) :
    bitAt words (64 * m + i) = words[m].getLsbD i := by
  rw [bitAt_word words m small, List.getElem?_eq_getElem there, Option.getD_some]

/-- Sequences of one length with the same bits are the same. -/
theorem words_ext {left right : List (BitVec 64)} (size : left.length = right.length)
    (same : ∀ i, bitAt left i = bitAt right i) : left = right := by
  refine List.ext_getElem size fun k inside other => ?_
  refine BitVec.eq_of_getLsbD_eq fun i small => ?_
  rw [← getElem_getLsbD inside small, ← getElem_getLsbD other small, same]

theorem bitAt_append_zeros (words : List (BitVec 64)) (count i : ℕ) :
    bitAt (words ++ List.replicate count 0#64) i = bitAt words i := by
  rcases lt_or_ge (i / 64) words.length with inside | outside
  · unfold bitAt
    rw [List.getElem?_append_left inside]
  · have out : bitAt words i = false := bitAt_out (by omega)
    rw [out]
    unfold bitAt
    rw [List.getElem?_append_right outside, List.getElem?_replicate]
    split_ifs <;> simp

theorem bitAt_zeros (count i : ℕ) : bitAt (List.replicate count 0#64) i = false := by
  have empty := bitAt_append_zeros [] count i
  rw [List.nil_append] at empty
  rw [empty, bitAt_out (Nat.zero_le _)]

theorem bitAt_append (left right : List (BitVec 64)) (i : ℕ) :
    bitAt (left ++ right) i =
      if i < 64 * left.length then bitAt left i else bitAt right (i - 64 * left.length) := by
  unfold bitAt
  split_ifs with inside
  · rw [List.getElem?_append_left (by omega)]
  · have place : (i - 64 * left.length) / 64 = i / 64 - left.length ∧
        (i - 64 * left.length) % 64 = i % 64 := by omega
    rw [List.getElem?_append_right (by omega), place.1, place.2]

theorem bitAt_set {k : ℕ} (there : k < words.length) (value : BitVec 64) (i : ℕ) :
    bitAt (words.set k value) i =
      if i / 64 = k then value.getLsbD (i % 64) else bitAt words i := by
  unfold bitAt
  rw [List.getElem?_set]
  split_ifs with here out inside
  · rfl
  all_goals first | omega | rfl

/-- One word with more bits. -/
theorem bitAt_modify (k : ℕ) (there : k < words.length) (bits : BitVec 64) (i : ℕ) :
    bitAt (words.modify k (· ||| bits)) i =
      (bitAt words i || (decide (i / 64 = k) && bits.getLsbD (i % 64))) := by
  unfold bitAt
  rw [List.getElem?_modify]
  by_cases here : k = i / 64
  · subst here
    simp only [if_true, List.getElem?_eq_getElem there, Option.map_eq_map, Option.map_some,
      Option.getD_some, BitVec.getLsbD_or, decide_true, Bool.true_and]
  · have apart : i / 64 ≠ k := fun same => here same.symm
    simp only [here, apart, if_false, decide_false, Bool.false_and, Bool.or_false,
      Option.map_eq_map, Option.map_id']

/-! ## Packed fields -/

/-- Add the bits of a field, which may straddle two words. -/
def putField (words : List (BitVec 64)) (start width : ℕ) (value : BitVec 64) : List (BitVec 64) :=
  let shift := start % 64
  let words := words.modify (start / 64) (· ||| value <<< shift)
  if 64 < shift + width then words.modify (start / 64 + 1) (· ||| value >>> (64 - shift)) else words

/-- The bits of a field, which may straddle two words. -/
def field (words : List (BitVec 64)) (start width : ℕ) : BitVec 64 :=
  let shift := start % 64
  let value := (words[start / 64]?.getD 0#64) >>> shift
  let value :=
    if 64 < shift + width then value ||| (words[start / 64 + 1]?.getD 0#64) <<< (64 - shift)
    else value
  value &&& below width

theorem putField_length (words : List (BitVec 64)) (start width : ℕ) (value : BitVec 64) :
    (putField words start width value).length = words.length := by
  unfold putField
  dsimp only
  split_ifs
  · rw [List.length_modify, List.length_modify]
  · rw [List.length_modify]

variable {start width : ℕ} {value : BitVec 64}

theorem bitAt_putField (fits : start + width ≤ 64 * words.length) (positive : 0 < width)
    (narrow : ∀ i ≥ width, value.getLsbD i = false) (i : ℕ) :
    bitAt (putField words start width value) i =
      (bitAt words i || (decide (start ≤ i) && value.getLsbD (i - start))) := by
  have split := Nat.div_add_mod start 64
  have shift := Nat.mod_lt start (y := 64) (by decide)
  have place := Nat.div_add_mod i 64
  have lane := Nat.mod_lt i (y := 64) (by decide)
  have first : start / 64 < words.length := by omega
  unfold putField
  dsimp only
  split_ifs with straddles
  · rw [bitAt_modify _ (by rw [List.length_modify]; omega), bitAt_modify _ first, Bool.or_assoc]
    congr 1
    rw [BitVec.getLsbD_shiftLeft, BitVec.getLsbD_ushiftRight, decide_eq_true lane, Bool.true_and]
    rcases lt_trichotomy (i / 64) (start / 64) with less | same | more
    · have apart : i / 64 ≠ start / 64 := less.ne
      have apart' : i / 64 ≠ start / 64 + 1 := by omega
      have before : ¬start ≤ i := by omega
      simp only [apart, apart', before, decide_false, Bool.false_and, Bool.or_false]
    · have apart : start / 64 ≠ start / 64 + 1 := by omega
      simp only [same, apart, decide_true, decide_false, Bool.true_and, Bool.false_and,
        Bool.or_false]
      rcases lt_or_ge (i % 64) (start % 64) with below | above
      · have before : ¬start ≤ i := by omega
        simp only [below, before, decide_true, decide_false, Bool.not_true, Bool.false_and]
      · have after : start ≤ i := by omega
        have offset : i % 64 - start % 64 = i - start := by omega
        simp only [Nat.not_lt.mpr above, after, offset, decide_true, decide_false, Bool.not_false]
    · have apart : i / 64 ≠ start / 64 := more.ne'
      have after : start ≤ i := by omega
      simp only [apart, after, decide_true, decide_false, Bool.true_and, Bool.false_and,
        Bool.false_or]
      rcases Nat.lt_or_ge (start / 64 + 1) (i / 64) with beyond | near
      · have apart' : i / 64 ≠ start / 64 + 1 := beyond.ne'
        rw [BitVec.getLsbD_of_ge value (i - start) (by omega)]
        simp only [apart', decide_false, Bool.false_and]
      · have next : i / 64 = start / 64 + 1 := by omega
        have offset : 64 - start % 64 + i % 64 = i - start := by omega
        simp only [next, decide_true, Bool.true_and, offset]
  · rw [bitAt_modify _ first]
    congr 1
    rw [BitVec.getLsbD_shiftLeft, decide_eq_true lane, Bool.true_and]
    rcases lt_trichotomy (i / 64) (start / 64) with less | same | more
    · have apart : i / 64 ≠ start / 64 := less.ne
      have before : ¬start ≤ i := by omega
      simp only [apart, before, decide_false, Bool.false_and]
    · simp only [same, decide_true, Bool.true_and]
      rcases lt_or_ge (i % 64) (start % 64) with below | above
      · have before : ¬start ≤ i := by omega
        simp only [below, before, decide_true, decide_false, Bool.not_true, Bool.false_and]
      · have after : start ≤ i := by omega
        have offset : i % 64 - start % 64 = i - start := by omega
        simp only [Nat.not_lt.mpr above, after, offset, decide_true, decide_false, Bool.not_false]
    · have apart : i / 64 ≠ start / 64 := more.ne'
      rw [narrow (i - start) (by omega)]
      simp only [apart, decide_false, Bool.false_and, Bool.and_false]

theorem getLsbD_field (words : List (BitVec 64)) (start : ℕ) (small : width < 64) (i : ℕ) :
    (field words start width).getLsbD i = (decide (i < width) && bitAt words (start + i)) := by
  have split := Nat.div_add_mod start 64
  have shift := Nat.mod_lt start (y := 64) (by decide)
  rw [field, BitVec.getLsbD_and, getLsbD_below small, Bool.and_comm]
  by_cases inside : i < width
  · rw [decide_eq_true inside, Bool.true_and, Bool.true_and]
    rcases lt_or_ge (start % 64 + i) 64 with near | far
    · have place : start + i = 64 * (start / 64) + (start % 64 + i) := by omega
      rw [place, bitAt_word words _ near]
      split_ifs with straddles
      · have before : i < 64 - start % 64 := by omega
        rw [BitVec.getLsbD_or, BitVec.getLsbD_ushiftRight, BitVec.getLsbD_shiftLeft]
        simp only [before, decide_true, Bool.not_true, Bool.and_false, Bool.false_and,
          Bool.or_false]
      · rw [BitVec.getLsbD_ushiftRight]
    · have place : start + i = 64 * (start / 64 + 1) + (i - (64 - start % 64)) := by omega
      have straddles : 64 < start % 64 + width := by omega
      have after : ¬i < 64 - start % 64 := by omega
      have lane : i < 64 := by omega
      rw [place, bitAt_word words _ (by omega), if_pos straddles, BitVec.getLsbD_or,
        BitVec.getLsbD_ushiftRight, BitVec.getLsbD_shiftLeft, BitVec.getLsbD_of_ge _ _ far]
      simp only [after, lane, decide_true, decide_false, Bool.not_false, Bool.true_and,
        Bool.false_or]
  · rw [decide_eq_false inside, Bool.false_and, Bool.false_and]

/-! ## Weights -/

/-- Sum of the weights of the set bits below a position. -/
def weigh (weight : ℕ → ℕ) (f : ℕ → Bool) : ℕ → ℕ
  | 0 => 0
  | n + 1 => weigh weight f n + (f n).toNat * weight n

theorem weigh_add (weight : ℕ → ℕ) (f : ℕ → Bool) (m n : ℕ) :
    weigh weight f (m + n) =
      weigh weight f m + weigh (fun i => weight (m + i)) (fun i => f (m + i)) n := by
  induction n with
  | zero => rfl
  | succ n induction => rw [← Nat.add_assoc, weigh, weigh, induction, Nat.add_assoc]

theorem weigh_congr {weight weight' : ℕ → ℕ} (same : ∀ i < n, f i = g i)
    (alike : ∀ i < n, weight i = weight' i) : weigh weight f n = weigh weight' g n := by
  induction n with
  | zero => rfl
  | succ n induction =>
      rw [weigh, weigh, same n (Nat.lt_succ_self n), alike n (Nat.lt_succ_self n),
        induction (fun i less => same i (less.trans (Nat.lt_succ_self n)))
          fun i less => alike i (less.trans (Nat.lt_succ_self n))]

/-- Bits weighed by their place are a number. -/
theorem weigh_two_pow (x n : ℕ) : weigh (2 ^ ·) x.testBit n = x % 2 ^ n := by
  induction n with
  | zero => rw [Nat.pow_zero, Nat.mod_one]; rfl
  | succ n induction =>
      rw [weigh, induction, Nat.mod_pow_succ, Nat.toNat_testBit, Nat.mul_comm (x / 2 ^ n % 2)]

/-! ## Packed values -/

/-- A value of a sequence; there is none behind the last. -/
def itemOf (values : List (BitVec 64)) (index : ℕ) : BitVec 64 := values[index]?.getD 0#64

/-- The bits of values packed one behind the other. -/
def packedBit (n : ℕ) (values : List (BitVec 64)) (i : ℕ) : Bool :=
  (itemOf values (i / n)).getLsbD (i % n)

variable {values : List (BitVec 64)}

theorem itemOf_toNat_lt (narrow : ∀ value ∈ values, value.toNat < 2 ^ n) (index : ℕ) :
    (itemOf values index).toNat < 2 ^ n := by
  unfold itemOf
  cases there : values[index]? with
  | none => exact Nat.two_pow_pos n
  | some value => exact narrow value (List.mem_of_getElem? there)

theorem itemOf_drop (values : List (BitVec 64)) (first index : ℕ) :
    itemOf (values.drop first) index = itemOf values (first + index) := by
  rw [itemOf, List.getElem?_drop]
  rfl

theorem packedBit_drop (positive : 0 < n) (values : List (BitVec 64)) (first i : ℕ) :
    packedBit n (values.drop first) i = packedBit n values (n * first + i) := by
  rw [packedBit, packedBit, itemOf_drop, Nat.mul_add_div positive, Nat.mul_add_mod]

theorem getLsbD_of_narrow {value : BitVec 64} (narrow : value.toNat < 2 ^ n) {i : ℕ} (out : n ≤ i) :
    value.getLsbD i = false :=
  Nat.testBit_lt_two_pow (narrow.trans_le (Nat.pow_le_pow_right Nat.two_pos out))

/-- The bits of one more value. -/
theorem packedBit_append (positive : 0 < n) {value : BitVec 64} (narrow : value.toNat < 2 ^ n)
    (values : List (BitVec 64)) (i : ℕ) :
    packedBit n (values ++ [value]) i =
      (packedBit n values i ||
        (decide (values.length * n ≤ i) && value.getLsbD (i - values.length * n))) := by
  have split := Nat.div_add_mod i n
  have lane := Nat.mod_lt i positive
  unfold packedBit itemOf
  rcases lt_trichotomy (i / n) values.length with less | same | more
  · have before : ¬values.length * n ≤ i := by
      have := (Nat.div_lt_iff_lt_mul positive).mp less
      omega
    rw [List.getElem?_append_left less, decide_eq_false before, Bool.false_and, Bool.or_false]
  · have after : values.length * n ≤ i := by
      rw [← same]
      exact Nat.div_mul_le_self i n
    have offset : i - values.length * n = i % n := by
      rw [← same, Nat.mul_comm]
      omega
    rw [List.getElem?_append_right same.ge, List.getElem?_eq_none same.ge, decide_eq_true after,
      offset, same, Nat.sub_self]
    simp
  · have further : n ≤ i - values.length * n := by
      have := Nat.mul_le_mul_left n more
      rw [Nat.mul_succ, Nat.mul_comm] at this
      omega
    rw [List.getElem?_eq_none more.le,
      List.getElem?_eq_none (by rw [List.length_append]; exact more),
      getLsbD_of_narrow narrow further]
    simp

end Everett.BitWords

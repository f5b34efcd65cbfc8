import Everett.Rank.Reductions

/-!
# Packed populations

Class words and checkpoints hold a sequence of populations: the bits of the words are the bits of
the populations in turn, and a checkpoint is the sum of the populations before it.  Every reduction
of a query adds up the populations since its checkpoint.
-/

namespace Everett.GroupRank

open BitWords Lanes Outcome

variable {n : ℕ} {values words classes checkpoints : List (BitVec 64)}

/-- The sections of a directory hold a sequence of populations. -/
structure Holds (n : ℕ) (values classes checkpoints : List (BitVec 64)) : Prop where
  bits : ∀ i, bitAt classes i = packedBit n values i
  marks : checkpoints.length = (values.length + 127) / 128
  sums : ∀ j mark, checkpoints[j]? = some mark → mark.toNat = total (values.take (128 * j))
  narrow : ∀ value ∈ values, value.toNat < 2 ^ n

theorem holds_nil (n count : ℕ) : Holds n [] (List.replicate count 0#64) [] where
  bits i := by
    rw [bitAt_zeros, packedBit, itemOf]
    simp
  marks := rfl
  sums := by simp
  narrow := by simp

/-- One more group. -/
theorem Holds.put (held : Holds n values classes checkpoints) (positive : 0 < n)
    {value mark : BitVec 64} (narrow : value.toNat < 2 ^ n)
    (room : n * (values.length + 1) ≤ 64 * classes.length) (sum : mark.toNat = total values) :
    Holds n (values ++ [value]) (putField classes (values.length * n) n value)
      (if values.length % 128 = 0 then checkpoints ++ [mark] else checkpoints) where
  bits i := by
    have fits : values.length * n + n ≤ 64 * classes.length := by
      rw [← Nat.succ_mul, Nat.mul_comm]
      exact room
    rw [bitAt_putField fits positive fun i out => getLsbD_of_narrow narrow out,
      packedBit_append positive narrow, held.bits]
  marks := by
    have marks := held.marks
    rw [List.length_append, List.length_singleton]
    split_ifs with starts
    · rw [List.length_append, List.length_singleton]
      omega
    · omega
  sums j found there := by
    have early : j < checkpoints.length →
        (values ++ [value]).take (128 * j) = values.take (128 * j) := by
      intro inside
      have marks := held.marks
      exact List.take_append_of_le_length (by omega)
    split_ifs at there with starts
    · rcases lt_or_ge j checkpoints.length with inside | outside
      · rw [List.getElem?_append_left inside] at there
        rw [early inside]
        exact held.sums j found there
      · rw [List.getElem?_append_right outside] at there
        obtain ⟨last, same⟩ := List.getElem?_eq_some_iff.mp there
        have inside : j - checkpoints.length < 1 := last
        have marks := held.marks
        have whole : 128 * j = values.length := by omega
        rw [← same, List.getElem_singleton, sum, whole, List.take_left']
        rfl
    · rw [early (List.getElem?_eq_some_iff.mp there).1]
      exact held.sums j found there
  narrow other member := by
    rcases List.mem_append.mp member with old | new
    · exact held.narrow other old
    · rw [List.mem_singleton.mp new]
      exact narrow

/-- The sections are determined by the populations and the number of words. -/
theorem Holds.unique {classes' checkpoints' : List (BitVec 64)}
    (left : Holds n values classes checkpoints) (right : Holds n values classes' checkpoints')
    (size : classes.length = classes'.length) : classes = classes' ∧ checkpoints = checkpoints' := by
  refine ⟨words_ext size fun i => by rw [left.bits, right.bits], ?_⟩
  refine List.ext_getElem (by rw [left.marks, right.marks]) fun j inside other => ?_
  refine BitVec.eq_of_toNat_eq ?_
  rw [left.sums j _ (List.getElem?_eq_getElem inside),
    right.sums j _ (List.getElem?_eq_getElem other)]

/-! ## Classes -/

theorem Holds.field (held : Holds n values classes checkpoints) (positive : 0 < n) (small : n < 64)
    (group : ℕ) : field classes (group * n) n = itemOf values group := by
  refine BitVec.eq_of_getLsbD_eq fun i _ => ?_
  rw [getLsbD_field classes _ small, held.bits]
  by_cases inside : i < n
  · rw [decide_eq_true inside, Bool.true_and, packedBit, Nat.mul_comm, Nat.mul_add_div positive,
      Nat.mul_add_mod, Nat.div_eq_of_lt inside, Nat.mod_eq_of_lt inside, Nat.add_zero]
  · rw [decide_eq_false inside, Bool.false_and,
      getLsbD_of_narrow (itemOf_toNat_lt held.narrow group) (Nat.not_lt.mp inside)]

/-- The sections hold the populations from a checkpoint on. -/
theorem Holds.drop (held : Holds n values classes checkpoints) (positive : 0 < n) {word first : ℕ}
    (start : 64 * word = n * first) (i : ℕ) :
    bitAt (classes.drop word) i = packedBit n (values.drop first) i := by
  rw [bitAt_drop, held.bits, packedBit_drop positive, start]

theorem total_drop (values : List (BitVec 64)) (first count : ℕ) :
    total (values.take first) + total ((values.drop first).take count) =
      total (values.take (first + count)) := by
  rw [List.take_add, total_append]

/-- The weight of the bits from a checkpoint to a group. -/
theorem Holds.weigh_ok (held : Holds n values classes checkpoints) (positive : 0 < n)
    {word first : ℕ} (start : 64 * word = n * first) (count : ℕ) :
    weigh (place n) (bitAt (classes.drop word)) (n * count) =
      total ((values.drop first).take count) := by
  rw [← weigh_classes positive
    (fun value member => held.narrow value (List.mem_of_mem_drop member)) count]
  exact weigh_congr (fun i _ => held.drop positive start i) fun _ _ => rfl

/-! ## Nibbles -/

variable (nibbles : Holds 4 values classes checkpoints)

include nibbles in
/-- A byte holds two nibbles. -/
theorem byte_nibbles {word first : ℕ} (start : 64 * word = 4 * first) (position : ℕ) :
    (field (classes.drop word) (8 * position) 8).toNat % 16 =
        (itemOf (values.drop first) (2 * position)).toNat ∧
      (field (classes.drop word) (8 * position) 8).toNat / 16 =
        (itemOf (values.drop first) (2 * position + 1)).toNat := by
  have narrow := @itemOf_toNat_lt 4 (values.drop first)
    fun value member => nibbles.narrow value (List.mem_of_mem_drop member)
  have bit : ∀ i < 8, (field (classes.drop word) (8 * position) 8).toNat.testBit i =
      packedBit 4 (values.drop first) (8 * position + i) := by
    intro i less
    have found := @getLsbD_field 8 (classes.drop word) (8 * position) (by decide) i
    rw [decide_eq_true less, Bool.true_and, nibbles.drop (by decide) start] at found
    exact found
  have out : ∀ i, 8 ≤ i → (field (classes.drop word) (8 * position) 8).toNat.testBit i = false := by
    intro i more
    have found := @getLsbD_field 8 (classes.drop word) (8 * position) (by decide) i
    rw [decide_eq_false (Nat.not_lt.mpr more), Bool.false_and] at found
    exact found
  refine ⟨Nat.eq_of_testBit_eq fun i => ?_, Nat.eq_of_testBit_eq fun i => ?_⟩
  · change (_ % 2 ^ 4).testBit i = _
    rw [Nat.testBit_mod_two_pow]
    rcases lt_or_ge i 4 with low | high
    · have place : (8 * position + i) / 4 = 2 * position ∧ (8 * position + i) % 4 = i := by omega
      rw [decide_eq_true low, Bool.true_and, bit i (by omega), packedBit, place.1, place.2]
      rfl
    · rw [decide_eq_false (Nat.not_lt.mpr high), Bool.false_and]
      exact (getLsbD_of_narrow (narrow _) high).symm
  · change (_ / 2 ^ 4).testBit i = _
    rw [Nat.testBit_div_two_pow]
    rcases lt_or_ge i 4 with low | high
    · have place : (8 * position + (i + 4)) / 4 = 2 * position + 1 ∧
          (8 * position + (i + 4)) % 4 = i := by omega
      rw [bit (i + 4) (by omega), packedBit, place.1, place.2]
      rfl
    · rw [out (i + 4) (by omega)]
      exact (getLsbD_of_narrow (narrow _) high).symm

include nibbles in
theorem nibbleVectors_eq {word first : ℕ} (start : 64 * word = 4 * first) {count : ℕ}
    (inside : count ≤ 128) :
    nibbleVectors (classes.drop word) count = total ((values.drop first).take count) := by
  have loop : ∀ size, (List.range size).foldl (fun total position =>
      let packed := (field (classes.drop word) (8 * position) 8).toNat
      total + ((if 2 * position < count then packed % 16 else 0) +
        if 2 * position + 1 < count then packed / 16 else 0)) 0 =
      total ((values.drop first).take (min (2 * size) count)) := by
    intro size
    induction size with
    | zero => rw [Nat.mul_zero, Nat.zero_min]; rfl
    | succ size induction =>
        obtain ⟨low, high⟩ := byte_nibbles nibbles start size
        have one := total_take_succ (values.drop first) (2 * size)
        have two := total_take_succ (values.drop first) (2 * size + 1)
        rw [List.range_succ, List.foldl_append, induction, List.foldl_cons, List.foldl_nil]
        dsimp only
        rw [low, high]
        split_ifs with first_ second
        · rw [min_eq_left (by omega), min_eq_left (by omega), Nat.mul_succ, two, one, Nat.add_assoc]
        · have last : count = 2 * size + 1 := by omega
          rw [min_eq_left (by omega), min_eq_right (by omega), last, one, Nat.add_zero]
        · omega
        · rw [min_eq_right (by omega), min_eq_right (by omega), Nat.add_zero]
  rw [nibbleVectors, loop, min_eq_right (by omega)]

/-- The words of a prefix of nibbles, the last of them masked. -/
theorem pairs_ok {word size tail : ℕ} (fits : word + size < words.length) (few : size < 8)
    (short : tail < 16) :
    ∃ pairs, (List.range' word size).foldlM (fun pairs word => do
        let value ← loadWord words word
        .ok (pairs + pairNibbles value)) 0#64 = (.ok pairs : Result (BitVec 64)) ∧
      sumBytes (pairs + pairNibbles ((words[word + size]?.getD 0#64) &&& below (4 * tail))) =
        weigh (place 4) (bitAt (words.drop word)) (4 * (16 * size + tail)) := by
  have nibble : ∀ value : BitVec 64, Within 8 30 8 (pairNibbles value).toNat ∧
      laneSum 8 8 (pairNibbles value).toNat = laneSum 4 16 value.toNat := fun value =>
    @pairNibbles_sum 15 value (within_of_lt value.isLt)
  have loop : ∀ count ≤ size, ∃ pairs, (List.range' word count).foldlM (fun pairs word => do
      let value ← loadWord words word
      .ok (pairs + pairNibbles value)) 0#64 = (.ok pairs : Result (BitVec 64)) ∧
      Within 8 (30 * count) 8 pairs.toNat ∧
      laneSum 8 8 pairs.toNat =
        weigh (place 4) (cut (words.drop word) (4 * (16 * size + tail))) (64 * count) := by
    intro count inside
    induction count with
    | zero => exact ⟨_, rfl, within_zero 8 0 8, laneSum_zero 8 8⟩
    | succ count induction =>
        obtain ⟨pairs, run, within, sum⟩ := induction (by omega)
        have masked : ∀ i < 64, (words[word + count]?.getD 0#64).getLsbD i =
            cut (words.drop word) (4 * (16 * size + tail)) (64 * count + i) := by
          intro i less
          rw [cut, bitAt_word _ _ less, List.getElem?_drop, decide_eq_true (by omega), Bool.true_and]
        obtain ⟨bytes, added⟩ := nibble (words[word + count]?.getD 0#64)
        obtain ⟨further, both⟩ := within.add bytes (by omega)
        have fit := further.lt
        refine ⟨pairs + pairNibbles (words[word + count]?.getD 0#64), ?_, ?_⟩
        · rw [List.range'_1_concat, List.foldlM_append, run, ok_bind, List.foldlM_cons,
            loadWord_ok (by omega)]
          rfl
        · rw [BitVec.toNat_add, Nat.mod_eq_of_lt fit, both, sum, added,
            laneSum_word (by decide) _ count,
            weigh_word 4 (words.drop word) _ count _ masked]
          exact ⟨further, rfl⟩
  obtain ⟨pairs, run, within, sum⟩ := loop size le_rfl
  refine ⟨pairs, run, ?_⟩
  have masked : ∀ i < 64, ((words[word + size]?.getD 0#64) &&& below (4 * tail)).getLsbD i =
      cut (words.drop word) (4 * (16 * size + tail)) (64 * size + i) := by
    intro i less
    have same : i < 4 * tail ↔ 64 * size + i < 4 * (16 * size + tail) := by omega
    rw [cut, bitAt_word _ _ less, List.getElem?_drop, BitVec.getLsbD_and, getLsbD_below (by omega),
      Bool.and_comm]
    simp only [same]
  obtain ⟨bytes, added⟩ := nibble ((words[word + size]?.getD 0#64) &&& below (4 * tail))
  obtain ⟨further, both⟩ := within.add bytes (by omega)
  have fit := further.lt
  have whole := @weigh_cut (place 4) (bitAt (words.drop word)) (4 * (16 * size + tail))
    (64 * (size + 1)) (by omega)
  rw [sumBytes_eq, BitVec.toNat_add, Nat.mod_eq_of_lt fit, both, sum, added,
    laneSum_word (by decide) _ size, ← weigh_word 4 (words.drop word) _ size _ masked]
  exact whole

end Everett.GroupRank

import Everett.EliasFano.Index

/-!
# Packing of Elias--Fano sections

The tiles of `pack_low` and its tail hold the low bits of the values in turn, and `write_high` sets
one bit for each of a strictly increasing sequence of positions.
-/

namespace Everett.EliasFano

open BitWords

variable {width : ℕ} {source : List (BitVec 64)}

/-! ## Tiles -/

theorem getLsbD_components (g : ℕ → BitVec 64) (m b : ℕ) :
    ((List.range m).foldl (fun word i => word ||| g i) 0#64).getLsbD b =
      decide (∃ i < m, (g i).getLsbD b = true) := by
  induction m with
  | zero => simp
  | succ m induction =>
      rw [List.range_succ, List.foldl_append, List.foldl_cons, List.foldl_nil, BitVec.getLsbD_or,
        induction, Bool.eq_iff_iff, Bool.or_eq_true, decide_eq_true_iff, decide_eq_true_iff]
      constructor
      · rintro (⟨i, less, here⟩ | here)
        · exact ⟨i, less.trans (Nat.lt_succ_self m), here⟩
        · exact ⟨m, Nat.lt_succ_self m, here⟩
      · rintro ⟨i, less, here⟩
        rcases Nat.lt_succ_iff_lt_or_eq.mp less with before | rfl
        · exact .inl ⟨i, before, here⟩
        · exact .inr here

/-- A component holds the bits of a value which fall into its output word. -/
theorem getLsbD_lowComponent (small : width < 64) (output input : ℕ) {b : ℕ} (inside : b < 64) :
    (lowComponent width output input source).getLsbD b =
      (decide (input * width ≤ 64 * output + b ∧ 64 * output + b < input * width + width) &&
        (itemOf source input).getLsbD (64 * output + b - input * width)) := by
  unfold lowComponent
  dsimp only
  split_ifs with before
  · have place : input * width ≤ 64 * output + b := by omega
    have offset : output * 64 - input * width + b = 64 * output + b - input * width := by omega
    have same : 64 * output + b - input * width < width ↔ 64 * output + b < input * width + width := by
      omega
    rw [BitVec.getLsbD_ushiftRight, BitVec.getLsbD_and, getLsbD_below small, offset, Bool.and_comm]
    simp only [place, same, true_and]
  · rw [BitVec.getLsbD_shiftLeft, decide_eq_true inside, Bool.true_and, BitVec.getLsbD_and,
      getLsbD_below small]
    by_cases early : b < input * width - output * 64
    · have out : ¬input * width ≤ 64 * output + b := by omega
      simp only [early, out, decide_true, Bool.not_true, Bool.false_and, false_and, decide_false]
    · have place : input * width ≤ 64 * output + b := by omega
      have offset : b - (input * width - output * 64) = 64 * output + b - input * width := by omega
      have same : 64 * output + b - input * width < width ↔
          64 * output + b < input * width + width := by omega
      simp only [early, place, offset, same, decide_false, Bool.not_false, Bool.true_and, true_and]
      exact Bool.and_comm _ _

/-- An output word of a tile holds the packed bits of the values. -/
theorem getLsbD_lowWord (positive : 0 < width) (small : width < 64) (output : ℕ) {b : ℕ}
    (inside : b < 64) :
    (lowWord width output source).getLsbD b = packedBit width source (64 * output + b) := by
  have split := Nat.div_add_mod (64 * output + b) width
  have lane := Nat.mod_lt (64 * output + b) positive
  have least : output * 64 / width ≤ (64 * output + b) / width := Nat.div_le_div_right (by omega)
  have most : (64 * output + b) / width ≤ (output * 64 + 63) / width :=
    Nat.div_le_div_right (by omega)
  have unique : ∀ input, input * width ≤ 64 * output + b ∧ 64 * output + b < input * width + width ↔
      input = (64 * output + b) / width := by
    intro input
    rw [eq_comm, Nat.div_eq_iff positive]
    omega
  have offset : 64 * output + b - (64 * output + b) / width * width = (64 * output + b) % width := by
    have product := Nat.mul_comm width ((64 * output + b) / width)
    omega
  rw [lowWord, getLsbD_components, packedBit, Bool.eq_iff_iff, decide_eq_true_iff]
  constructor
  · rintro ⟨i, -, here⟩
    rw [getLsbD_lowComponent small output _ inside, Bool.and_eq_true, decide_eq_true_iff,
      unique] at here
    obtain ⟨place, set⟩ := here
    rw [place, offset] at set
    exact set
  · intro set
    refine ⟨(64 * output + b) / width - output * 64 / width, by omega, ?_⟩
    have place : output * 64 / width + ((64 * output + b) / width - output * 64 / width) =
        (64 * output + b) / width := by omega
    rw [getLsbD_lowComponent small output _ inside, place, Bool.and_eq_true, decide_eq_true_iff,
      unique, offset]
    exact ⟨rfl, set⟩

theorem lowTile_length (width : ℕ) (source : List (BitVec 64)) :
    (lowTile width source).length = width / Nat.gcd width 64 := by
  rw [lowTile, List.length_map, List.length_range]

theorem bitAt_lowTile (positive : 0 < width) (small : width < 64) {i : ℕ}
    (inside : i < 64 * (width / Nat.gcd width 64)) :
    bitAt (lowTile width source) i = packedBit width source i := by
  have lane := Nat.mod_lt i (y := 64) (by decide)
  have word : i / 64 < width / Nat.gcd width 64 := by omega
  rw [bitAt, lowTile, List.getElem?_map, List.getElem?_range word]
  change (lowWord width (i / 64) source).getLsbD (i % 64) = _
  rw [getLsbD_lowWord positive small _ lane, Nat.div_add_mod]

/-- Fields return to a word boundary after a tile. -/
theorem tile_extent (width : ℕ) :
    width * (64 / Nat.gcd width 64) = 64 * (width / Nat.gcd width 64) := by
  obtain ⟨a, left⟩ := Nat.gcd_dvd_left width 64
  obtain ⟨b, right⟩ := Nat.gcd_dvd_right width 64
  have positive : 0 < Nat.gcd width 64 := Nat.gcd_pos_of_pos_right width (by decide)
  generalize Nat.gcd width 64 = g at *
  have first : width / g = a := by rw [left, Nat.mul_div_cancel_left _ positive]
  have second : 64 / g = b := by rw [right, Nat.mul_div_cancel_left _ positive]
  rw [first, second]
  calc width * b = g * a * b := by rw [← left]
    _ = g * b * a := by ring
    _ = 64 * a := by rw [← right]

theorem bitAt_tiles (positive : 0 < width) (small : width < 64) (tiles : ℕ) :
    ((List.range tiles).flatMap fun tile =>
        lowTile width (source.drop (tile * (64 / Nat.gcd width 64)))).length =
      tiles * (width / Nat.gcd width 64) ∧
    ∀ i < 64 * (tiles * (width / Nat.gcd width 64)),
      bitAt ((List.range tiles).flatMap fun tile =>
        lowTile width (source.drop (tile * (64 / Nat.gcd width 64)))) i =
      packedBit width source i := by
  induction tiles with
  | zero => exact ⟨(Nat.zero_mul _).symm, fun i less => by omega⟩
  | succ tiles induction =>
      obtain ⟨size, bits⟩ := induction
      have extent := tile_extent width
      rw [List.range_succ, List.flatMap_append, List.flatMap_singleton]
      refine ⟨?_, fun i less => ?_⟩
      · rw [List.length_append, size, lowTile_length, Nat.succ_mul]
      · rw [bitAt_append, size]
        split_ifs with before
        · exact bits i before
        · have place : width * (tiles * (64 / Nat.gcd width 64)) =
              64 * (tiles * (width / Nat.gcd width 64)) := by
            rw [Nat.mul_left_comm, extent, Nat.mul_left_comm]
          rw [Nat.add_mul, Nat.one_mul] at less
          rw [bitAt_lowTile positive small (by omega), packedBit_drop positive, place,
            Nat.add_sub_cancel' (Nat.not_lt.mp before)]

/-! ## The tail -/

theorem lowTail_ok (positive : 0 < width) (small : width < 64) {tail : List (BitVec 64)}
    (clear : ∀ i, bitAt tail i = false) (room : source.length * width ≤ 64 * tail.length) :
    (lowTail width source tail).length = tail.length ∧
      ∀ i, bitAt (lowTail width source tail) i = packedBit width source i := by
  have narrow : ∀ value : BitVec 64, (value &&& below width).toNat < 2 ^ width := by
    intro value
    have mask : (below width).toNat < 2 ^ width :=
      Nat.lt_pow_two_of_testBit _ fun i out => by
        have bit := getLsbD_below small i
        rw [decide_eq_false (Nat.not_lt.mpr out)] at bit
        exact bit
    rw [BitVec.toNat_and]
    exact Nat.and_lt_two_pow _ mask
  have loop : ∀ count ≤ source.length,
      ((List.range count).foldl (fun tail i =>
        putField tail (i * width) width (itemOf source i &&& below width)) tail).length =
          tail.length ∧
      ∀ i, bitAt ((List.range count).foldl (fun tail i =>
        putField tail (i * width) width (itemOf source i &&& below width)) tail) i =
        packedBit width ((source.map (· &&& below width)).take count) i := by
    intro count less
    induction count with
    | zero =>
        refine ⟨rfl, fun i => ?_⟩
        rw [List.range_zero, List.foldl_nil, clear, List.take_zero, packedBit, itemOf]
        simp
    | succ count induction =>
        obtain ⟨size, bits⟩ := induction (by omega)
        have fits : (count + 1) * width ≤ source.length * width := Nat.mul_le_mul_right _ less
        rw [Nat.succ_mul] at fits
        have length : ((source.map (· &&& below width)).take count).length = count := by
          rw [List.length_take, List.length_map]
          omega
        have further : (source.map (· &&& below width)).take (count + 1) =
            (source.map (· &&& below width)).take count ++ [itemOf source count &&& below width] := by
          rw [List.take_add_one, List.getElem?_map, itemOf, List.getElem?_eq_getElem less]
          rfl
        rw [List.range_succ, List.foldl_append, List.foldl_cons, List.foldl_nil, putField_length]
        refine ⟨size, fun i => ?_⟩
        rw [bitAt_putField (by omega) positive fun i out => getLsbD_of_narrow (narrow _) out, bits,
          further, packedBit_append positive (narrow _), length]
  obtain ⟨size, bits⟩ := loop source.length le_rfl
  refine ⟨size, fun i => ?_⟩
  have lane := Nat.mod_lt i positive
  rw [lowTail, bits, List.take_of_length_le (by rw [List.length_map]), packedBit, packedBit, itemOf,
    itemOf, List.getElem?_map]
  cases source[i / width]? with
  | none => rfl
  | some value =>
      change (value &&& below width).getLsbD (i % width) = value.getLsbD (i % width)
      rw [BitVec.getLsbD_and, getLsbD_below small, decide_eq_true lane, Bool.and_true]

/-- The low section holds the low bits of all values. -/
theorem packLowFixed_ok (small : width < 64) :
    (packLowFixed width source).length = (source.length * width + 63) / 64 ∧
      (0 < width → ∀ i, bitAt (packLowFixed width source) i = packedBit width source i) := by
  unfold packLowFixed
  dsimp only
  split_ifs with none
  · exact ⟨List.length_replicate, fun positive => absurd none positive.ne'⟩
  · have positive : 0 < width := Nat.pos_of_ne_zero none
    have extent := tile_extent width
    obtain ⟨size, bits⟩ := @bitAt_tiles _ source positive small
      (source.length / (64 / Nat.gcd width 64))
    have split := Nat.div_mul_le_self source.length (64 / Nat.gcd width 64)
    generalize tiled : source.length / (64 / Nat.gcd width 64) = tiles at *
    have whole : width * (tiles * (64 / Nat.gcd width 64)) =
        64 * (tiles * (width / Nat.gcd width 64)) := by
      rw [Nat.mul_left_comm, extent, Nat.mul_left_comm]
    have less := Nat.mul_le_mul_left width split
    rw [whole, Nat.mul_comm width] at less
    obtain ⟨tail_size, tail_bits⟩ := @lowTail_ok _
      (source.drop (tiles * (64 / Nat.gcd width 64))) positive small
      (List.replicate ((source.length * width + 63) / 64 -
        tiles * (width / Nat.gcd width 64)) 0#64) (bitAt_zeros _) (by
          rw [List.length_drop, List.length_replicate, Nat.sub_mul, Nat.mul_comm _ width,
            Nat.mul_comm _ width, whole, Nat.mul_comm width]
          omega)
    refine ⟨?_, fun _ i => ?_⟩
    · rw [List.length_append, size, tail_size, List.length_replicate]
      omega
    · rw [bitAt_append, size]
      split_ifs with before
      · exact bits i before
      · rw [tail_bits, packedBit_drop positive, whole, Nat.add_sub_cancel' (Nat.not_lt.mp before)]

/-! ## High bits -/

/-- The word which is filled, and what has been written. -/
structure Written (position : ℕ → ℕ) (size count : ℕ) (state : HighWord) : Prop where
  length : state.out.length = size
  word : count ≠ 0 → state.word = position (count - 1) / 64
  start : count = 0 → state.word = 0
  clear : ∀ k ≥ state.word, itemOf state.out k = 0#64
  bits : ∀ i, (if i / 64 = state.word then state.value.getLsbD (i % 64) else bitAt state.out i) =
    decide (∃ j < count, position j = i)

theorem itemOf_set {words : List (BitVec 64)} {k : ℕ} (value : BitVec 64) {i : ℕ} (apart : i ≠ k) :
    itemOf (words.set k value) i = itemOf words i := by
  rw [itemOf, itemOf, List.getElem?_set_ne apart.symm]

theorem Written.step {size count : ℕ} {state : HighWord}
    (written : Written (highPosition source width) size count state)
    (increases : ∀ j < count, highPosition source width j < highPosition source width count)
    (inside : highPosition source width count < 64 * size) :
    Written (highPosition source width) size (count + 1) (highStep source width state count) := by
  generalize equal : highPosition source width = position at *
  have later : state.word ≤ position count / 64 := by
    rcases Nat.eq_zero_or_pos count with none | some
    · rw [written.start none]
      exact Nat.zero_le _
    · rw [written.word some.ne']
      exact Nat.div_le_div_right (increases (count - 1) (by omega)).le
  -- The word which is left is stored, and the next word is still clear.
  obtain ⟨middle, made, length, word, clear, bits⟩ : ∃ middle : HighWord,
      (if position count / 64 ≠ state.word then
        ⟨state.out.set state.word state.value, position count / 64, 0#64⟩ else state) = middle ∧
      middle.out.length = size ∧ middle.word = position count / 64 ∧
      (∀ k ≥ middle.word, itemOf middle.out k = 0#64) ∧
      ∀ i, (if i / 64 = middle.word then middle.value.getLsbD (i % 64) else bitAt middle.out i) =
        decide (∃ j < count, position j = i) := by
    split_ifs with moved
    · refine ⟨_, rfl, ?_, rfl, fun k after => ?_, fun i => ?_⟩
      · rw [List.length_set, written.length]
      · have apart : k ≠ state.word := by
          change position count / 64 ≤ k at after
          omega
        change itemOf (state.out.set state.word state.value) k = _
        rw [itemOf_set _ apart]
        exact written.clear k (later.trans after)
      · have there : state.word < state.out.length := by
          rw [written.length]
          omega
        rw [← written.bits i]
        change (if i / 64 = position count / 64 then (0#64).getLsbD (i % 64)
          else bitAt (state.out.set state.word state.value) i) = _
        rw [bitAt_set there]
        split_ifs with here old
        · exact absurd (here.symm.trans old) moved
        · have zero := written.clear (i / 64) (by omega)
          rw [bitAt, ← itemOf, zero]
        · rfl
        · rfl
    · exact ⟨_, rfl, written.length, (not_not.mp moved).symm, written.clear, written.bits⟩
  have set : highStep source width state count =
      { middle with value := middle.value ||| 1#64 <<< (position count % 64) } := by
    unfold highStep
    dsimp only
    rw [equal, made]
  have further : ∀ i, decide (∃ j < count + 1, position j = i) =
      (decide (∃ j < count, position j = i) || decide (position count = i)) := by
    intro i
    rw [Bool.eq_iff_iff, Bool.or_eq_true, decide_eq_true_iff, decide_eq_true_iff,
      decide_eq_true_iff]
    constructor
    · rintro ⟨j, less, here⟩
      rcases Nat.lt_succ_iff_lt_or_eq.mp less with earlier | rfl
      · exact .inl ⟨j, earlier, here⟩
      · exact .inr here
    · rintro (⟨j, less, here⟩ | here)
      · exact ⟨j, less.trans (Nat.lt_succ_self count), here⟩
      · exact ⟨count, Nat.lt_succ_self count, here⟩
  rw [set]
  refine ⟨length, fun _ => word, fun zero => absurd zero (Nat.succ_ne_zero count), clear, fun i => ?_⟩
  have split := Nat.div_add_mod i 64
  have split' := Nat.div_add_mod (position count) 64
  have lane := Nat.mod_lt i (y := 64) (by decide)
  have before := bits i
  change (if i / 64 = middle.word then
    (middle.value ||| 1#64 <<< (position count % 64)).getLsbD (i % 64) else bitAt middle.out i) = _
  rw [further, ← before]
  split_ifs with here
  · have bit : (1#64 <<< (position count % 64)).getLsbD (i % 64) = decide (position count = i) := by
      rw [BitVec.getLsbD_shiftLeft, BitVec.getLsbD_one, Bool.eq_iff_iff]
      simp only [Bool.and_eq_true, decide_eq_true_eq, Bool.not_eq_true', decide_eq_false_iff_not]
      omega
    rw [BitVec.getLsbD_or, bit]
  · have apart : position count ≠ i := by
      rintro rfl
      exact here word.symm
    rw [decide_eq_false apart, Bool.or_false]

theorem writeHigh_ok {size : ℕ}
    (increases : ∀ i j, i < j → j < source.length →
      highPosition source width i < highPosition source width j)
    (inside : ∀ i < source.length, highPosition source width i < 64 * size) :
    (writeHigh source (List.replicate size 0#64) width).length = size ∧
      ∀ i, bitAt (writeHigh source (List.replicate size 0#64) width) i =
        decide (∃ j < source.length, highPosition source width j = i) := by
  have zeros : ∀ k, itemOf (List.replicate size 0#64) k = 0#64 := by
    intro k
    rw [itemOf, List.getElem?_replicate]
    split_ifs <;> rfl
  have loop : ∀ count ≤ source.length, Written (highPosition source width) size count
      ((List.range count).foldl (highStep source width) ⟨List.replicate size 0#64, 0, 0#64⟩) := by
    intro count less
    induction count with
    | zero =>
        refine ⟨List.length_replicate, fun some => absurd rfl some, fun _ => rfl,
          fun k _ => zeros k, fun i => ?_⟩
        change (if i / 64 = 0 then (0#64).getLsbD (i % 64) else bitAt (List.replicate size 0#64) i) = _
        rw [bitAt_zeros, BitVec.getLsbD_zero, ite_self]
        simp
    | succ count induction =>
        rw [List.range_succ, List.foldl_append]
        exact (induction (by omega)).step (fun j earlier => increases j count earlier less)
          (inside count less)
  have written := loop source.length le_rfl
  unfold writeHigh
  dsimp only
  split_ifs with some
  · have last : source.length ≠ 0 := fun none => some (List.length_eq_zero_iff.mp none)
    have there := inside (source.length - 1) (by omega)
    have word : ((List.range source.length).foldl (highStep source width)
        ⟨List.replicate size 0#64, 0, 0#64⟩).word < size := by
      rw [written.word last]
      omega
    refine ⟨by rw [List.length_set, written.length], fun i => ?_⟩
    rw [bitAt_set (by rw [written.length]; exact word), ← written.bits i]
  · rw [not_not.mp some]
    exact ⟨List.length_replicate, fun i => by rw [List.length_nil]; simp [bitAt_zeros]⟩

end Everett.EliasFano

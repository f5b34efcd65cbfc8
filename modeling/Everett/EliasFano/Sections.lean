import Everett.EliasFano.Pack

/-!
# Sections of an Elias--Fano index

What `build` makes of a nondecreasing sequence: the low bits and the high positions of its values,
and a sample for each group of 256 of them.
-/

namespace Everett.EliasFano

open BitWords Outcome

variable {source : List (BitVec 64)} {index : Index} {width : ℕ}

/-- The values of a sequence do not decrease. -/
def Nondecreasing (source : List (BitVec 64)) : Prop :=
  ∀ i j, i ≤ j → j < source.length → (itemOf source i).toNat ≤ (itemOf source j).toNat

theorem monotone_iff (source : List (BitVec 64)) :
    monotone source = true ↔ Nondecreasing source := by
  unfold monotone
  rw [List.all_eq_true]
  constructor
  · intro each i j least inside
    induction j with
    | zero => rw [Nat.le_zero.mp least]
    | succ j induction =>
        rcases Nat.of_le_succ least with before | rfl
        · have step := each (j + 1) (List.mem_range'_1.mpr (by omega))
          rw [decide_eq_true_iff, Nat.add_sub_cancel] at step
          exact (induction before (by omega)).trans step
        · exact le_rfl
  · intro sorted i member
    obtain ⟨first, last⟩ := List.mem_range'_1.mp member
    exact decide_eq_true (sorted (i - 1) i (Nat.sub_le i 1) (by omega))

/-- High positions increase. -/
theorem Nondecreasing.increases (sorted : Nondecreasing source) (width : ℕ) (i j : ℕ) (less : i < j)
    (inside : j < source.length) : highPosition source width i < highPosition source width j :=
  Nat.add_lt_add_of_le_of_lt (Nat.div_le_div_right (sorted i j less.le inside)) less

/-! ## Samples -/

/-- The sample of a group. -/
structure Sampled (position : ℕ → ℕ) (entries group : ℕ) (sparse : List ℕ) (sample : Sample) :
    Prop where
  first : sample.first = position (256 * group)
  spans : sample.sparse = dense → ∀ i, 256 * group ≤ i → i < 256 * (group + 1) → i < entries →
    position i - position (256 * group) < 4096
  kept : sample.sparse ≠ dense → ∀ lane < 256, 256 * group + lane < entries →
    sparse[sample.sparse + lane]? = some (position (256 * group + lane))

theorem Sampled.append {position : ℕ → ℕ} {entries group : ℕ} {sparse : List ℕ} {sample : Sample}
    (sampled : Sampled position entries group sparse sample) (more : List ℕ) :
    Sampled position entries group (sparse ++ more) sample where
  first := sampled.first
  spans := sampled.spans
  kept far lane small inside := by
    have there := sampled.kept far lane small inside
    rw [List.getElem?_append_left (List.getElem?_eq_some_iff.mp there).1, there]

/-- The samples of the groups so far. -/
structure SampledUpTo (position : ℕ → ℕ) (entries count : ℕ) (state : List Sample × List ℕ) :
    Prop where
  size : state.1.length = count
  few : state.2.length ≤ 256 * count
  each : ∀ (group : ℕ) (sample : Sample), state.1[group]? = some sample →
    Sampled position entries group state.2 sample

theorem sampleGroup_ok (sorted : Nondecreasing source) (bounded : source.length ≤ maximumExtent)
    {count : ℕ} (inside : 256 * count < source.length) {state : List Sample × List ℕ}
    (sampled : SampledUpTo (highPosition source width) source.length count state) :
    SampledUpTo (highPosition source width) source.length (count + 1)
      (sampleGroup source width state count) := by
  have increases := sorted.increases width
  have most : maximumExtent = 2 ^ 64 - 256 := rfl
  have mark : dense = 2 ^ 64 - 1 := rfl
  obtain ⟨size, few, each⟩ := sampled
  unfold sampleGroup
  dsimp only
  generalize stopped : (if source.length - 256 * count < 256 then source.length
    else 256 * count + 256) = stop
  have stops : stop = min source.length (256 * (count + 1)) := by
    rw [← stopped]
    split_ifs <;> omega
  generalize highPosition source width = position at *
  have found : ∀ {sparse : List ℕ} {last : Sample}, Sampled position source.length count sparse last →
      (∀ group sample, state.1[group]? = some sample →
        Sampled position source.length group sparse sample) →
      ∀ (group : ℕ) (sample : Sample), (state.1 ++ [last])[group]? = some sample →
        Sampled position source.length group sparse sample := by
    intro sparse last new old group sample there
    rcases lt_or_ge group state.1.length with before | after
    · rw [List.getElem?_append_left before] at there
      exact old group sample there
    · rw [List.getElem?_append_right after] at there
      obtain ⟨small, same⟩ := List.getElem?_eq_some_iff.mp there
      have near : group - state.1.length < 1 := small
      have here : group = count := by omega
      rw [← same, List.getElem_singleton, here]
      exact new
  split_ifs with wide
  · refine ⟨?_, ?_, found ⟨rfl, fun same => ?_, fun _ lane small less => ?_⟩
      fun group sample there => (each group sample there).append _⟩
    · rw [List.length_append, size, List.length_singleton]
    · rw [List.length_append, List.length_map, List.length_range']
      omega
    · have same' : state.2.length = dense := same
      omega
    · change (state.2 ++ _)[state.2.length + lane]? = _
      rw [List.getElem?_append_right (by omega), Nat.add_sub_cancel_left, List.getElem?_map,
        List.getElem?_range' (by omega)]
      rw [Nat.one_mul]
      rfl
  · refine ⟨?_, ?_, found ⟨rfl, fun _ i least less within => ?_, fun far => absurd rfl far⟩ each⟩
    · rw [List.length_append, size, List.length_singleton]
    · exact few.trans (by omega)
    · rcases Nat.lt_or_ge i (stop - 1) with before | last
      · have := increases i (stop - 1) before (by omega)
        omega
      · have here : i = stop - 1 := by omega
        rw [here]
        omega

theorem samples_ok (sorted : Nondecreasing source) (bounded : source.length ≤ maximumExtent)
    (width : ℕ) :
    SampledUpTo (highPosition source width) source.length ((source.length + 255) / 256)
      ((List.range ((source.length + 255) / 256)).foldl (sampleGroup source width) ([], [])) := by
  have loop : ∀ count ≤ (source.length + 255) / 256,
      SampledUpTo (highPosition source width) source.length count
        ((List.range count).foldl (sampleGroup source width) ([], [])) := by
    intro count less
    induction count with
    | zero => exact ⟨rfl, Nat.le_refl _, fun _ _ there => by simp at there⟩
    | succ count induction =>
        rw [List.range_succ, List.foldl_append]
        exact sampleGroup_ok sorted bounded (by omega) (induction (by omega))
  exact loop _ le_rfl

/-! ## All sections -/

/-- The sections of a sequence which is not empty. -/
structure Sections (source : List (BitVec 64)) (index : Index) : Prop where
  positive : 0 < source.length
  sorted : Nondecreasing source
  entries : index.entryCount = source.length
  greatest : index.universe_ = (itemOf source (source.length - 1)).toNat
  narrow : index.lowWidth < 64
  admitted : ¬tooLarge source.length index.universe_ index.lowWidth
  low_size : index.low.length = (source.length * index.lowWidth + 63) / 64
  low : 0 < index.lowWidth → ∀ i, bitAt index.low i = packedBit index.lowWidth source i
  high_size : index.high.length = (index.highBits + 63) / 64
  high : ∀ i, bitAt index.high i =
    decide (∃ j < source.length, highPosition source index.lowWidth j = i)
  samples : SampledUpTo (highPosition source index.lowWidth) source.length
    ((source.length + 255) / 256) (index.samples, index.sparse)

theorem chooseWidth_lt {greatest entries : ℕ} (less : greatest < 2 ^ 64) :
    chooseWidth greatest entries < 64 := by
  unfold chooseWidth
  split_ifs with some
  · exact (Nat.log2_lt some).mpr ((Nat.div_le_self _ _).trans_lt less)
  · decide

theorem build_ok (some : source ≠ []) (sorted : Nondecreasing source)
    (admitted : ¬tooLarge source.length (itemOf source (source.length - 1)).toNat
      (chooseWidth (itemOf source (source.length - 1)).toNat source.length)) :
    ∃ index, build source = .ok index ∧ Sections source index := by
  have positive : 0 < source.length := List.length_pos_of_ne_nil some
  have narrow := @chooseWidth_lt _ source.length
    (itemOf source (source.length - 1)).isLt
  have monotone := (monotone_iff source).mpr sorted
  unfold build
  dsimp only
  generalize chooseWidth (itemOf source (source.length - 1)).toNat source.length = width at *
  obtain ⟨low_size, low⟩ := @packLowFixed_ok _ source narrow
  have limits := admitted
  unfold tooLarge at limits
  have bounded : source.length ≤ maximumExtent := by omega
  have most : maximumExtent = 2 ^ 64 - 256 := rfl
  have fits : width ≠ 0 → source.length ≤ maximumExtent / width := by
    intro some
    by_contra large
    exact limits (.inr (.inl ⟨some, by omega⟩))
  have packed : packLow width source = .ok (packLowFixed width source) := by
    have small : maximumExtent / width ≤ (2 ^ 64 - 1 - 63) / width :=
      Nat.div_le_div_right (by omega)
    rw [packLow, if_neg (by omega), if_neg]
    rintro ⟨some, large⟩
    have := fits some
    omega
  have inside : ∀ i < source.length, highPosition source width i <
      64 * (((itemOf source (source.length - 1)).toNat / 2 ^ width + source.length + 63) / 64) := by
    intro i less
    have top := Nat.div_le_div_right (c := 2 ^ width)
      (sorted i (source.length - 1) (by omega) (by omega))
    unfold highPosition
    omega
  obtain ⟨high_size, high⟩ := writeHigh_ok (sorted.increases width) inside
  have samples := samples_ok sorted bounded width
  refine ⟨⟨packLowFixed width source, writeHigh source (List.replicate
    (((itemOf source (source.length - 1)).toNat / 2 ^ width + source.length + 63) / 64) 0#64) width,
    ((List.range ((source.length + 255) / 256)).foldl (sampleGroup source width) ([], [])).1,
    ((List.range ((source.length + 255) / 256)).foldl (sampleGroup source width) ([], [])).2,
    source.length, (itemOf source (source.length - 1)).toNat, width⟩, ?_, positive, sorted, rfl, rfl,
    narrow, admitted, low_size, low, ?_, high, samples⟩
  · rw [if_neg some, monotone, if_neg Bool.true_eq_false_eq_False, if_neg admitted, packed, ok_bind]
  · rw [high_size, Index.highBits]
    dsimp only
    rw [if_neg positive.ne']

end Everett.EliasFano

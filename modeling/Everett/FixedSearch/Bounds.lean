import Everett.FixedSearch.Population
import Everett.Library.Partition

/-!
# Bounds of sorted keys

The branch-free binary search halves a power of two, clamped to the keys unless they fill a complete
window.  A few keys are searched by the rank of three pivots and the population of the bucket it
selects.  Each of them finds the partition point of the keys which precede a query.
-/

namespace Everett.FixedSearch

open Outcome Partition

/-- `fixed_key_view`: borrowed bytes of whole keys. -/
structure FixedKeyView (K : KeyWidth) where
  bytes : List (BitVec 8)
  whole : K.bytes ∣ bytes.length

/-- `std::bit_floor`. -/
def bitFloor (n : ℕ) : ℕ := if n = 0 then 0 else 2 ^ n.log2

/-- `std::has_single_bit`. -/
def hasSingleBit (n : ℕ) : Bool := decide (n ≠ 0 ∧ bitFloor n = n)

/-- `explicit_simd_limit`. -/
def explicitSimdLimit : ℕ := 32

/-- `prefer_simd`. -/
def preferSimd (arch : Arch) (K : KeyWidth) (size : ℕ) : Bool :=
  match arch, K with
  | .neon _, .four => (2 ≤ size && size ≤ 4) || size = 15 || size = 16 || size = 32
  | .neon _, _ => size = 4
  | .registers .eight _, .one => size = 4
  | .registers .eight _, .two => 2 ≤ size && size ≤ 4
  | .registers .eight _, .four => size = 2 || size = 4
  | _, _ => false

variable {K : KeyWidth} (view : FixedKeyView K) (arch : Arch) (upper : Bool) (query : Key K)

namespace FixedKeyView

/-- `size`. -/
def size : ℕ := view.bytes.length / K.bytes

/-- The loop over a complete window. -/
def completeLoop (step first : ℕ) : Result ℕ :=
  if step = 0 then .ok first
  else do
    let found ← precedes K upper view.bytes ((first + step - 1) * K.bytes) query
    completeLoop (step / 2) (first + step * found.toNat)
termination_by step

/-- The loop whose probes are clamped to the keys. -/
def clampedLoop (step first : ℕ) : Result ℕ :=
  if step = 0 then .ok first
  else do
    let next := first + step
    let probe := min next view.size - 1
    let below ← precedes K upper view.bytes (probe * K.bytes) query
    clampedLoop (step / 2) (first + step * (decide (next ≤ view.size) && below).toNat)
termination_by step

/-- `binary_bound`. -/
def binaryBound : Result ℕ :=
  let step := bitFloor view.size
  if hasSingleBit (view.size + 1) then view.completeLoop upper query step 0
  else view.clampedLoop upper query step 0

/-- The bytes of one key, as `memcpy` reads them. -/
def copyKey (ordinal : ℕ) : Result (List (BitVec 8)) := do
  require (ordinal * K.bytes + K.bytes ≤ view.bytes.length) "key behind the end of the keys"
  .ok ((view.bytes.drop (ordinal * K.bytes)).take K.bytes)

/-- Number of pivots which precede the query. -/
def pivotRank (ordinals : List ℕ) : Result ℕ :=
  match arch, K, view, query with
  | .neon _, .four, view, query =>
      ordinals.foldlM (fun rank ordinal => do
        let found ← precedesFour upper view.bytes (ordinal * 16) query
        .ok (rank + found.toNat)) 0
  | arch, K, view, query => do
      let pivots ← ordinals.mapM view.copyKey
      population K upper pivots.flatten 0 arch 3 query

/-- `pivot_step`: narrow the window to the bucket between two pivots. -/
def pivotStep (first count : ℕ) : Result (ℕ × ℕ) := do
  let positions := [count >>> 2, count >>> 1, (3 * count) >>> 2]
  let rank ← view.pivotRank arch upper query (positions.map (first + ·))
  let start := ((rank * count) >>> 2) + (if rank ≠ 0 then 1 else 0)
  let end_ := ((rank + 1) * count) >>> 2
  .ok (first + start, end_ - start)

/-- `small_bound`. -/
def smallBound (bucket : ℕ) : Result ℕ := do
  let (first, count) ←
    if bucket > 4 then view.pivotStep arch upper query 0 view.size else .ok (0, view.size)
  let (first, count) ←
    if bucket > 16 then view.pivotStep arch upper query first count else .ok (first, count)
  if count = 0 then .ok first
  else do
    let found ← population K upper view.bytes (first * K.bytes) arch count query
    .ok (first + found)

/-- `simd_bound`. -/
def simdBound : Result ℕ :=
  if view.size ≤ 4 then view.smallBound arch upper query 4
  else if view.size ≤ 8 then view.smallBound arch upper query 8
  else if view.size ≤ 16 then view.smallBound arch upper query 16
  else if view.size ≤ explicitSimdLimit then view.smallBound arch upper query 32
  else view.binaryBound upper query

/-- `lower_bound` and `upper_bound`. -/
def bound : Result ℕ :=
  if preferSimd arch K view.size then view.simdBound arch upper query else view.binaryBound upper query

/-- The key of an ordinal. -/
def key (ordinal : ℕ) : Key K := keyAt K view.bytes (ordinal * K.bytes)

/-- Keys in nondecreasing order, duplicates allowed. -/
def Sorted : Prop :=
  ∀ i j, i ≤ j → j < view.size → number (view.key i) ≤ number (view.key j)

/-- Whether the key of an ordinal precedes the query. -/
def ahead (ordinal : ℕ) : Bool := below upper query (view.key ordinal)

/-- Number of keys which precede the query. -/
def rank : ℕ := (List.range view.size).countP (view.ahead upper query)

end FixedKeyView

namespace FixedKeyView

variable {view} {upper} {query} {point : ℕ}

theorem length_eq (view : FixedKeyView K) : view.size * K.bytes = view.bytes.length :=
  Nat.div_mul_cancel view.whole

theorem inside {ordinal : ℕ} (less : ordinal < view.size) :
    ordinal * K.bytes + K.bytes ≤ view.bytes.length := by
  rw [← view.length_eq, ← Nat.succ_mul]
  exact Nat.mul_le_mul_right _ less

theorem precedes_ahead {ordinal : ℕ} (less : ordinal < view.size) :
    precedes K upper view.bytes (ordinal * K.bytes) query =
      .ok (view.ahead upper query ordinal) :=
  precedes_ok upper query (inside less)

/-- Sorted keys are parted at the number of keys which precede a query. -/
theorem Sorted.parted (sorted : view.Sorted) (upper : Bool) (query : Key K) :
    Parted (view.ahead upper query) view.size (view.rank upper query) := by
  obtain ⟨point, parted⟩ := @exists_parted (view.ahead upper query) view.size
    fun i j le less holds => by
      have order := sorted i j le less
      unfold ahead below at holds ⊢
      cases upper
      · exact decide_eq_true (order.trans_lt (of_decide_eq_true holds))
      · exact decide_eq_true (order.trans (of_decide_eq_true holds))
  unfold rank
  rw [parted.countP]
  exact parted

/-! ## Binary search -/

theorem bitFloor_le (n : ℕ) : bitFloor n ≤ n := by
  unfold bitFloor
  by_cases zero : n = 0
  · rw [if_pos zero]
    exact Nat.zero_le n
  · rw [if_neg zero]
    exact Nat.log2_self_le zero

theorem lt_bitFloor (n : ℕ) : n ≤ 2 * bitFloor n - 1 := by
  unfold bitFloor
  by_cases zero : n = 0
  · rw [zero]
    exact Nat.zero_le _
  · have above := Nat.lt_log2_self (n := n)
    rw [if_neg zero]
    rw [pow_succ] at above
    omega

/-- A complete window is one less than the double of its first step. -/
theorem complete_window {n : ℕ} (complete : hasSingleBit (n + 1) = true) :
    2 * bitFloor n - 1 ≤ n := by
  by_cases zero : n = 0
  · rw [zero]
    decide
  · have power := (of_decide_eq_true complete).2
    unfold bitFloor at power ⊢
    rw [if_neg (Nat.succ_ne_zero n)] at power
    rw [if_neg zero]
    have below_power : 2 ^ n.log2 < 2 ^ (n + 1).log2 := by
      have le := Nat.log2_self_le zero
      omega
    have exponent := (Nat.pow_lt_pow_iff_right (by decide)).mp below_power
    have double : 2 ^ (n.log2 + 1) ≤ 2 ^ (n + 1).log2 :=
      Nat.pow_le_pow_right (by decide) exponent
    rw [pow_succ] at double
    omega

/-- A step is zero or a power of two. -/
theorem bitFloor_cases (n : ℕ) : bitFloor n = 0 ∨ ∃ exponent, bitFloor n = 2 ^ exponent := by
  unfold bitFloor
  by_cases zero : n = 0
  · exact .inl (if_pos zero)
  · exact .inr ⟨_, if_neg zero⟩

theorem completeLoop_ok (parted : Parted (view.ahead upper query) view.size point) {step : ℕ}
    (power : step = 0 ∨ ∃ exponent, step = 2 ^ exponent) {first : ℕ}
    (complete : first + (2 * step - 1) ≤ view.size) (lower : first ≤ point)
    (higher : point ≤ first + (2 * step - 1)) :
    view.completeLoop upper query step first = .ok point := by
  have finished : ∀ {first}, first ≤ point → point ≤ first →
      view.completeLoop upper query 0 first = .ok point := fun le ge => by
    rw [completeLoop, if_pos rfl, Nat.le_antisymm le ge]
  have probe : ∀ {step first}, 0 < step → first + (2 * step - 1) ≤ view.size → first ≤ point →
      point ≤ first + (2 * step - 1) → ∃ next, view.completeLoop upper query step first =
        view.completeLoop upper query (step / 2) next ∧ next + (step - 1) ≤ view.size ∧
          next ≤ point ∧ point ≤ next + (step - 1) := by
    intro step first positive complete lower higher
    refine ⟨first + step * (view.ahead upper query (first + step - 1)).toNat, ?_, ?_⟩
    · rw [completeLoop, if_neg positive.ne', precedes_ahead (by omega), ok_bind]
    · rw [parted.iff _ (by omega)]
      by_cases before : first + step - 1 < point
      · rw [decide_eq_true before, Bool.toNat_true, Nat.mul_one]
        omega
      · rw [decide_eq_false before, Bool.toNat_false, Nat.mul_zero]
        omega
  rcases power with rfl | ⟨exponent, rfl⟩
  · exact finished lower higher
  · induction exponent generalizing first with
    | zero =>
        obtain ⟨next, same, _, le, ge⟩ := probe (by decide) complete lower higher
        rw [same]
        exact finished le ge
    | succ exponent induction =>
        obtain ⟨next, same, inside, le, ge⟩ := probe (by positivity) complete lower higher
        rw [same, pow_succ, Nat.mul_div_cancel _ (by decide)]
        rw [pow_succ, Nat.mul_comm] at inside ge
        exact induction le inside ge

theorem clampedLoop_ok (parted : Parted (view.ahead upper query) view.size point) {step : ℕ}
    (power : step = 0 ∨ ∃ exponent, step = 2 ^ exponent) (few : step ≤ view.size) {first : ℕ}
    (lower : first ≤ point) (higher : point ≤ first + (2 * step - 1)) :
    view.clampedLoop upper query step first = .ok point := by
  have last := parted.inside
  have finished : ∀ {first}, first ≤ point → point ≤ first →
      view.clampedLoop upper query 0 first = .ok point := fun le ge => by
    rw [clampedLoop, if_pos rfl, Nat.le_antisymm le ge]
  have probe : ∀ {step first}, 0 < step → step ≤ view.size → first ≤ point →
      point ≤ first + (2 * step - 1) → ∃ next, view.clampedLoop upper query step first =
        view.clampedLoop upper query (step / 2) next ∧ next ≤ point ∧
          point ≤ next + (step - 1) := by
    intro step first positive few lower higher
    refine ⟨first + step * (decide (first + step ≤ view.size) &&
      view.ahead upper query (min (first + step) view.size - 1)).toNat, ?_, ?_⟩
    · rw [clampedLoop, if_neg positive.ne']
      dsimp only
      rw [precedes_ahead (by omega), ok_bind]
    · by_cases clamped : first + step ≤ view.size
      · rw [decide_eq_true clamped, Bool.true_and, Nat.min_eq_left clamped,
          parted.iff _ (by omega)]
        by_cases before : first + step - 1 < point
        · rw [decide_eq_true before, Bool.toNat_true, Nat.mul_one]
          omega
        · rw [decide_eq_false before, Bool.toNat_false, Nat.mul_zero]
          omega
      · rw [decide_eq_false clamped, Bool.false_and, Bool.toNat_false, Nat.mul_zero]
        omega
  rcases power with rfl | ⟨exponent, rfl⟩
  · exact finished lower higher
  · induction exponent generalizing first with
    | zero =>
        obtain ⟨next, same, le, ge⟩ := probe (by decide) few lower higher
        rw [same]
        exact finished le ge
    | succ exponent induction =>
        obtain ⟨next, same, le, ge⟩ := probe (by positivity) few lower higher
        rw [same, pow_succ, Nat.mul_div_cancel _ (by decide)]
        rw [pow_succ, Nat.mul_comm] at ge
        rw [pow_succ] at few
        exact induction le (by omega) ge

theorem clampedBound_ok (parted : Parted (view.ahead upper query) view.size point) :
    view.clampedLoop upper query (bitFloor view.size) 0 = .ok point :=
  clampedLoop_ok parted (bitFloor_cases _) (bitFloor_le _) (Nat.zero_le _)
    (by rw [Nat.zero_add]; exact parted.inside.trans (lt_bitFloor _))

theorem binaryBound_ok (parted : Parted (view.ahead upper query) view.size point) :
    view.binaryBound upper query = .ok point := by
  unfold binaryBound
  by_cases complete : hasSingleBit (view.size + 1) = true
  · dsimp only
    rw [if_pos complete]
    refine completeLoop_ok parted (bitFloor_cases _) ?_ (Nat.zero_le _) ?_
    · rw [Nat.zero_add]
      exact complete_window complete
    · rw [Nat.zero_add]
      exact parted.inside.trans (lt_bitFloor _)
  · dsimp only
    rw [if_neg complete]
    exact clampedBound_ok parted

/-! ## Pivots -/

theorem wordAt_congr {xs ys : List (BitVec 8)} {o o' : ℕ}
    (same : ∀ i < 4, xs[o + i]? = ys[o' + i]?) : wordAt xs o = wordAt ys o' := by
  have first := same 0 (by decide)
  rw [Nat.add_zero, Nat.add_zero] at first
  unfold wordAt
  rw [same 3 (by decide), same 2 (by decide), same 1 (by decide), first]

theorem keyAt_congr {xs ys : List (BitVec 8)} {o o' : ℕ}
    (same : ∀ i < K.bytes, xs[o + i]? = ys[o' + i]?) : keyAt K xs o = keyAt K ys o' := by
  funext i
  refine wordAt_congr fun j less => ?_
  have word := i.isLt
  rw [Nat.add_assoc, Nat.add_assoc]
  refine same _ ?_
  unfold KeyWidth.bytes
  omega

/-- The copy of a key. -/
def copied (view : FixedKeyView K) (ordinal : ℕ) : List (BitVec 8) :=
  (view.bytes.drop (ordinal * K.bytes)).take K.bytes

theorem copyKey_ok {ordinal : ℕ} (less : ordinal < view.size) :
    view.copyKey ordinal = .ok (view.copied ordinal) := by
  rw [copyKey, require_true (inside less), ok_bind]
  rfl

theorem length_copied {ordinal : ℕ} (less : ordinal < view.size) :
    (view.copied ordinal).length = K.bytes := by
  have room := inside less
  rw [copied, List.length_take, List.length_drop]
  omega

/-- A copy holds its key wherever it stands. -/
theorem keyAt_copied {ordinal : ℕ} (less : ordinal < view.size) (front rest : List (BitVec 8)) :
    keyAt K (front ++ (view.copied ordinal ++ rest)) front.length = view.key ordinal := by
  refine keyAt_congr fun i inner => ?_
  have length := length_copied less
  rw [List.getElem?_append_right (Nat.le_add_right _ _), Nat.add_sub_cancel_left,
    List.getElem?_append_left (by omega), copied, List.getElem?_take_of_lt inner,
    List.getElem?_drop]

theorem pivotRank_ok {a b c : ℕ} (first : a < view.size) (second : b < view.size)
    (third : c < view.size) :
    view.pivotRank arch upper query [a, b, c] = .ok ((view.ahead upper query a).toNat +
      (view.ahead upper query b).toNat + (view.ahead upper query c).toNat) := by
  have copies : [a, b, c].mapM view.copyKey =
      .ok [view.copied a, view.copied b, view.copied c] := by
    simp only [List.mapM_cons, List.mapM_nil, copyKey_ok first, copyKey_ok second,
      copyKey_ok third, ok_bind, pure_eq_ok]
  have counted : ∀ arch, (do
      let pivots ← [a, b, c].mapM view.copyKey
      population K upper pivots.flatten 0 arch 3 query) = (.ok ((view.ahead upper query a).toNat +
        (view.ahead upper query b).toNat + (view.ahead upper query c).toNat) : Result ℕ) := by
    intro arch
    have one := keyAt_copied first [] (view.copied b ++ (view.copied c ++ []))
    have two := keyAt_copied second (view.copied a) (view.copied c ++ [])
    have three := keyAt_copied third (view.copied a ++ view.copied b) []
    rw [List.length_append, length_copied first, length_copied second, List.append_assoc] at three
    rw [length_copied first] at two
    rw [List.length_nil, List.nil_append] at one
    have flat : [view.copied a, view.copied b, view.copied c].flatten =
        view.copied a ++ (view.copied b ++ (view.copied c ++ [])) := rfl
    rw [copies, ok_bind, population_ok upper arch query (by decide), countP_range_succ,
      countP_range_succ, countP_range_succ, flat]
    · unfold preceding ahead
      have place : 0 + 2 * K.bytes = K.bytes + K.bytes := by omega
      rw [Nat.zero_mul, Nat.one_mul, place, Nat.zero_add, Nat.zero_add, one, two, three]
      simp
    · rw [flat]
      simp only [List.length_append, length_copied first, length_copied second,
        length_copied third]
      omega
  cases arch with
  | scalar => exact counted _
  | registers lanes idle => exact counted _
  | neon idle =>
      cases K with
      | one => exact counted _
      | two => exact counted _
      | four =>
          have four : ∀ {ordinal}, ordinal < view.size →
              precedesFour upper view.bytes (ordinal * 16) query =
                .ok (view.ahead upper query ordinal) := fun less =>
            precedesFour_ok upper query (inside less)
          simp only [pivotRank, List.foldlM_cons, List.foldlM_nil, four first, four second,
            four third, ok_bind, pure_eq_ok, Nat.zero_add]

/-- The rank of the pivots selects the bucket of the partition point. -/
theorem pivotStep_ok (parted : Parted (view.ahead upper query) view.size point) {first count : ℕ}
    (enough : 3 ≤ count) (inside : first + count ≤ view.size) (lower : first ≤ point)
    (higher : point ≤ first + count) :
    ∃ first' count', view.pivotStep arch upper query first count = .ok (first', count') ∧
      first' ≤ point ∧ point ≤ first' + count' ∧ first' + count' ≤ view.size ∧
      4 * count' ≤ count + 3 ∧ count ≤ 4 * count' + 6 := by
  have quarter : count >>> 2 = count / 4 := Nat.shiftRight_eq_div_pow _ _
  have half : count >>> 1 = count / 2 := Nat.shiftRight_eq_div_pow _ _
  have most : (3 * count) >>> 2 = 3 * count / 4 := Nat.shiftRight_eq_div_pow _ _
  have divide : ∀ n : ℕ, n >>> 2 = n / 4 := fun n => Nat.shiftRight_eq_div_pow _ _
  have ranked := @pivotRank_ok K view arch upper query (first + count / 4) (first + count / 2)
    (first + 3 * count / 4) (by omega) (by omega) (by omega)
  rw [parted.iff _ (by omega), parted.iff _ (by omega), parted.iff _ (by omega)] at ranked
  unfold pivotStep
  dsimp only
  rw [quarter, half, most, List.map_cons, List.map_cons, List.map_cons, List.map_nil, ranked,
    ok_bind, divide, divide]
  refine ⟨_, _, rfl, ?_⟩
  by_cases one : first + count / 4 < point
  · by_cases two : first + count / 2 < point
    · by_cases three : first + 3 * count / 4 < point
      · simp only [one, two, three, decide_true, Bool.toNat_true]
        rw [if_pos (by decide)]
        omega
      · simp only [one, two, three, decide_true, decide_false, Bool.toNat_true, Bool.toNat_false]
        rw [if_pos (by decide)]
        have residues : count % 4 = 0 ∨ count % 4 = 1 ∨ count % 4 = 2 ∨ count % 4 = 3 := by omega
        rcases residues with rest | rest | rest | rest <;> omega
    · have three : ¬first + 3 * count / 4 < point := by omega
      simp only [one, two, three, decide_true, decide_false, Bool.toNat_true, Bool.toNat_false]
      rw [if_pos (by decide)]
      omega
  · have two : ¬first + count / 2 < point := by omega
    have three : ¬first + 3 * count / 4 < point := by omega
    simp only [one, two, three, decide_false, Bool.toNat_false]
    rw [if_neg (by decide)]
    omega

/-- The population of the bucket completes the bound. -/
theorem bucket_ok (parted : Parted (view.ahead upper query) view.size point) {first count : ℕ}
    (few : count ≤ 4) (inside : first + count ≤ view.size) (lower : first ≤ point)
    (higher : point ≤ first + count) :
    (if count = 0 then .ok first
      else do
        let found ← population K upper view.bytes (first * K.bytes) arch count query
        .ok (first + found)) = (.ok point : Result ℕ) := by
  by_cases none_left : count = 0
  · rw [if_pos none_left, Nat.le_antisymm lower (by omega)]
  · have room : first * K.bytes + count * K.bytes ≤ view.bytes.length := by
      rw [← Nat.add_mul, ← view.length_eq]
      exact Nat.mul_le_mul_right _ inside
    have window := (parted.window lower higher inside).countP
    have same : preceding K upper view.bytes (first * K.bytes) query =
        fun i => view.ahead upper query (first + i) := by
      funext i
      rw [preceding, ahead, key, Nat.add_mul]
    rw [if_neg none_left, population_ok upper arch query few room, ok_bind, same, window,
      Nat.add_sub_cancel' lower]

theorem smallBound_ok (parted : Parted (view.ahead upper query) view.size point) {bucket : ℕ}
    (few : view.size ≤ 32)
    (fits : bucket ≤ 4 ∧ view.size ≤ 4 ∨
      4 < bucket ∧ bucket ≤ 16 ∧ 3 ≤ view.size ∧ view.size ≤ 16 ∨
        16 < bucket ∧ 17 ≤ view.size) :
    view.smallBound arch upper query bucket = .ok point := by
  have whole := parted.inside
  unfold smallBound
  rcases fits with ⟨bucket_small, size_small⟩ | ⟨more, less, three, sixteen⟩ | ⟨more, many⟩
  · rw [if_neg (by omega), ok_bind]
    dsimp only
    rw [if_neg (by omega), ok_bind]
    exact bucket_ok arch parted size_small (by omega) (Nat.zero_le _) (by omega)
  · obtain ⟨first, count, step, lower, higher, inside, small, _⟩ :=
      @pivotStep_ok K view arch upper query point parted 0 view.size three (by omega)
        (Nat.zero_le _) (by omega)
    rw [if_pos more, step, ok_bind]
    dsimp only
    rw [if_neg (by omega), ok_bind]
    exact bucket_ok arch parted (by omega) inside lower higher
  · obtain ⟨first, count, step, lower, higher, inside, small, large⟩ :=
      @pivotStep_ok K view arch upper query point parted 0 view.size (by omega) (by omega)
        (Nat.zero_le _) (by omega)
    obtain ⟨first', count', step', lower', higher', inside', small', _⟩ :=
      @pivotStep_ok K view arch upper query point parted first count (by omega) inside lower
        higher
    rw [if_pos (by omega), step, ok_bind]
    dsimp only
    rw [if_pos more, step', ok_bind]
    exact bucket_ok arch parted (by omega) inside' lower' higher'

theorem simdBound_ok (parted : Parted (view.ahead upper query) view.size point) :
    view.simdBound arch upper query = .ok point := by
  unfold simdBound explicitSimdLimit
  by_cases four : view.size ≤ 4
  · rw [if_pos four]
    exact smallBound_ok arch parted (by omega) (by omega)
  rw [if_neg four]
  by_cases eight : view.size ≤ 8
  · rw [if_pos eight]
    exact smallBound_ok arch parted (by omega) (by omega)
  rw [if_neg eight]
  by_cases sixteen : view.size ≤ 16
  · rw [if_pos sixteen]
    exact smallBound_ok arch parted (by omega) (by omega)
  rw [if_neg sixteen]
  by_cases limit : view.size ≤ 32
  · rw [if_pos limit]
    exact smallBound_ok arch parted limit (by omega)
  · rw [if_neg limit]
    exact binaryBound_ok parted

theorem bound_ok (parted : Parted (view.ahead upper query) view.size point) :
    view.bound arch upper query = .ok point := by
  unfold bound
  by_cases simd : preferSimd arch K view.size = true
  · rw [if_pos simd]
    exact simdBound_ok arch parted
  · rw [if_neg simd]
    exact binaryBound_ok parted

end FixedKeyView

/-- Every search of sorted keys finds the number of keys which precede a query, on any architecture
and at any length, and probes no key outside the array. -/
theorem fixed_bounds_agree (view : FixedKeyView K) (sorted : view.Sorted) (arch : Arch)
    (upper : Bool) (query : Key K) :
    view.binaryBound upper query = .ok (view.rank upper query) ∧
      view.clampedLoop upper query (bitFloor view.size) 0 = .ok (view.rank upper query) ∧
      view.simdBound arch upper query = .ok (view.rank upper query) ∧
      view.bound arch upper query = .ok (view.rank upper query) := by
  have parted := sorted.parted upper query
  exact ⟨FixedKeyView.binaryBound_ok parted, FixedKeyView.clampedBound_ok parted,
    FixedKeyView.simdBound_ok arch parted, FixedKeyView.bound_ok arch parted⟩

/-- Two equal keys and a greater one. -/
def duplicateKeys : FixedKeyView .one :=
  ⟨[1#8, 0#8, 0#8, 0#8, 1#8, 0#8, 0#8, 0#8, 0#8, 1#8, 0#8, 0#8], by decide⟩

/-- The upper bound of a duplicate key stands behind both of its occurrences. -/
theorem fixed_bounds_agree_duplicates :
    duplicateKeys.bound .scalar true (fun _ => 1#32) = .ok 2 := by
  have sorted : duplicateKeys.Sorted := by
    intro i j le less
    change j < 3 at less
    interval_cases j <;> interval_cases i <;> decide
  have two : duplicateKeys.rank true (fun _ => 1#32) = 2 := by decide
  rw [← two]
  exact (fixed_bounds_agree duplicateKeys sorted .scalar true fun _ => 1#32).2.2.2

end Everett.FixedSearch

import Everett.Library.Lanes

/-!
# Selection in a word

`select_word` finds the set bit of a word which has a given number of set bits below it: populations
of bytes give the byte, then a nibble, a pair and a bit are chosen in turn.
-/

namespace Everett.EliasFano

open BitWords Lanes

/-- Populations of pairs and of nibbles. -/
def nibbles (value : BitVec 64) : BitVec 64 :=
  let pairs := value - (value >>> 1 &&& 0x5555555555555555#64)
  (pairs &&& 0x3333333333333333#64) + (pairs >>> 2 &&& 0x3333333333333333#64)

/-- Populations of bytes and all bytes below them. -/
def prefixes (value : BitVec 64) : BitVec 64 :=
  ((nibbles value + nibbles value >>> 4) &&& 0x0f0f0f0f0f0f0f0f#64) * 0x0101010101010101#64

/-- The top bits of the bytes up to which more bits are set than an ordinal. -/
def marked (value : BitVec 64) (ordinal : ℕ) : BitVec 64 :=
  ((prefixes value ||| 0x8080808080808080#64) -
    BitVec.ofNat 64 (ordinal + 1) * 0x0101010101010101#64) &&& 0x8080808080808080#64

/-- `deposit_bits`: successive low bits are moved to the set bits of a mask. -/
def depositBits (source mask : BitVec 64) : BitVec 64 :=
  (List.range 64).foldl (fun result bit =>
    if mask.getLsbD bit ∧ source.getLsbD (ones mask.getLsbD bit) then result ||| 1#64 <<< bit
    else result) 0#64

/-- `select_word`, on an architecture which deposits bits or by arithmetic. -/
def selectWord (deposits : Bool) (value : BitVec 64) (ordinal : ℕ) : ℕ :=
  if deposits then countrZero (depositBits (1#64 <<< ordinal) value)
  else
    let shift := countrZero (marked value ordinal) / 8 * 8
    let ordinal :=
      if shift ≠ 0 then ordinal - (prefixes value >>> (shift - 8) &&& 255#64).toNat else ordinal
    let lower := (nibbles value >>> shift &&& 15#64).toNat
    let step := if lower ≤ ordinal then 1 else 0
    let shift := shift + step * 4
    let ordinal := ordinal - step * lower
    let bits := value >>> shift &&& 15#64
    let lower := (bits &&& 1#64).toNat + (bits >>> 1 &&& 1#64).toNat
    let step := if lower ≤ ordinal then 1 else 0
    let shift := shift + step * 2
    let ordinal := ordinal - step * lower
    shift + ordinal + if value >>> shift &&& 1#64 = 0#64 then 1 else 0

/-! ## Populations -/

variable {value : BitVec 64} {ordinal : ℕ}

theorem toNat_and_lane (k : ℕ) (small : k < 64) (value : BitVec 64) (shift : ℕ) :
    (value >>> shift &&& below k).toNat = value.toNat / 2 ^ shift % 2 ^ k := by
  have mask : (below k).toNat = 2 ^ k - 1 := by
    refine Nat.eq_of_testBit_eq fun i => ?_
    rw [Nat.testBit_two_pow_sub_one]
    exact getLsbD_below small i
  rw [BitVec.toNat_and, mask, Nat.and_two_pow_sub_one_eq_mod, BitVec.toNat_ushiftRight,
    Nat.shiftRight_eq_div_pow]

/-- A pair less its upper bit is its population. -/
theorem pairs_toNat (value : BitVec 64) :
    (value - (value >>> 1 &&& 0x5555555555555555#64)).toNat = pairLanes 1 32 value.toNat := by
  have mask : (0x5555555555555555#64).toNat = evenLanes 1 32 := by decide
  have upper : (value >>> 1 &&& 0x5555555555555555#64).toNat =
      value.toNat / 2 ^ 1 &&& evenLanes 1 32 := by
    rw [BitVec.toNat_and, mask, BitVec.toNat_ushiftRight, Nat.shiftRight_eq_div_pow]
  have split : ∀ m x, x < 2 ^ (2 * m) →
      (x &&& evenLanes 1 m) + 2 * (x / 2 ^ 1 &&& evenLanes 1 m) = x := by
    intro m
    induction m with
    | zero =>
        intro x less
        rw [evenLanes, Nat.and_zero, Nat.and_zero]
        omega
    | succ m induction =>
        intro x less
        have rest := induction (x / 2 ^ (2 * 1)) (by
          rw [Nat.mul_succ, Nat.pow_add] at less
          exact (Nat.div_lt_iff_lt_mul (Nat.two_pow_pos _)).mpr less)
        have swap : x / 2 ^ 1 / 2 ^ (2 * 1) = x / 2 ^ (2 * 1) / 2 ^ 1 := by omega
        rw [and_evenLanes_succ, and_evenLanes_succ, swap]
        generalize x / 2 ^ (2 * 1) &&& evenLanes 1 m = a at rest ⊢
        generalize x / 2 ^ (2 * 1) / 2 ^ 1 &&& evenLanes 1 m = b at rest ⊢
        omega
  have whole := split 32 value.toNat value.isLt
  have bounded := value.isLt
  rw [BitVec.toNat_sub, upper, pairLanes]
  omega

theorem nibbles_toNat (value : BitVec 64) :
    (nibbles value).toNat = pairLanes 2 16 (pairLanes 1 32 value.toNat) ∧
      Within 4 4 16 (nibbles value).toNat := by
  have bits : Within 1 1 (2 * 32) value.toNat := within_of_lt value.isLt
  have pairs := bits.pairLanes (by decide)
  have four := (pairs.pairLanes (k := 2) (m := 16) (by decide))
  have mask : (0x3333333333333333#64).toNat = evenLanes 2 16 := by decide
  have equal : (nibbles value).toNat = pairLanes 2 16 (pairLanes 1 32 value.toNat) := by
    rw [nibbles, BitVec.toNat_add, BitVec.toNat_and, BitVec.toNat_and, BitVec.toNat_ushiftRight,
      Nat.shiftRight_eq_div_pow, mask, pairs_toNat]
    exact Nat.mod_eq_of_lt four.lt
  rw [equal]
  exact ⟨rfl, four⟩

theorem ones_pair (f : ℕ → Bool) (s : ℕ) :
    ones f (s + 2) = ones f s + ((f s).toNat + (f (s + 1)).toNat) := by
  rw [ones_succ, ones_succ, Nat.add_assoc]

/-- A nibble holds its population. -/
theorem nibbles_lane (value : BitVec 64) {j : ℕ} (inside : j < 16) :
    ones value.getLsbD (4 * j) + lane 4 (nibbles value).toNat j =
      ones value.getLsbD (4 * j + 4) := by
  have pair : ∀ i < 32, lane 2 (pairLanes 1 32 value.toNat) i =
      (value.getLsbD (2 * i)).toNat + (value.getLsbD (2 * i + 1)).toNat := by
    intro i less
    rw [show 2 = 2 * 1 from rfl, lane_pairLanes (by decide) less, lane_one, lane_one]
    rfl
  have four : lane 4 (nibbles value).toNat j =
      lane 2 (pairLanes 1 32 value.toNat) (2 * j) +
        lane 2 (pairLanes 1 32 value.toNat) (2 * j + 1) := by
    rw [(nibbles_toNat value).1]
    exact lane_pairLanes (by decide) inside _
  have place : 4 * j + 4 = 4 * j + 2 + 2 := rfl
  rw [four, pair _ (by omega), pair _ (by omega), place, ones_pair, ones_pair,
    show 2 * (2 * j) = 4 * j by omega, show 2 * (2 * j + 1) = 4 * j + 2 by omega]
  omega

/-- The population of a byte. -/
theorem bytes_lane (value : BitVec 64) {j : ℕ} (inside : j < 8) :
    ones value.getLsbD (8 * j) + lane 8 (pairLanes 4 8 (nibbles value).toNat) j =
      ones value.getLsbD (8 * (j + 1)) := by
  have eight : lane 8 (pairLanes 4 8 (nibbles value).toNat) j =
      lane 4 (nibbles value).toNat (2 * j) + lane 4 (nibbles value).toNat (2 * j + 1) :=
    lane_pairLanes (by decide) inside _
  have first := nibbles_lane value (j := 2 * j) (by omega)
  have second := nibbles_lane value (j := 2 * j + 1) (by omega)
  have low : 4 * (2 * j) = 8 * j := by omega
  have high : 4 * (2 * j + 1) = 8 * j + 4 := by omega
  have next : 8 * (j + 1) = 8 * j + 4 + 4 := rfl
  rw [low] at first
  rw [high] at second
  rw [next]
  omega

/-- One multiplication adds up all bytes below a byte. -/
theorem bytes_product {a b c d e f g h : ℕ} (fits : a + b + c + d + e + f + g + h < 2 ^ 8) :
    Nat.ofDigits (2 ^ 8) [a, b, c, d, e, f, g, h] * 0x0101010101010101 % 2 ^ 64 =
      Nat.ofDigits (2 ^ 8) [a, a + b, a + b + c, a + b + c + d, a + b + c + d + e,
        a + b + c + d + e + f, a + b + c + d + e + f + g, a + b + c + d + e + f + g + h] := by
  have product : Nat.ofDigits (2 ^ 8) [a, b, c, d, e, f, g, h] * 0x0101010101010101 =
      Nat.ofDigits (2 ^ 8) [a, a + b, a + b + c, a + b + c + d, a + b + c + d + e,
        a + b + c + d + e + f, a + b + c + d + e + f + g, a + b + c + d + e + f + g + h] +
      2 ^ 64 * Nat.ofDigits (2 ^ 8) [b + c + d + e + f + g + h, c + d + e + f + g + h,
        d + e + f + g + h, e + f + g + h, f + g + h, g + h, h] := by
    simp only [Nat.ofDigits_cons, Nat.ofDigits_nil]
    ring
  have less : Nat.ofDigits (2 ^ 8) [a, a + b, a + b + c, a + b + c + d, a + b + c + d + e,
      a + b + c + d + e + f, a + b + c + d + e + f + g, a + b + c + d + e + f + g + h] < 2 ^ 64 := by
    simp only [Nat.ofDigits_cons, Nat.ofDigits_nil]
    omega
  rw [product, Nat.add_mul_mod_self_left, Nat.mod_eq_of_lt less]

/-- The set bits up to and including every byte. -/
def counts (value : BitVec 64) : List ℕ :=
  (List.range 8).map fun j => ones value.getLsbD (8 * (j + 1))

theorem counts_le (value : BitVec 64) : ∀ count ∈ counts value, count ≤ 64 := by
  intro count member
  obtain ⟨j, inside, rfl⟩ := List.mem_map.mp member
  have less := List.mem_range.mp inside
  exact (ones_le _ _).trans (by omega)

theorem prefixes_toNat (value : BitVec 64) :
    (prefixes value).toNat = Nat.ofDigits (2 ^ 8) (counts value) := by
  have within := (nibbles_toNat value).2
  have mask : (0x0f0f0f0f0f0f0f0f#64).toNat = evenLanes 4 8 := by decide
  have fits : Within 8 8 8 (pairLanes 4 8 (nibbles value).toNat) :=
    Within.pairLanes (k := 4) (m := 8) (by decide) within
  have shifted : (nibbles value >>> 4).toNat = (nibbles value).toNat / 2 ^ 4 := by
    rw [BitVec.toNat_ushiftRight, Nat.shiftRight_eq_div_pow]
  have room : (nibbles value).toNat + (nibbles value).toNat / 2 ^ 4 < 2 ^ 64 := by
    have top : (nibbles value).toNat < 2 ^ 63 := by
      obtain ⟨-, -, -, -, -, -, -, -, -, -, -, -, -, -, -, last, none⟩ := within
      simp only [Nat.div_div_eq_div_mul, ← Nat.pow_add] at last none
      omega
    omega
  have bytes : ((nibbles value + nibbles value >>> 4) &&& 0x0f0f0f0f0f0f0f0f#64).toNat =
      pairLanes 4 8 (nibbles value).toNat := by
    rw [BitVec.toNat_and, mask, BitVec.toNat_add, shifted, Nat.mod_eq_of_lt room]
    exact and_sum_evenLanes (k := 4) (m := 8) within (by decide)
  have digits := ofDigits_lanes (k := 8) (m := 8) fits.lt
  have lanes := fun j less => bytes_lane value (j := j) less
  generalize pairLanes 4 8 (nibbles value).toNat = p at bytes digits lanes
  change Nat.ofDigits (2 ^ 8) [lane 8 p 0, lane 8 p 1, lane 8 p 2, lane 8 p 3, lane 8 p 4,
    lane 8 p 5, lane 8 p 6, lane 8 p 7] = p at digits
  have whole := ones_le value.getLsbD 64
  have zero := lanes 0 (by decide)
  have one := lanes 1 (by decide)
  have two := lanes 2 (by decide)
  have three := lanes 3 (by decide)
  have four := lanes 4 (by decide)
  have five := lanes 5 (by decide)
  have six := lanes 6 (by decide)
  have seven := lanes 7 (by decide)
  simp only [Nat.mul_zero, ones_zero, Nat.reduceMul, Nat.reduceAdd, Nat.zero_add] at zero one two
  simp only [Nat.reduceMul, Nat.reduceAdd] at three four five six seven
  rw [prefixes, BitVec.toNat_mul, bytes, ← digits]
  refine (bytes_product (by omega)).trans ?_
  change _ = Nat.ofDigits (2 ^ 8) [ones value.getLsbD 8, ones value.getLsbD 16,
    ones value.getLsbD 24, ones value.getLsbD 32, ones value.getLsbD 40, ones value.getLsbD 48,
    ones value.getLsbD 56, ones value.getLsbD 64]
  rw [← seven, ← six, ← five, ← four, ← three, ← two, ← one, ← zero]

/-! ## The marked byte -/

theorem prefixes_lane (value : BitVec 64) {j : ℕ} (inside : j < 8) :
    lane 8 (prefixes value).toNat j = ones value.getLsbD (8 * (j + 1)) := by
  rw [prefixes_toNat, lane_ofDigits fun count member =>
    (counts_le value count member).trans_lt (by decide)]
  interval_cases j <;> rfl

theorem top_bits : ∀ i < 64, (0x8080808080808080#64).getLsbD i = decide (i % 8 = 7) := by
  decide

/-- The repunit of a number of digits. -/
def repunit (base : ℕ) : ℕ → ℕ
  | 0 => 0
  | n + 1 => 1 + base * repunit base n

theorem ofDigits_le {base bound : ℕ} {digits : List ℕ} (most : ∀ digit ∈ digits, digit ≤ bound) :
    Nat.ofDigits base digits ≤ bound * repunit base digits.length := by
  induction digits with
  | nil => exact Nat.zero_le _
  | cons digit digits induction =>
      have first := most digit List.mem_cons_self
      have rest := Nat.mul_le_mul_left base
        (induction fun other member => most other (List.mem_cons_of_mem _ member))
      rw [Nat.ofDigits_cons, List.length_cons, repunit, Nat.mul_add, Nat.mul_one,
        Nat.mul_left_comm]
      exact Nat.add_le_add first rest

/-- Digits which leave room are lowered one by one. -/
theorem ofDigits_lower (base : ℕ) {more less : ℕ} (room : less ≤ more) (digits : List ℕ) :
    Nat.ofDigits base (digits.map fun digit => more + digit - less) +
        less * repunit base digits.length =
      Nat.ofDigits base digits + more * repunit base digits.length := by
  induction digits with
  | nil => rfl
  | cons digit digits induction =>
      have split : more + digit - less = digit + (more - less) := by omega
      have joined : less + (more - less) = more := Nat.add_sub_cancel' room
      rw [List.map_cons, Nat.ofDigits_cons, Nat.ofDigits_cons, List.length_cons, repunit, split]
      calc digit + (more - less) +
              base * Nat.ofDigits base (digits.map fun digit => more + digit - less) +
            less * (1 + base * repunit base digits.length)
          = digit + (less + (more - less)) +
            base * (Nat.ofDigits base (digits.map fun digit => more + digit - less) +
              less * repunit base digits.length) := by ring
        _ = _ := by
          rw [induction, joined]
          ring

/-- The top bit of a byte is marked when enough bits are set up to it. -/
theorem getLsbD_marked (small : ordinal < 64) {i : ℕ} (inside : i < 64) :
    (marked value ordinal).getLsbD i =
      decide (i % 8 = 7 ∧ ordinal < ones value.getLsbD (8 * (i / 8 + 1))) := by
  have most : ∀ j < 8, ones value.getLsbD (8 * (j + 1)) ≤ 64 := fun j less =>
    (ones_le _ _).trans (by omega)
  have apart : prefixes value &&& 0x8080808080808080#64 = 0#64 := by
    refine BitVec.eq_of_getLsbD_eq fun i less => ?_
    rw [BitVec.getLsbD_and, top_bits i less, BitVec.getLsbD_zero]
    by_cases top : i % 8 = 7
    · have place : i = 8 * (i / 8) + 7 := by omega
      have byte := prefixes_lane value (j := i / 8) (by omega)
      have bit := testBit_lane (k := 8) (prefixes value).toNat (i := 7) (by decide) (i / 8)
      have narrow : (lane 8 (prefixes value).toNat (i / 8)).testBit 7 = false :=
        Nat.testBit_lt_two_pow (by rw [byte]; exact (most _ (by omega)).trans_lt (by decide))
      rw [narrow, ← place] at bit
      rw [BitVec.getLsbD, ← bit, Bool.false_and]
    · rw [decide_eq_false top, Bool.and_false]
  have difference : ((prefixes value ||| 0x8080808080808080#64) -
      BitVec.ofNat 64 (ordinal + 1) * 0x0101010101010101#64).toNat =
      Nat.ofDigits (2 ^ 8) ((counts value).map fun count => 128 + count - (ordinal + 1)) := by
    have length : (counts value).length = 8 := rfl
    have ones8 : repunit (2 ^ 8) 8 = 0x0101010101010101 := by decide
    have bound := @ofDigits_le (2 ^ 8) _ _ (counts_le value)
    have lowered := @ofDigits_lower (2 ^ 8) 128 (ordinal + 1) (by omega)
      (counts value)
    have word := (ordinal + 1) * 0x0101010101010101
    rw [length, ones8] at bound lowered
    have top : (0x8080808080808080#64).toNat = 128 * 0x0101010101010101 := by decide
    have less : (ordinal + 1) * 0x0101010101010101 ≤ 64 * 0x0101010101010101 :=
      Nat.mul_le_mul_right _ small
    rw [← BitVec.add_eq_or_of_and_eq_zero _ _ apart, BitVec.toNat_sub, BitVec.toNat_mul,
      BitVec.toNat_add, prefixes_toNat, top, BitVec.toNat_ofNat, BitVec.toNat_ofNat,
      Nat.mod_eq_of_lt (a := ordinal + 1) (by omega),
      Nat.mod_eq_of_lt (a := 0x0101010101010101) (by decide)]
    omega
  rw [marked, BitVec.getLsbD_and, top_bits i inside, Bool.and_comm]
  by_cases top : i % 8 = 7
  · have place : i = 8 * (i / 8) + 7 := by omega
    have bit := testBit_lane (k := 8) (Nat.ofDigits (2 ^ 8)
      ((counts value).map fun count => 128 + count - (ordinal + 1))) (i := 7) (by decide) (i / 8)
    have byte : ((counts value).map fun count => 128 + count - (ordinal + 1)).getD (i / 8) 0 =
        128 + ones value.getLsbD (8 * (i / 8 + 1)) - (ordinal + 1) := by
      have near : i / 8 < 8 := by omega
      generalize i / 8 = j at near
      interval_cases j <;> rfl
    have limit := most (i / 8) (by omega)
    rw [lane_ofDigits, byte, ← place] at bit
    · rw [BitVec.getLsbD, difference, ← bit, decide_eq_true top, Bool.true_and,
        Nat.testBit_eq_decide_div_mod_eq]
      simp only [top, true_and, decide_eq_decide]
      omega
    · intro digit member
      obtain ⟨count, there, rfl⟩ := List.mem_map.mp member
      have := counts_le value count there
      omega
  · simp only [top, decide_false, Bool.false_and, false_and]

/-! ## Selection -/

/-- What is known of the position which is looked for. -/
structure Position (value : BitVec 64) (ordinal position : ℕ) : Prop where
  here : value.getLsbD position = true
  before : ones value.getLsbD position = ordinal

variable {position : ℕ}

theorem Position.small (found : Position value ordinal position) : position < 64 :=
  BitVec.lt_of_getLsbD found.here

theorem Position.le_iff (found : Position value ordinal position) (s : ℕ) :
    s ≤ position ↔ ones value.getLsbD s ≤ ordinal := by
  refine ⟨fun less => ?_, fun few => ?_⟩
  · rw [← found.before]
    exact ones_mono _ less
  · by_contra more
    have next := ones_succ value.getLsbD position
    have mono := ones_mono value.getLsbD (Nat.not_le.mp more)
    rw [found.here, Bool.toNat_true, found.before] at next
    change ones value.getLsbD (position + 1) ≤ _ at mono
    omega

/-- One halving of the window in which the position lies. -/
theorem Position.halve (found : Position value ordinal position) {s w lower : ℕ} (start : s ≤ position)
    (population : ones value.getLsbD s + lower = ones value.getLsbD (s + w)) :
    (if lower ≤ ordinal - ones value.getLsbD s then 1 else 0) = (if s + w ≤ position then 1 else 0) ∧
      ordinal - ones value.getLsbD s -
          (if lower ≤ ordinal - ones value.getLsbD s then 1 else 0) * lower =
        ordinal - ones value.getLsbD (s + (if s + w ≤ position then 1 else 0) * w) := by
  have least := (found.le_iff s).mp start
  have further := found.le_iff (s + w)
  by_cases upper : s + w ≤ position
  · have enough := further.mp upper
    rw [if_pos upper, if_pos (by omega), Nat.one_mul, Nat.one_mul]
    omega
  · have few := mt further.mpr upper
    rw [if_neg upper, if_neg (by omega)]
    simp only [Nat.zero_mul, Nat.add_zero, Nat.sub_zero, true_and]

theorem and_one (word : BitVec 64) : (word &&& 1#64).toNat = (word.getLsbD 0).toNat := by
  rw [BitVec.toNat_and, BitVec.getLsbD, Nat.toNat_testBit, Nat.pow_zero, Nat.div_one]
  exact Nat.and_one_is_mod _

theorem shifted_bit (value : BitVec 64) (s : ℕ) :
    (value >>> s &&& 1#64 = 0#64) ↔ value.getLsbD s = false := by
  have bit := and_one (value >>> s)
  rw [BitVec.getLsbD_ushiftRight, Nat.add_zero] at bit
  constructor
  · intro zero
    rw [zero] at bit
    cases there : value.getLsbD s with
    | false => rfl
    | true =>
        rw [there] at bit
        cases bit
  · intro unset
    rw [unset] at bit
    exact BitVec.eq_of_toNat_eq bit

theorem selectWord_scalar (found : Position value ordinal position) :
    selectWord false value ordinal = position := by
  have small := found.small
  have limit := ones_le value.getLsbD position
  rw [found.before] at limit
  have first : countrZero (marked value ordinal) = 8 * (position / 8) + 7 := by
    refine countrZero_eq ?_ fun i less => ?_
    · rw [getLsbD_marked (by omega) (by omega), decide_eq_true]
      refine ⟨by omega, ?_⟩
      have not_le := mt (found.le_iff (8 * ((8 * (position / 8) + 7) / 8 + 1))).mpr (by omega)
      omega
    · rw [getLsbD_marked (by omega) (by omega), decide_eq_false]
      rintro ⟨top, many⟩
      have le := (found.le_iff (8 * (i / 8 + 1))).mp (by omega)
      omega
  have byte : (8 * (position / 8) + 7) / 8 * 8 = 8 * (position / 8) := by omega
  have below8 : (255#64) = below 8 := by decide
  have below4 : (15#64) = below 4 := by decide
  have start : (if 8 * (position / 8) ≠ 0 then
      ordinal - (prefixes value >>> (8 * (position / 8) - 8) &&& 255#64).toNat else ordinal) =
      ordinal - ones value.getLsbD (8 * (position / 8)) := by
    split_ifs with later
    · have place : 8 * (position / 8) - 8 = 8 * (position / 8 - 1) := by omega
      have next : position / 8 - 1 + 1 = position / 8 := by omega
      have lane := prefixes_lane value (j := position / 8 - 1) (by omega)
      rw [next, Lanes.lane] at lane
      rw [below8, place, toNat_and_lane 8 (by decide), lane]
    · rw [not_not.mp later, ones_zero, Nat.sub_zero]
  have nibble : ones value.getLsbD (8 * (position / 8)) +
      (nibbles value >>> (8 * (position / 8)) &&& 15#64).toNat =
      ones value.getLsbD (8 * (position / 8) + 4) := by
    have place : 8 * (position / 8) = 4 * (2 * (position / 8)) := by omega
    have lane := nibbles_lane value (j := 2 * (position / 8)) (by omega)
    rw [below4, place, toNat_and_lane 4 (by decide)]
    exact lane
  have pair : ones value.getLsbD (4 * (position / 4)) +
      ((value >>> (4 * (position / 4)) &&& 15#64 &&& 1#64).toNat +
        ((value >>> (4 * (position / 4)) &&& 15#64) >>> 1 &&& 1#64).toNat) =
      ones value.getLsbD (4 * (position / 4) + 2) := by
    have low : (value >>> (4 * (position / 4)) &&& 15#64).getLsbD 0 =
        value.getLsbD (4 * (position / 4)) := by
      rw [below4, BitVec.getLsbD_and, getLsbD_below (by decide), BitVec.getLsbD_ushiftRight]
      exact Bool.and_true _
    have high : ((value >>> (4 * (position / 4)) &&& 15#64) >>> 1).getLsbD 0 =
        value.getLsbD (4 * (position / 4) + 1) := by
      rw [BitVec.getLsbD_ushiftRight, below4, BitVec.getLsbD_and, getLsbD_below (by decide),
        BitVec.getLsbD_ushiftRight]
      exact Bool.and_true _
    rw [and_one, and_one, low, high, ones_pair]
  obtain ⟨step, rest⟩ := found.halve (s := 8 * (position / 8)) (by omega) nibble
  have shift : 8 * (position / 8) + (if 8 * (position / 8) + 4 ≤ position then 1 else 0) * 4 =
      4 * (position / 4) := by
    split_ifs <;> omega
  obtain ⟨step', rest'⟩ := found.halve (s := 4 * (position / 4)) (by omega) pair
  have shift' : 4 * (position / 4) + (if 4 * (position / 4) + 2 ≤ position then 1 else 0) * 2 =
      2 * (position / 2) := by
    split_ifs <;> omega
  rw [selectWord, if_neg Bool.false_ne_true]
  dsimp only
  rw [first, byte, start, rest, step, shift, rest', step', shift']
  have next := ones_succ value.getLsbD (2 * (position / 2))
  rcases Nat.mod_two_eq_zero_or_one position with even | odd
  · have place : 2 * (position / 2) = position := by omega
    have set : ¬value >>> position &&& 1#64 = 0#64 := by
      rw [shifted_bit, found.here]
      exact Bool.true_eq_false_eq_False
    rw [place, found.before, if_neg set, Nat.sub_self]
    rfl
  · have place : 2 * (position / 2) + 1 = position := by omega
    rw [place, found.before] at next
    split_ifs with unset
    · rw [(shifted_bit value _).mp unset, Bool.toNat_false] at next
      omega
    · rw [shifted_bit, Bool.not_eq_false] at unset
      rw [unset, Bool.toNat_true] at next
      omega

theorem selectWord_deposits (found : Position value ordinal position) :
    selectWord true value ordinal = position := by
  have limit := ones_le value.getLsbD position
  have small := found.small
  rw [found.before] at limit
  have bits : ∀ i, (depositBits (1#64 <<< ordinal) value).getLsbD i =
      decide (i < 64 ∧ value.getLsbD i = true ∧ ones value.getLsbD i = ordinal) := by
    intro i
    have bit : (1#64 <<< ordinal).getLsbD (ones value.getLsbD i) = true ↔
        ones value.getLsbD i = ordinal := by
      rw [BitVec.getLsbD_shiftLeft, BitVec.getLsbD_one]
      simp only [Bool.and_eq_true, decide_eq_true_eq, Bool.not_eq_true', decide_eq_false_iff_not]
      omega
    rw [depositBits, getLsbD_foldl_bits _ le_rfl]
    simp only [bit]
  refine countrZero_eq ?_ fun i less => ?_
  · rw [bits, decide_eq_true ⟨small, found.here, found.before⟩]
  · rw [bits, decide_eq_false]
    rintro ⟨-, there, same⟩
    exact less.ne (ones_injective there found.here (same.trans found.before.symm))

/-- Selection in a word is exact. -/
theorem selectWord_eq (deposits : Bool) (found : Position value ordinal position) :
    selectWord deposits value ordinal = position := by
  cases deposits with
  | false => exact selectWord_scalar found
  | true => exact selectWord_deposits found

end Everett.EliasFano

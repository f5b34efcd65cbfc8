import Mathlib.Data.Nat.Bitwise
import Everett.Library.BitField
import Everett.Library.BitWords

/-!
# Bytes read from their most significant bit

Bytes by position are a sequence of bits, most significant first.  A field of up to 64 bits is a
number, and the difference of two fields shows in its leading zeros.
-/

namespace Everett.BigEndian

open BitWords

variable {bytes : ℕ → BitVec 8} {bit : ℕ → Bool}

/-- A bit of a sequence of bytes. -/
def bitOf (bytes : ℕ → BitVec 8) (i : ℕ) : Bool := (bytes (i / 8)).getLsbD (7 - i % 8)

/-- Some bits as a number, most significant first. -/
def fieldOf (bit : ℕ → Bool) (start width : ℕ) : BitVec 64 :=
  (List.range width).foldl (fun value i => value <<< 1 ||| (BitVec.ofBool (bit (start + i))).setWidth 64)
    0#64

theorem getLsbD_fieldOf (bit : ℕ → Bool) (start width : ℕ) {i : ℕ} (small : i < 64) :
    (fieldOf bit start width).getLsbD i = (decide (i < width) && bit (start + width - 1 - i)) := by
  induction width generalizing i with
  | zero => simp [fieldOf]
  | succ width induction =>
      have step : fieldOf bit start (width + 1) =
          fieldOf bit start width <<< 1 ||| (BitVec.ofBool (bit (start + width))).setWidth 64 := by
        rw [fieldOf, List.range_succ, List.foldl_append]
        rfl
      rw [step, BitVec.getLsbD_or, BitVec.getLsbD_shiftLeft, BitVec.getLsbD_setWidth,
        decide_eq_true small, Bool.true_and, Bool.true_and]
      cases i with
      | zero =>
          have last : start + (width + 1) - 1 - 0 = start + width := by omega
          rw [last, decide_eq_true Nat.one_pos, Bool.not_true, Bool.false_and, Bool.false_or,
            decide_eq_true (Nat.succ_pos width), Bool.true_and]
          cases bit (start + width) <;> rfl
      | succ i =>
          have place : start + (width + 1) - 1 - (i + 1) = start + width - 1 - i := by omega
          have less : i + 1 < width + 1 ↔ i < width := by omega
          have single : (BitVec.ofBool (bit (start + width))).getLsbD (i + 1) = false :=
            BitVec.getLsbD_of_ge _ _ (by omega)
          have later : ¬i + 1 < 1 := by omega
          rw [single, Bool.or_false, Nat.add_sub_cancel, induction (by omega), place]
          simp only [later, less, decide_false, Bool.not_false, Bool.true_and]

theorem fieldOf_eq {value : BitVec 64} {start width : ℕ}
    (bits : ∀ i < 64, value.getLsbD i = (decide (i < width) && bit (start + width - 1 - i))) :
    value = fieldOf bit start width :=
  BitVec.eq_of_getLsbD_eq fun i small => by rw [bits i small, getLsbD_fieldOf bit start width small]

theorem fieldOf_congr {other : ℕ → Bool} {start start' width : ℕ}
    (same : ∀ i < width, bit (start + i) = other (start' + i)) :
    fieldOf bit start width = fieldOf other start' width := by
  refine fieldOf_eq fun i small => ?_
  rw [getLsbD_fieldOf bit start width small]
  by_cases inside : i < width
  · have first : start + width - 1 - i = start + (width - 1 - i) := by omega
    have second : start' + width - 1 - i = start' + (width - 1 - i) := by omega
    rw [first, second, same _ (by omega)]
  · rw [decide_eq_false inside, Bool.false_and, Bool.false_and]

/-- A field is the number which its bits spell. -/
theorem fieldOf_toNat (bit : ℕ → Bool) (start : ℕ) {width : ℕ} (small : width ≤ 64) :
    (fieldOf bit start width).toNat =
      BitField.ofBits ((List.range width).map fun i => bit (start + i)) := by
  induction width with
  | zero => rfl
  | succ width induction =>
      have step : fieldOf bit start (width + 1) =
          fieldOf bit start width <<< 1 ||| (BitVec.ofBool (bit (start + width))).setWidth 64 := by
        rw [fieldOf, List.range_succ, List.foldl_append]
        rfl
      have before := induction (by omega)
      have bound := BitField.ofBits_lt ((List.range width).map fun i => bit (start + i))
      rw [List.length_map, List.length_range, ← before] at bound
      have power : 2 ^ width ≤ 2 ^ 63 := Nat.pow_le_pow_right Nat.two_pos (by omega)
      have single : ((BitVec.ofBool (bit (start + width))).setWidth 64).toNat =
          (bit (start + width)).toNat := by
        cases bit (start + width) <;> rfl
      have shifted : (fieldOf bit start width <<< 1).toNat = 2 * (fieldOf bit start width).toNat := by
        rw [BitVec.toNat_shiftLeft, Nat.shiftLeft_eq, Nat.mod_eq_of_lt (by omega)]
        omega
      have disjoint : 2 * (fieldOf bit start width).toNat ||| (bit (start + width)).toNat =
          2 * (fieldOf bit start width).toNat + (bit (start + width)).toNat := by
        have top := Bool.toNat_lt (bit (start + width))
        have joined := Nat.two_pow_add_eq_or_of_lt (i := 1) (b := (bit (start + width)).toNat)
          (by omega) (fieldOf bit start width).toNat
        rw [Nat.pow_one] at joined
        exact joined.symm
      rw [step, BitVec.toNat_or, shifted, single, disjoint, List.range_succ, List.map_append,
        List.map_singleton, BitField.ofBits_append_singleton, before]

/-! ## Loading -/

theorem bitOf_shift (bytes : ℕ → BitVec 8) (k i : ℕ) :
    bitOf (fun j => bytes (k + j)) i = bitOf bytes (8 * k + i) := by
  unfold bitOf
  rw [Nat.mul_add_div (by decide), Nat.mul_add_mod]

theorem getLsbD_byte (bytes : ℕ → BitVec 8) (k : ℕ) {i : ℕ} (small : i < 8) :
    (bytes k).getLsbD i = bitOf bytes (8 * k + (7 - i)) := by
  have place : (8 * k + (7 - i)) / 8 = k ∧ 7 - (8 * k + (7 - i)) % 8 = i := by omega
  rw [bitOf, place.1, place.2]

/-- Successive bytes as a number. -/
def bigEndian (bytes : ℕ → BitVec 8) (count : ℕ) : BitVec 64 :=
  (List.range count).foldl (fun value i => value <<< 8 ||| (bytes i).setWidth 64) 0#64

theorem getLsbD_bigEndian (bytes : ℕ → BitVec 8) (count : ℕ) {i : ℕ} (small : i < 64) :
    (bigEndian bytes count).getLsbD i =
      (decide (i < 8 * count) && bitOf bytes (8 * count - 1 - i)) := by
  induction count generalizing i with
  | zero => simp [bigEndian]
  | succ count induction =>
      have step : bigEndian bytes (count + 1) =
          bigEndian bytes count <<< 8 ||| (bytes count).setWidth 64 := by
        rw [bigEndian, List.range_succ, List.foldl_append]
        rfl
      rw [step, BitVec.getLsbD_or, BitVec.getLsbD_shiftLeft, BitVec.getLsbD_setWidth,
        decide_eq_true small, Bool.true_and, Bool.true_and]
      rcases Nat.lt_or_ge i 8 with low | high
      · have place : (8 * (count + 1) - 1 - i) / 8 = count ∧
            7 - (8 * (count + 1) - 1 - i) % 8 = i := by omega
        rw [decide_eq_true low, Bool.not_true, Bool.false_and, Bool.false_or, bitOf, place.1, place.2,
          decide_eq_true (by omega), Bool.true_and]
      · have place : 8 * (count + 1) - 1 - i = 8 * count - 1 - (i - 8) := by omega
        have less : i < 8 * (count + 1) ↔ i - 8 < 8 * count := by omega
        rw [decide_eq_false (Nat.not_lt.mpr high), Bool.not_false, Bool.true_and,
          induction (by omega), BitVec.getLsbD_of_ge _ _ high, Bool.or_false, place]
        simp only [less]

/-! ## Leading zeros -/

/-- Number of clear bits before the first set bit, within a length. -/
def lead (bit : ℕ → Bool) : ℕ → ℕ → ℕ
  | 0, _ => 0
  | count + 1, start => if bit start then 0 else 1 + lead bit count (start + 1)

theorem lead_set {count start : ℕ} (set : bit start = true) : lead bit (count + 1) start = 0 :=
  if_pos set

theorem lead_clear {count start : ℕ} (clear : ¬bit start = true) :
    lead bit (count + 1) start = 1 + lead bit count (start + 1) :=
  if_neg clear

theorem lead_le (bit : ℕ → Bool) (count start : ℕ) : lead bit count start ≤ count := by
  induction count generalizing start with
  | zero => exact le_rfl
  | succ count induction =>
      have := induction (start + 1)
      unfold lead
      split_ifs <;> omega

theorem lead_congr {other : ℕ → Bool} {count start start' : ℕ}
    (same : ∀ i < count, bit (start + i) = other (start' + i)) :
    lead bit count start = lead other count start' := by
  induction count generalizing start start' with
  | zero => rfl
  | succ count induction =>
      have first := same 0 (Nat.succ_pos count)
      rw [Nat.add_zero, Nat.add_zero] at first
      rw [lead, lead, first, @induction (start + 1) (start' + 1) fun i less => by
        have next := same (i + 1) (by omega)
        rwa [Nat.add_comm i, ← Nat.add_assoc, ← Nat.add_assoc] at next]

/-- The clear bits before the first set bit. -/
theorem clear_of_lt_lead {count start i : ℕ} (less : i < lead bit count start) :
    bit (start + i) = false := by
  induction count generalizing start i with
  | zero => exact absurd less (Nat.not_lt_zero i)
  | succ count induction =>
      unfold lead at less
      split_ifs at less with set
      · exact absurd less (Nat.not_lt_zero i)
      · cases i with
        | zero => exact Bool.not_eq_true _ ▸ set
        | succ i =>
            have next := @induction (start + 1) i (by omega)
            rwa [Nat.add_assoc, Nat.add_comm 1] at next

/-- The first set bit. -/
theorem set_of_lead_lt {count start : ℕ} (less : lead bit count start < count) :
    bit (start + lead bit count start) = true := by
  induction count generalizing start with
  | zero => exact absurd less (Nat.not_lt_zero _)
  | succ count induction =>
      unfold lead at less ⊢
      split_ifs at less ⊢ with set
      · exact set
      · have next := @induction (start + 1) (by omega)
        rwa [Nat.add_assoc] at next

theorem lead_eq {count start zeros : ℕ} (inside : zeros ≤ count)
    (clear : ∀ i < zeros, bit (start + i) = false)
    (ended : zeros < count → bit (start + zeros) = true) : lead bit count start = zeros := by
  rcases Nat.lt_trichotomy (lead bit count start) zeros with less | same | more
  · have set : bit (start + lead bit count start) = true := set_of_lead_lt (by omega)
    rw [clear _ less] at set
    exact absurd set Bool.false_ne_true
  · exact same
  · have unset := clear_of_lt_lead more
    have := lead_le bit count start
    rw [ended (by omega)] at unset
    exact absurd unset Bool.true_eq_false_eq_False

/-- A run of clear bits which fills a part goes on behind it. -/
theorem lead_add (bit : ℕ → Bool) (first second start : ℕ) :
    lead bit (first + second) start =
      if lead bit first start = first then first + lead bit second (start + first)
      else lead bit first start := by
  induction first generalizing start with
  | zero => simp only [Nat.zero_add, lead, Nat.add_zero, if_true]
  | succ first induction =>
      have place : start + 1 + first = start + (first + 1) := by omega
      have within := lead_le bit first (start + 1)
      rw [Nat.add_right_comm first 1 second]
      by_cases set : bit start = true
      · simp only [lead_set set]
        rw [if_neg (Nat.succ_ne_zero first).symm]
      · simp only [lead_clear set, induction, place]
        by_cases filled : lead bit first (start + 1) = first
        · rw [if_pos filled, if_pos (by omega)]
          omega
        · rw [if_neg filled, if_neg (by omega)]

/-- `std::countl_zero`. -/
def countlZero (value : BitVec 64) : ℕ := lead value.getMsbD 64 0

/-- The highest set bit of a word which has one. -/
theorem countlZero_spec {value : BitVec 64} (some_bit : value ≠ 0#64) :
    countlZero value < 64 ∧ value.getMsbD (countlZero value) = true ∧
      ∀ i < countlZero value, value.getMsbD i = false := by
  have clear : ∀ i < countlZero value, value.getMsbD i = false := by
    intro i before
    have none_set : value.getMsbD (0 + i) = false := clear_of_lt_lead before
    rwa [Nat.zero_add] at none_set
  have within : countlZero value < 64 := by
    refine (lead_le value.getMsbD 64 0).lt_of_ne fun whole => some_bit ?_
    refine BitVec.eq_of_getMsbD_eq fun i below => ?_
    rw [clear i (below.trans_eq whole.symm), BitVec.getMsbD_zero]
  have set : value.getMsbD (0 + countlZero value) = true := set_of_lead_lt within
  rw [Nat.zero_add] at set
  exact ⟨within, set, clear⟩

theorem countlZero_fieldOf (bit : ℕ → Bool) (start : ℕ) {width : ℕ} (small : width ≤ 64) :
    countlZero (fieldOf bit start width) = (64 - width) + lead bit width start := by
  have whole : 64 = (64 - width) + width := by omega
  have high : ∀ i < 64 - width, (fieldOf bit start width).getMsbD (0 + i) = false := by
    intro i less
    have outside : ¬64 - 1 - (0 + i) < width := by omega
    rw [BitVec.getMsbD, getLsbD_fieldOf _ _ _ (by omega), decide_eq_false outside, Bool.false_and,
      Bool.and_false]
  have low : lead (fieldOf bit start width).getMsbD width (0 + (64 - width)) =
      lead bit width start := by
    refine lead_congr fun i less => ?_
    have place : start + width - 1 - (64 - 1 - (0 + (64 - width) + i)) = start + i := by omega
    have inside : 64 - 1 - (0 + (64 - width) + i) < width := by omega
    have within : 0 + (64 - width) + i < 64 := by omega
    rw [BitVec.getMsbD, getLsbD_fieldOf _ _ _ (by omega), decide_eq_true within,
      decide_eq_true inside, Bool.true_and, Bool.true_and, place]
  have zeros : lead (fieldOf bit start width).getMsbD (64 - width) 0 = 64 - width :=
    lead_eq le_rfl high fun less => absurd less (Nat.lt_irrefl _)
  have split := lead_add (fieldOf bit start width).getMsbD (64 - width) width 0
  rw [if_pos zeros, low, ← whole] at split
  exact split

/-! ## Differences -/

theorem fieldOf_xor (bit other : ℕ → Bool) (start start' width : ℕ) :
    fieldOf bit start width ^^^ fieldOf other start' width =
      fieldOf (fun i => bit (start + i) ^^ other (start' + i)) 0 width := by
  refine fieldOf_eq fun i small => ?_
  rw [BitVec.getLsbD_xor, getLsbD_fieldOf _ _ _ small, getLsbD_fieldOf _ _ _ small]
  by_cases inside : i < width
  · have first : start + width - 1 - i = start + (width - 1 - i) := by omega
    have second : start' + width - 1 - i = start' + (width - 1 - i) := by omega
    rw [decide_eq_true inside, Bool.true_and, Bool.true_and, Bool.true_and, first, second,
      Nat.zero_add]
  · rw [decide_eq_false inside, Bool.false_and, Bool.false_and, Bool.false_and]
    rfl

/-- A field is zero when none of its bits is set. -/
theorem fieldOf_eq_zero_iff {start width : ℕ} (small : width ≤ 64) :
    fieldOf bit start width = 0#64 ↔ lead bit width start = width := by
  constructor
  · intro zero
    have zeros := countlZero_fieldOf bit start small
    have all : countlZero 0#64 = 64 := by decide
    rw [zero, all] at zeros
    omega
  · intro clear
    refine (fieldOf_eq fun i small => ?_).symm
    rw [BitVec.getLsbD_zero]
    by_cases inside : i < width
    · have place : start + width - 1 - i = start + (width - 1 - i) := by omega
      have none_set : bit (start + (width - 1 - i)) = false := clear_of_lt_lead
        (show width - 1 - i < lead bit width start by omega)
      rw [place, none_set, Bool.and_false]
    · rw [decide_eq_false inside, Bool.false_and]

/-- The first difference of two fields decides their order. -/
theorem fieldOf_lt {other : ℕ → Bool} {start start' width d : ℕ} (small : width ≤ 64)
    (inside : d < width) (agree : ∀ i < d, bit (start + i) = other (start' + i))
    (low : bit (start + d) = false) (high : other (start' + d) = true) :
    fieldOf bit start width < fieldOf other start' width := by
  have place : ∀ first : ℕ, first + width - 1 - (width - 1 - d) = first + d := fun _ => by omega
  rw [BitVec.lt_def]
  refine Nat.lt_of_testBit (width - 1 - d) ?_ ?_ fun i above => ?_
  · rw [BitVec.testBit_toNat, getLsbD_fieldOf _ _ _ (by omega), place, low, Bool.and_false]
  · rw [BitVec.testBit_toNat, getLsbD_fieldOf _ _ _ (by omega), place, high, Bool.and_true,
      decide_eq_true (by omega)]
  · rw [BitVec.testBit_toNat, BitVec.testBit_toNat]
    rcases Nat.lt_or_ge i 64 with within | out
    · rw [getLsbD_fieldOf _ _ _ within, getLsbD_fieldOf _ _ _ within]
      by_cases covered : i < width
      · have first : start + width - 1 - i = start + (width - 1 - i) := by omega
        have second : start' + width - 1 - i = start' + (width - 1 - i) := by omega
        rw [first, second, agree _ (by omega)]
      · rw [decide_eq_false covered, Bool.false_and, Bool.false_and]
    · rw [BitVec.getLsbD_of_ge _ _ out, BitVec.getLsbD_of_ge _ _ out]

/-! ## Overwriting -/

/-- Some bits from a position on were replaced and no others. -/
def Puts (before after : ℕ → BitVec 8) (start width : ℕ) (value : ℕ → Bool) : Prop :=
  ∀ i, bitOf after i = if start ≤ i ∧ i < start + width then value (i - start) else bitOf before i

namespace Puts

variable {before middle after : ℕ → BitVec 8} {start width more : ℕ} {value : ℕ → Bool}

theorem nothing (before : ℕ → BitVec 8) (start : ℕ) (value : ℕ → Bool) :
    Puts before before start 0 value :=
  fun i => (if_neg (by omega)).symm

theorem congr {other : ℕ → Bool} (puts : Puts before after start width value)
    (same : ∀ i < width, value i = other i) : Puts before after start width other := by
  intro i
  rw [puts i]
  split
  · exact same _ (by omega)
  · rfl

/-- Bits outside the replaced ones are unchanged. -/
theorem unchanged (puts : Puts before after start width value) {i : ℕ}
    (outside : i < start ∨ start + width ≤ i) : bitOf after i = bitOf before i := by
  rw [puts i, if_neg (by omega)]

/-- Replace some bits and then the next ones. -/
theorem append (first : Puts before middle start width value)
    (second : Puts middle after (start + width) more fun i => value (width + i)) :
    Puts before after start (width + more) value := by
  intro i
  rw [second i, first i]
  by_cases later : start + width ≤ i
  · have place : width + (i - (start + width)) = i - start := by omega
    dsimp only
    rw [place]
    split_ifs <;> first | rfl | omega
  · rw [if_neg (by omega)]
    split_ifs <;> first | rfl | omega

/-- Replace some bits and then the ones before them. -/
theorem prepend (second : Puts before middle (start + width) more fun i => value (width + i))
    (first : Puts middle after start width value) :
    Puts before after start (width + more) value := by
  intro i
  rw [first i, second i]
  by_cases later : start + width ≤ i
  · have place : width + (i - (start + width)) = i - start := by omega
    dsimp only
    rw [place]
    split_ifs <;> first | rfl | omega
  · split_ifs <;> first | rfl | omega

/-- Replace whole bytes. -/
theorem whole_bytes (before : ℕ → BitVec 8) (first count : ℕ) (source : ℕ → BitVec 8) :
    Puts before (fun k => if first ≤ k ∧ k < first + count then source (k - first) else before k)
      (8 * first) (8 * count) (bitOf source) := by
  intro i
  have inside : (first ≤ i / 8 ∧ i / 8 < first + count) ↔
      (8 * first ≤ i ∧ i < 8 * first + 8 * count) := by omega
  rw [bitOf]
  simp only [inside]
  split
  · have place : i / 8 - first = (i - 8 * first) / 8 ∧ i % 8 = (i - 8 * first) % 8 := by omega
    rw [place.1, place.2]
    rfl
  · rfl

/-- Replace some bits of one byte. -/
theorem update {k first : ℕ} {byte : BitVec 8} (inside : first + width ≤ 8)
    (bits : ∀ i < 8, byte.getLsbD (7 - i) =
      if first ≤ i ∧ i < first + width then value (i - first) else bitOf before (8 * k + i)) :
    Puts before (Function.update before k byte) (8 * k + first) width value := by
  intro i
  by_cases here : i / 8 = k
  · subst here
    have small : i % 8 < 8 := Nat.mod_lt _ (by decide)
    have place : 8 * (i / 8) + i % 8 = i := Nat.div_add_mod i 8
    have same : (first ≤ i % 8 ∧ i % 8 < first + width) ↔
        (8 * (i / 8) + first ≤ i ∧ i < 8 * (i / 8) + first + width) := by omega
    have offset : i % 8 - first = i - (8 * (i / 8) + first) := by omega
    rw [bitOf, Function.update_self, bits _ small, place, offset]
    simp only [same]
  · have outside : ¬ (8 * k + first ≤ i ∧ i < 8 * k + first + width) := by omega
    rw [bitOf, Function.update_of_ne here, if_neg outside]
    rfl

end Puts

end Everett.BigEndian

import Mathlib.Tactic

/-!
# Reflected polynomials

Words are polynomials over two elements modulo a fixed one, in reflected order: the highest bit is
the unit, and one step towards the lowest bit multiplies by the variable.  Multiplication of words
is what powers of that step do.
-/

namespace Everett.Reflected

variable {w : Nat} (modulus : BitVec w)

/-- Multiply by the variable. -/
def step (word : BitVec w) : BitVec w :=
  if word.getLsbD 0 then (word >>> 1) ^^^ modulus else word >>> 1

/-- Multiply by the lowest bits of a word; the highest of them is taken first. -/
def multiplyFrom (a : BitVec w) : Nat → BitVec w → BitVec w
  | 0, _ => 0#w
  | bit + 1, b => (if a.getLsbD bit then b else 0#w) ^^^ multiplyFrom a bit (step modulus b)

/-- The product of two words. -/
def multiply (a b : BitVec w) : BitVec w := multiplyFrom modulus a w b

/-- The word of the unit. -/
def unit (w : Nat) : BitVec w := BitVec.twoPow w (w - 1)

/-! ## Linearity -/

theorem step_zero : step modulus 0#w = 0#w := by
  simp [step]

theorem step_xor (a b : BitVec w) : step modulus (a ^^^ b) = step modulus a ^^^ step modulus b := by
  unfold step
  rw [BitVec.getLsbD_xor, BitVec.ushiftRight_xor_distrib]
  cases a.getLsbD 0 <;> cases b.getLsbD 0
  · rfl
  · exact BitVec.xor_assoc _ _ _
  · simp only [Bool.xor_false, if_true, Bool.false_eq_true, if_false]
    rw [BitVec.xor_assoc, BitVec.xor_comm (b >>> 1), ← BitVec.xor_assoc]
  · simp only [Bool.xor_self, if_true, Bool.false_eq_true, if_false]
    rw [BitVec.xor_assoc (a >>> 1), BitVec.xor_comm (b >>> 1), ← BitVec.xor_assoc modulus,
      BitVec.xor_self, BitVec.zero_xor]

theorem multiplyFrom_step (a b : BitVec w) (bits : Nat) :
    multiplyFrom modulus a bits (step modulus b) = step modulus (multiplyFrom modulus a bits b) := by
  induction bits generalizing b with
  | zero => exact (step_zero modulus).symm
  | succ bit induction =>
      rw [multiplyFrom, multiplyFrom, step_xor, induction]
      split_ifs
      · rfl
      · rw [step_zero]

theorem multiplyFrom_xor (a b c : BitVec w) (bits : Nat) :
    multiplyFrom modulus a bits (b ^^^ c) =
      multiplyFrom modulus a bits b ^^^ multiplyFrom modulus a bits c := by
  induction bits generalizing b c with
  | zero => exact (BitVec.xor_self).symm
  | succ bit induction =>
      rw [multiplyFrom, multiplyFrom, multiplyFrom, step_xor, induction]
      split_ifs
      · ac_rfl
      · simp only [BitVec.zero_xor]

theorem multiply_step (a b : BitVec w) :
    multiply modulus a (step modulus b) = step modulus (multiply modulus a b) :=
  multiplyFrom_step modulus a b w

theorem multiply_xor (a b c : BitVec w) :
    multiply modulus a (b ^^^ c) = multiply modulus a b ^^^ multiply modulus a c :=
  multiplyFrom_xor modulus a b c w

theorem multiply_zero (a : BitVec w) : multiply modulus a 0#w = 0#w := by
  have double := multiply_xor modulus a 0#w 0#w
  rwa [BitVec.xor_self, BitVec.xor_self] at double

/-- Multiplications by two words commute. -/
theorem multiplyFrom_multiply (a b c : BitVec w) (bits : Nat) :
    multiplyFrom modulus a bits (multiply modulus b c) =
      multiply modulus b (multiplyFrom modulus a bits c) := by
  induction bits generalizing c with
  | zero => exact (multiply_zero modulus b).symm
  | succ bit induction =>
      rw [multiplyFrom, multiplyFrom, multiply_xor, ← multiply_step, induction]
      split_ifs
      · rfl
      · rw [multiply_zero]

/-! ## Many steps -/

theorem iterate_step_xor (bits : Nat) (a b : BitVec w) :
    (step modulus)^[bits] (a ^^^ b) = (step modulus)^[bits] a ^^^ (step modulus)^[bits] b := by
  induction bits with
  | zero => rfl
  | succ bit induction =>
      rw [Function.iterate_succ_apply', Function.iterate_succ_apply',
        Function.iterate_succ_apply', induction, step_xor]

/-- A word whose lowest bits are clear moves down. -/
theorem iterate_step_of_clear (word : BitVec w) (bits : Nat)
    (clear : ∀ bit < bits, word.getLsbD bit = false) :
    (step modulus)^[bits] word = word >>> bits := by
  induction bits with
  | zero => exact (BitVec.ushiftRight_zero word).symm
  | succ bit induction =>
      have even : (word >>> bit).getLsbD 0 = false := by
        rw [BitVec.getLsbD_ushiftRight]
        exact clear bit (Nat.lt_succ_self bit)
      rw [Function.iterate_succ_apply', induction fun other below => clear other (by omega), step,
        even, if_neg Bool.false_ne_true, BitVec.shiftRight_add]

/-- Many steps of a word are those of its lowest bits, and the others move down. -/
theorem iterate_step_split (word : BitVec w) (bits : Nat) :
    (step modulus)^[bits] word =
      (word >>> bits) ^^^ (step modulus)^[bits] ((word.setWidth bits).setWidth w) := by
  have parts : word = ((word >>> bits) <<< bits) ^^^ (word.setWidth bits).setWidth w := by
    apply BitVec.eq_of_getLsbD_eq
    intro position inside
    rw [BitVec.getLsbD_xor, BitVec.getLsbD_shiftLeft, BitVec.getLsbD_ushiftRight,
      BitVec.getLsbD_setWidth, BitVec.getLsbD_setWidth]
    by_cases low : position < bits
    · simp [low, inside]
    · simp [low, inside, Nat.add_sub_cancel' (Nat.not_lt.mp low)]
  have high : (step modulus)^[bits] ((word >>> bits) <<< bits) = word >>> bits := by
    rw [iterate_step_of_clear]
    · apply BitVec.eq_of_getLsbD_eq
      intro position inside
      rw [BitVec.getLsbD_ushiftRight, BitVec.getLsbD_shiftLeft, BitVec.getLsbD_ushiftRight]
      by_cases within : bits + position < w
      · simp [within]
      · simp [BitVec.getLsbD_of_ge word (bits + position) (by omega)]
    · intro bit below
      rw [BitVec.getLsbD_shiftLeft]
      simp [below]
  conv_lhs => rw [parts]
  rw [iterate_step_xor, high]

/-! ## The unit -/

/-- A single bit above the lowest one moves down. -/
theorem step_twoPow {bit : Nat} (within : bit + 1 < w) :
    step modulus (BitVec.twoPow w (bit + 1)) = BitVec.twoPow w bit := by
  have even : (BitVec.twoPow w (bit + 1)).getLsbD 0 = false := by
    rw [BitVec.getLsbD_twoPow]
    simp
  unfold step
  rw [even, if_neg Bool.false_ne_true]
  ext position inside
  rw [BitVec.getElem_ushiftRight, BitVec.getLsbD_twoPow, BitVec.getElem_twoPow]
  rw [decide_eq_true within, Bool.true_and]
  exact decide_eq_decide.mpr (by omega)

/-- The lowest bits of a word times a single bit are those bits. -/
theorem multiplyFrom_twoPow (a : BitVec w) {bit : Nat} (within : bit < w) (position : Nat) :
    (multiplyFrom modulus a (bit + 1) (BitVec.twoPow w bit)).getLsbD position =
      (decide (position ≤ bit) && a.getLsbD position) := by
  have single : ∀ bit : Nat, bit < w →
      (if a.getLsbD bit then BitVec.twoPow w bit else 0#w).getLsbD position =
        (decide (position = bit) && a.getLsbD position) := by
    intro bit inside
    split_ifs with held
    · rw [BitVec.getLsbD_twoPow]
      by_cases same : position = bit
      · subst same
        simp [held, inside]
      · simp [same, Ne.symm same]
    · by_cases same : position = bit
      · subst same
        simp [held]
      · simp [same]
  induction bit with
  | zero =>
      rw [multiplyFrom, multiplyFrom, BitVec.xor_zero, single 0 within]
      simp
  | succ bit induction =>
      rw [multiplyFrom, step_twoPow modulus within, BitVec.getLsbD_xor, single _ within,
        induction (by omega)]
      by_cases last : position = bit + 1
      · simp [last]
      · have split : position ≤ bit + 1 ↔ position ≤ bit := by omega
        simp [last, split]

theorem multiply_unit (a : BitVec w) : multiply modulus a (unit w) = a := by
  cases w with
  | zero => exact Subsingleton.elim _ _
  | succ w =>
      apply BitVec.eq_of_getLsbD_eq
      intro position inside
      unfold multiply unit
      rw [Nat.add_sub_cancel, multiplyFrom_twoPow modulus a (Nat.lt_succ_self w)]
      simp [Nat.lt_succ_iff.mp inside]

/-! ## The ring -/

theorem multiply_comm (a b : BitVec w) : multiply modulus a b = multiply modulus b a := by
  calc
    multiply modulus a b = multiply modulus a (multiply modulus b (unit w)) := by
      rw [multiply_unit]
    _ = multiply modulus b (multiply modulus a (unit w)) := multiplyFrom_multiply modulus a b _ w
    _ = multiply modulus b a := by rw [multiply_unit]

theorem multiply_assoc (a b c : BitVec w) :
    multiply modulus (multiply modulus a b) c = multiply modulus a (multiply modulus b c) := by
  calc
    multiply modulus (multiply modulus a b) c = multiply modulus c (multiply modulus a b) :=
      multiply_comm modulus _ _
    _ = multiply modulus a (multiply modulus c b) := multiplyFrom_multiply modulus c a b w
    _ = multiply modulus a (multiply modulus b c) := by rw [multiply_comm modulus c b]

/-- The power of the variable with an exponent. -/
def power (w : Nat) (modulus : BitVec w) (exponent : Nat) : BitVec w :=
  (step modulus)^[exponent] (unit w)

/-- Powers of the variable do that many steps. -/
theorem multiply_power (exponent : Nat) (b : BitVec w) :
    multiply modulus (power w modulus exponent) b = (step modulus)^[exponent] b := by
  unfold power
  induction exponent with
  | zero => rw [Function.iterate_zero, id, id, multiply_comm, multiply_unit]
  | succ exponent induction =>
      rw [Function.iterate_succ_apply', Function.iterate_succ_apply', multiply_comm, multiply_step,
        multiply_comm, induction]

theorem multiply_power_power (first second : Nat) :
    multiply modulus (power w modulus first) (power w modulus second) =
      power w modulus (first + second) := by
  rw [multiply_power, power, power, Function.iterate_add_apply]

end Everett.Reflected

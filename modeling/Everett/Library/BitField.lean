import Mathlib.Data.Nat.Size
import Mathlib.Tactic

/-!
# Bit fields

A field of some width holds a number with its most significant bit first.
-/

namespace Everett.BitField

/-- The lowest bits of a number, most significant first. -/
def toBits : Nat → Nat → List Bool
  | 0, _ => []
  | width + 1, n => n.testBit width :: toBits width n

/-- The number which bits stand for, most significant first. -/
def ofBits (bits : List Bool) : Nat := bits.foldl (fun n bit => 2 * n + bit.toNat) 0

@[simp] theorem length_toBits (width n : Nat) : (toBits width n).length = width := by
  induction width with
  | zero => rfl
  | succ width induction => rw [toBits, List.length_cons, induction]

@[simp] theorem ofBits_nil : ofBits [] = 0 := rfl

theorem ofBits_append_singleton (bits : List Bool) (bit : Bool) :
    ofBits (bits ++ [bit]) = 2 * ofBits bits + bit.toNat := by
  rw [ofBits, List.foldl_append]
  rfl

theorem ofBits_append (high low : List Bool) :
    ofBits (high ++ low) = ofBits high * 2 ^ low.length + ofBits low := by
  induction low using List.reverseRecOn with
  | nil => simp
  | append_singleton low bit induction =>
      rw [← List.append_assoc, ofBits_append_singleton, induction, ofBits_append_singleton,
        List.length_append, List.length_singleton, pow_succ]
      ring

theorem ofBits_cons (bit : Bool) (low : List Bool) :
    ofBits (bit :: low) = bit.toNat * 2 ^ low.length + ofBits low := by
  have split := ofBits_append [bit] low
  rw [List.singleton_append] at split
  rw [split]
  cases bit <;> rfl

theorem ofBits_toBits (width n : Nat) : ofBits (toBits width n) = n % 2 ^ width := by
  induction width with
  | zero => simp [toBits, Nat.mod_one]
  | succ width induction =>
      rw [toBits, ofBits_cons, induction, length_toBits, Nat.toNat_testBit, Nat.mod_pow_succ]
      ring

theorem ofBits_toBits_of_lt {width n : Nat} (fits : n < 2 ^ width) :
    ofBits (toBits width n) = n := by
  rw [ofBits_toBits, Nat.mod_eq_of_lt fits]

theorem ofBits_lt (bits : List Bool) : ofBits bits < 2 ^ bits.length := by
  induction bits with
  | nil => exact Nat.one_pos
  | cons bit low induction =>
      rw [ofBits_cons, List.length_cons, pow_succ]
      have top := Bool.toNat_le bit
      nlinarith

/-- The highest bit of a field, and the field of the others. -/
theorem toBits_eq_append (low high n : Nat) :
    toBits (high + low) n = toBits high (n / 2 ^ low) ++ toBits low n := by
  induction high with
  | zero => rw [Nat.zero_add]; rfl
  | succ high induction =>
      rw [Nat.add_right_comm, toBits, toBits, induction, List.cons_append, Nat.testBit_div_two_pow,
        Nat.add_comm]

/-- A field whose highest bit is the highest bit of the number. -/
theorem toBits_size {n : Nat} (positive : 0 < n) :
    toBits n.size n = true :: toBits (n.size - 1) n := by
  obtain ⟨width, size⟩ := Nat.exists_eq_succ_of_ne_zero (Nat.size_pos.mpr positive).ne'
  have top : n.testBit width = true := by
    have above : n < 2 ^ (width + 1) := by
      rw [← Nat.succ_eq_add_one, ← size]
      exact Nat.lt_size_self n
    have below : 2 ^ width ≤ n := Nat.lt_size.mp (by omega)
    rw [Nat.testBit_eq_decide_div_mod_eq, decide_eq_true_eq]
    have quotient : n / 2 ^ width = 1 := by
      rw [Nat.div_eq_iff (by positivity)]
      rw [pow_succ] at above
      omega
    rw [quotient]
  rw [size, toBits, top, Nat.succ_sub_one]

/-- A field spells the bits from which its number comes. -/
theorem toBits_ofBits (bits : List Bool) : toBits bits.length (ofBits bits) = bits := by
  induction bits using List.reverseRecOn with
  | nil => rfl
  | append_singleton bits bit induction =>
      have half : (2 * ofBits bits + bit.toNat) / 2 ^ 1 = ofBits bits := by
        have small := Bool.toNat_le bit
        omega
      have last : toBits 1 (2 * ofBits bits + bit.toNat) = [bit] := by
        rw [toBits, toBits, Nat.testBit_zero]
        cases bit <;> simp
      rw [ofBits_append_singleton, List.length_append, List.length_singleton, Nat.add_comm,
        Nat.add_comm, toBits_eq_append, half, induction, last]

end Everett.BitField

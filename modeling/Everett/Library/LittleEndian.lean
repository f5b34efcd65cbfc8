import Mathlib.Tactic

/-!
# Little-endian numbers

A number of a fixed width as its bytes, least first.
-/

namespace Everett.LittleEndian

/-- The `width` lowest bytes of a number. -/
def toBytes : Nat → Nat → List UInt8
  | 0, _ => []
  | width + 1, n => UInt8.ofNat (n % 256) :: toBytes width (n / 256)

/-- The number of a sequence of bytes. -/
def ofBytes : List UInt8 → Nat
  | [] => 0
  | byte :: rest => byte.toNat + 256 * ofBytes rest

@[simp]
theorem length_toBytes (width n : Nat) : (toBytes width n).length = width := by
  induction width generalizing n with
  | zero => rfl
  | succ width induction => rw [toBytes, List.length_cons, induction]

theorem ofBytes_toBytes (width n : Nat) : ofBytes (toBytes width n) = n % 256 ^ width := by
  induction width generalizing n with
  | zero => rw [toBytes, ofBytes, Nat.pow_zero, Nat.mod_one]
  | succ width induction =>
      have low : (UInt8.ofNat (n % 256)).toNat = n % 256 := by
        rw [UInt8.toNat_ofNat']
        omega
      rw [toBytes, ofBytes, induction, low, Nat.pow_succ', Nat.mod_mul]

/-- A number is what its bytes stand for when they are wide enough. -/
theorem ofBytes_toBytes_of_lt {width n : Nat} (fits : n < 256 ^ width) :
    ofBytes (toBytes width n) = n := by
  rw [ofBytes_toBytes, Nat.mod_eq_of_lt fits]

theorem ofBytes_lt (bytes : List UInt8) : ofBytes bytes < 256 ^ bytes.length := by
  induction bytes with
  | nil => exact Nat.one_pos
  | cons byte rest induction =>
      have small := byte.toNat_lt
      rw [ofBytes, List.length_cons, Nat.pow_succ']
      omega

end Everett.LittleEndian

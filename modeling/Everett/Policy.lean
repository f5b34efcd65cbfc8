import Everett.Bits

/-!
# Storage policies

The compile-time parameters of a storage policy, with the static assertions it must satisfy.
-/

namespace Everett

/-- Addressing unit of a profile. -/
inductive ProfileUnit
  | byte
  | bit
  deriving DecidableEq, Repr

/-- Code of the relative backspaces of a bit profile. -/
inductive BitBackspaceCode
  | exponentialGolomb (order : Nat)
  | golomb (modulus : Nat)
  deriving DecidableEq, Repr

/-- Parameters of `storage_policy`, with its static assertions as fields. -/
structure StoragePolicy where
  /-- Unit of keys, values, counts and offsets. -/
  unit : ProfileUnit
  /-- Sampling interval and cascade group size. -/
  groupSize : Nat
  /-- Code of relative backspaces. -/
  backspaceCode : BitBackspaceCode
  /-- Records of one physical block. -/
  codecBlockSize : Nat
  /-- Common value width in units which the registry fixes, if any. -/
  valueWidth : Option Nat
  /-- At least three records form a group. -/
  groupSize_ge : 3 ≤ groupSize
  /-- A group has one record less than a power of two, below the largest count. -/
  groupSize_pow : ∃ n < 64, groupSize + 1 = 2 ^ n
  /-- Byte profiles use varints and the default backspace policy. -/
  backspace_default : unit = .byte → backspaceCode = .exponentialGolomb 0
  /-- Exponential-Golomb orders are at most 63 and Golomb moduli are positive 64-bit values. -/
  backspace_valid : match backspaceCode with
    | .exponentialGolomb order => order ≤ 63
    | .golomb modulus => 0 < modulus ∧ modulus ≤ maximum64
  /-- Block sizes are positive 32-bit counts. -/
  codecBlockSize_pos : 0 < codecBlockSize
  codecBlockSize_lt : codecBlockSize < 2 ^ 32

namespace StoragePolicy

variable (P : StoragePolicy)

/-- Binary logarithm of the unit in bits. -/
def unitShift : Nat :=
  match P.unit with
  | .byte => 3
  | .bit => 0

/-- Number of bits of one unit. -/
def bitsPerUnit : Nat := 2 ^ P.unitShift

theorem groupSize_pos : 0 < P.groupSize :=
  Nat.lt_of_lt_of_le (by decide) P.groupSize_ge

theorem bitsPerUnit_pos : 0 < P.bitsPerUnit := by
  simp [bitsPerUnit]

/-- A bit string made of whole units. -/
def Aligned (bits : BitString) : Prop := P.bitsPerUnit ∣ bits.length

instance (bits : BitString) : Decidable (P.Aligned bits) :=
  inferInstanceAs (Decidable (_ ∣ _))

/-- Length of a bit string in whole units. -/
def units (bits : BitString) : Nat := bits.length / P.bitsPerUnit

theorem units_mul {bits : BitString} (aligned : P.Aligned bits) :
    P.units bits * P.bitsPerUnit = bits.length :=
  Nat.div_mul_cancel aligned

/-- `storage_policy<unsorted<std::optional<std::string>>, GroupSize>`. -/
def bytes (groupSize : Nat) (groupSize_ge : 3 ≤ groupSize)
    (groupSize_pow : ∃ n < 64, groupSize + 1 = 2 ^ n) (codecBlockSize_lt : groupSize < 2 ^ 32) :
    StoragePolicy where
  unit := .byte
  groupSize
  backspaceCode := .exponentialGolomb 0
  codecBlockSize := groupSize
  valueWidth := none
  groupSize_ge
  groupSize_pow
  backspace_default := fun _ => rfl
  backspace_valid := Nat.zero_le _
  codecBlockSize_pos := Nat.lt_of_lt_of_le (by decide) groupSize_ge
  codecBlockSize_lt

/-- Byte profiles with the smallest groups. -/
def bytes3 : StoragePolicy := bytes 3 (by decide) ⟨2, by decide⟩ (by decide)

end StoragePolicy

end Everett

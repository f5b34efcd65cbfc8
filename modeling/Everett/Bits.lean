import Everett.Library.Outcome
import Everett.Library.Sampling
import Everett.Library.Word

/-!
# Bit strings and checked counts

A `bit_view` denotes the sequence of its meaningful bits, most significant first.  Counts and
extents are 64-bit; the helpers which the source checks for overflow are checked here.
-/

namespace Everett

/-- A key, a value or a payload as the sequence of its meaningful bits. -/
abbrev BitString := List Bool

/-- Results of operations which throw; the error is the text of the exception. -/
abbrev Result := Except String

/-- Largest 64-bit count. -/
def maximum64 : Nat := 2 ^ 64 - 1

namespace ProfileDetail

/-- `profile_detail::add`. -/
def add (a b : Nat) : Result Nat :=
  if a + b ≤ maximum64 then .ok (a + b) else .error "profile addition"

/-- `profile_detail::multiply`. -/
def multiply (a b : Nat) : Result Nat :=
  if a * b ≤ maximum64 then .ok (a * b) else .error "profile multiplication"

/-- Extend a bit string, checking the resulting bit extent. -/
def append (target source : BitString) : Result BitString := do
  let bits ← add target.length source.length
  if bits > maximum64 - 7 then .error "profile bit string too large"
  else .ok (target ++ source)

theorem append_ok {target source result : BitString} (done : append target source = .ok result) :
    result = target ++ source ∧ result.length ≤ maximum64 - 7 := by
  obtain ⟨bits, added, rest⟩ := Outcome.bind_eq_ok.mp done
  unfold add at added
  split at added
  · cases added
    split at rest
    · cases rest
    · cases rest
      exact ⟨rfl, by rw [List.length_append]; exact Nat.not_lt.mp ‹_›⟩
  · cases added

end ProfileDetail

/-- Outcome of comparing two bit strings: the exact common prefix and the order. -/
structure BitComparison where
  /-- Length of the longest common prefix in bits. -/
  commonBits : Nat
  /-- Lexicographic order, a proper prefix first. -/
  order : Ordering
  deriving DecidableEq, Repr

/-- `compare_common_bits` on the denoted bit sequences. -/
def compareCommonBits (a b : BitString) : BitComparison := ⟨Word.lcp a b, Word.order a b⟩

/-- `compare_bits`. -/
def compareBits (a b : BitString) : Ordering := (compareCommonBits a b).order

end Everett

import Everett.Library.Methods
import Everett.Policy

/-!
# Coded samples

A sample travels as a backspace from the previous sample and the suffix behind it.  Each endpoint
keeps the last key it accepted in one buffer, whose retained prefix is edited in place after every
check has passed.
-/

namespace Everett

open Word Methods

/-- `profile_coded_sample`. -/
structure CodedSample where
  /-- Units dropped from the end of the previous sample. -/
  backspace : Nat
  /-- The remaining bits of the key. -/
  suffix : BitString
  targetOrdinal : Nat
  deriving DecidableEq

/-- The fields of `profile_sample_encoder` and of `profile_sample_decoder`. -/
structure SampleEndpoint where
  /-- The last key which was encoded or accepted. -/
  key : BitString
  count : Nat
  deriving DecidableEq

namespace SampleEndpoint

/-- A method of an endpoint. -/
abbrev Action (α : Type) := Method String SampleEndpoint α

/-- An endpoint which has seen no sample. -/
def initial : SampleEndpoint := ⟨[], 0⟩

end SampleEndpoint

/-- A key as the encoder receives it: bits of its own, or a subview of the encoder's context. -/
inductive SampleKey
  | external (bits : BitString)
  | context (first size : Nat)

/-- The bits of a key while the context holds some bits. -/
def SampleKey.read (view : SampleKey) (context : BitString) : BitString :=
  match view with
  | .external bits => bits
  | .context first size => (context.drop first).take size

namespace SamplingDetail

open SampleEndpoint

/-- `profile_detail::resize`. -/
def resize (value : BitString) (bits : Nat) : BitString :=
  value.take bits ++ List.replicate (bits - value.length) false

/-- `check_ordinal`. -/
def checkOrdinal (P : StoragePolicy) (count ordinal : Nat) : Action Unit :=
  require (count ≤ maximum64 / P.groupSize ∧ ordinal = count * P.groupSize)
    "sample ordinals must be consecutive policy groups"

/-- `replace_suffix`; the reservation may fail, and nothing is edited before it. -/
def replaceSuffix (retained : Nat) (suffix : BitString) (reserved : Bool) : Action Unit := do
  let bits ← evaluate (ProfileDetail.add retained suffix.length)
  require (bits ≤ maximum64 - 7) "sample key is too large"
  require (reserved = true) "bad_alloc"
  modify fun endpoint => { endpoint with key := resize endpoint.key retained }
  let endpoint ← get
  let key ← evaluate (ProfileDetail.append endpoint.key suffix)
  modify fun endpoint => { endpoint with key }

end SamplingDetail

namespace SampleEndpoint

open SamplingDetail

variable (P : StoragePolicy)

/-- `encode_known`; copying the suffix and reserving the context may fail. -/
def encodeKnown (view : SampleKey) (targetOrdinal commonBits : Nat) (copied reserved : Bool) :
    Action CodedSample := do
  let endpoint ← get
  let key := view.read endpoint.key
  let retained := commonBits / P.bitsPerUnit
  let retainedBits ← evaluate (ProfileDetail.multiply retained P.bitsPerUnit)
  require (retainedBits ≤ key.length) "bit subview"
  require (copied = true) "bad_alloc"
  let suffix := key.drop retainedBits
  replaceSuffix retainedBits suffix reserved
  modify fun endpoint => { endpoint with count := endpoint.count + 1 }
  return ⟨P.units endpoint.key - retained, suffix, targetOrdinal⟩

/-- `encode`. -/
def encode (view : SampleKey) (targetOrdinal : Nat) (copied reserved : Bool) :
    Action CodedSample := do
  let endpoint ← get
  checkOrdinal P endpoint.count targetOrdinal
  let key := view.read endpoint.key
  require (P.Aligned key) "sample key unit mismatch"
  let comparison := compareCommonBits endpoint.key key
  require (comparison.order ≠ .gt) "sample keys must be sorted"
  encodeKnown P view targetOrdinal comparison.commonBits copied reserved

/-- `accept_full`, whose key does not borrow the context of the decoder. -/
def acceptFull (key : BitString) (ordinal : Nat) (reserved : Bool) : Action BitComparison := do
  let endpoint ← get
  checkOrdinal P endpoint.count ordinal
  require (P.Aligned key) "sample key unit mismatch"
  let comparison := compareCommonBits endpoint.key key
  require (comparison.order ≠ .gt) "sample keys must be sorted"
  let retained := comparison.commonBits / 8 * 8
  replaceSuffix retained (key.drop retained) reserved
  modify fun endpoint => { endpoint with count := endpoint.count + 1 }
  return comparison

/-- `accept_compared`. -/
def acceptCompared (sample : CodedSample) (reserved : Bool) :
    Action (BitString × BitComparison) := do
  let endpoint ← get
  checkOrdinal P endpoint.count sample.targetOrdinal
  require (P.Aligned sample.suffix) "sample suffix unit mismatch"
  let previousUnits := P.units endpoint.key
  require (sample.backspace ≤ previousUnits) "sample backspace exceeds previous key"
  let retained ← evaluate (ProfileDetail.multiply (previousUnits - sample.backspace) P.bitsPerUnit)
  let comparison := compareCommonBits (endpoint.key.drop retained) sample.suffix
  require (comparison.order ≠ .gt) "sample keys must be sorted"
  replaceSuffix retained sample.suffix reserved
  modify fun endpoint => { endpoint with count := endpoint.count + 1 }
  let endpoint ← get
  return (endpoint.key, ⟨comparison.commonBits + retained, comparison.order⟩)

end SampleEndpoint

namespace SamplingDetail

open SampleEndpoint

theorem length_resize (value : BitString) (bits : Nat) : (resize value bits).length = bits := by
  rw [resize, List.length_append, List.length_take, List.length_replicate]
  omega

theorem resize_eq_take {value : BitString} {bits : Nat} (inside : bits ≤ value.length) :
    resize value bits = value.take bits := by
  rw [resize, Nat.sub_eq_zero_of_le inside, List.replicate_zero, List.append_nil]

/-- The edit after the last check cannot fail. -/
theorem replaceSuffix_edit {retained : Nat} {suffix : BitString}
    (fits : retained + suffix.length ≤ maximum64 - 7) (endpoint : SampleEndpoint) :
    call (replaceSuffix retained suffix true) endpoint =
      (.ok (), { endpoint with key := resize endpoint.key retained ++ suffix }) := by
  have summed : retained + suffix.length ≤ maximum64 := fits.trans (Nat.sub_le _ _)
  have appended : ProfileDetail.append (resize endpoint.key retained) suffix =
      .ok (resize endpoint.key retained ++ suffix) := by
    rw [ProfileDetail.append, length_resize, ProfileDetail.add, if_pos summed]
    exact if_neg (Nat.not_lt.mpr fits)
  unfold replaceSuffix
  rw [call_bind, call_evaluate, ProfileDetail.add, if_pos summed]
  dsimp only
  rw [call_bind, call_require, if_pos fits]
  dsimp only
  rw [call_bind, call_require, if_pos rfl]
  dsimp only
  rw [call_modify_bind, call_get_bind, call_bind, call_evaluate, appended]
  rfl

/-- Replacing a suffix edits everything or nothing. -/
theorem replaceSuffix_cases (retained : Nat) (suffix : BitString) (reserved : Bool)
    (endpoint : SampleEndpoint) :
    (retained + suffix.length ≤ maximum64 - 7 ∧ reserved = true) ∨
      ∃ e, call (replaceSuffix retained suffix reserved) endpoint = (.error e, endpoint) := by
  by_cases summed : retained + suffix.length ≤ maximum64
  · by_cases fits : retained + suffix.length ≤ maximum64 - 7
    · cases reserved with
      | true => exact .inl ⟨fits, rfl⟩
      | false =>
          refine .inr ⟨"bad_alloc", ?_⟩
          unfold replaceSuffix
          rw [call_bind, call_evaluate, ProfileDetail.add, if_pos summed]
          dsimp only
          rw [call_bind, call_require, if_pos fits]
          dsimp only
          rw [call_bind, call_require, if_neg (by decide)]
    · refine .inr ⟨"sample key is too large", ?_⟩
      unfold replaceSuffix
      rw [call_bind, call_evaluate, ProfileDetail.add, if_pos summed]
      dsimp only
      rw [call_bind, call_require, if_neg fits]
  · refine .inr ⟨"profile addition", ?_⟩
    unfold replaceSuffix
    rw [call_bind, call_evaluate, ProfileDetail.add, if_neg summed]

theorem replaceSuffix_atomic (retained : Nat) (suffix : BitString) (reserved : Bool) :
    Atomic (replaceSuffix retained suffix reserved) := by
  intro endpoint e failed
  rcases replaceSuffix_cases retained suffix reserved endpoint with ⟨fits, rfl⟩ | ⟨_, kept⟩
  · rw [replaceSuffix_edit fits] at failed
    cases failed
  · rw [kept]

theorem replaceSuffix_ok {retained : Nat} {suffix : BitString} {reserved : Bool}
    {endpoint after : SampleEndpoint}
    (done : call (replaceSuffix retained suffix reserved) endpoint = (.ok (), after)) :
    after = { endpoint with key := resize endpoint.key retained ++ suffix } ∧
      retained + suffix.length ≤ maximum64 - 7 := by
  rcases replaceSuffix_cases retained suffix reserved endpoint with ⟨fits, rfl⟩ | ⟨_, kept⟩
  · rw [replaceSuffix_edit fits] at done
    cases done
    exact ⟨rfl, fits⟩
  · rw [kept] at done
    cases done

end SamplingDetail

namespace SampleEndpoint

open SamplingDetail

variable {P : StoragePolicy}

/-! ## Rejected calls -/

theorem encodeKnown_atomic (view : SampleKey) (targetOrdinal commonBits : Nat)
    (copied reserved : Bool) :
    Atomic (encodeKnown P view targetOrdinal commonBits copied reserved) := by
  unfold encodeKnown
  refine reads_get.bind_atomic fun endpoint => ?_
  refine (reads_evaluate _).bind_atomic fun retainedBits => ?_
  refine (reads_require _ _).bind_atomic fun _ => ?_
  refine (reads_require _ _).bind_atomic fun _ => ?_
  exact (replaceSuffix_atomic _ _ _).bind_returns fun _ =>
    (returns_modify _).bind fun _ => returns_pure _

/-- A rejected sample leaves the encoder as it was. -/
theorem encode_atomic (view : SampleKey) (targetOrdinal : Nat) (copied reserved : Bool) :
    Atomic (encode P view targetOrdinal copied reserved) := by
  unfold encode checkOrdinal
  refine reads_get.bind_atomic fun endpoint => ?_
  refine (reads_require _ _).bind_atomic fun _ => ?_
  refine (reads_require _ _).bind_atomic fun _ => ?_
  refine (reads_require _ _).bind_atomic fun _ => ?_
  exact encodeKnown_atomic _ _ _ _ _

/-- A rejected key leaves the decoder as it was. -/
theorem acceptFull_atomic (key : BitString) (ordinal : Nat) (reserved : Bool) :
    Atomic (acceptFull P key ordinal reserved) := by
  unfold acceptFull checkOrdinal
  refine reads_get.bind_atomic fun endpoint => ?_
  refine (reads_require _ _).bind_atomic fun _ => ?_
  refine (reads_require _ _).bind_atomic fun _ => ?_
  refine (reads_require _ _).bind_atomic fun _ => ?_
  exact (replaceSuffix_atomic _ _ _).bind_returns fun _ =>
    (returns_modify _).bind fun _ => returns_pure _

/-- A rejected sample leaves the decoder as it was. -/
theorem acceptCompared_atomic (sample : CodedSample) (reserved : Bool) :
    Atomic (acceptCompared P sample reserved) := by
  unfold acceptCompared checkOrdinal
  refine reads_get.bind_atomic fun endpoint => ?_
  refine (reads_require _ _).bind_atomic fun _ => ?_
  refine (reads_require _ _).bind_atomic fun _ => ?_
  refine (reads_require _ _).bind_atomic fun _ => ?_
  refine (reads_evaluate _).bind_atomic fun retained => ?_
  refine (reads_require _ _).bind_atomic fun _ => ?_
  exact (replaceSuffix_atomic _ _ _).bind_returns fun _ =>
    (returns_modify _).bind fun _ => fun state => ⟨_, rfl⟩

end SampleEndpoint

end Everett

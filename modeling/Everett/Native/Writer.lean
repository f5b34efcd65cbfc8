import Everett.Profile.Cursor

/-!
# Writing native arrays

`native_output` appends frames whose retained prefix the caller knows, and `profile_native_writer`
derives that prefix from the preceding key.  The physical sections are left to the codec; here an
output is the frames which its readers see.
-/

namespace Everett

open Word Outcome

variable (P : StoragePolicy)

/-- A value of whole units, of the common width if the policy fixes one. -/
def StoragePolicy.ValidValue (value : BitString) : Prop :=
  P.Aligned value ∧ ∀ width ∈ P.valueWidth, P.units value = width

instance (value : BitString) : Decidable (P.ValidValue value) :=
  inferInstanceAs (Decidable (_ ∧ _))

/-- `profile_record`: one contribution. -/
structure ProfileRecord where
  /-- The complete key. -/
  key : BitString
  /-- Value bits. -/
  value : BitString
  /-- Hint which limits the prefix shared with the preceding key. -/
  retainedLimitBits : Option Nat
  deriving DecidableEq, Repr

/-- `native_output`. -/
structure NativeOutput where
  /-- Frames in order. -/
  frames : List Frame
  /-- Common value width in units, if any. -/
  common : Option Nat
  /-- Length of the preceding key in units. -/
  previousUnits : Nat
  finished : Bool

namespace NativeOutput

/-- Open an output with a common value width. -/
def start (common : Option Nat) : Result NativeOutput := do
  require (P.valueWidth.isSome = true → common = P.valueWidth)
    "native writer width disagrees with fixed policy"
  let _ ← ProfileDetail.multiply (common.getD 0) P.bitsPerUnit
  .ok ⟨[], common, 0, false⟩

/-- `require_active`. -/
def requireActive (output : NativeOutput) : Result Unit :=
  require (output.finished = false) "native profile writer is finished"

/-- `append`: frame a key split at its retained prefix. -/
def append (output : NativeOutput) (retained : Nat) (literal value : BitString) :
    Result NativeOutput := do
  output.requireActive
  require (P.Aligned literal ∧ P.Aligned value)
    "native writer record length disagrees with policy units"
  require (∀ width ∈ output.common, P.units value = width)
    "native writer value disagrees with common width"
  require (retained ≤ output.previousUnits ∧ (output.frames = [] ∨ literal ≠ []))
    "native writer invalid known prefix"
  let _ ← ProfileDetail.add output.frames.length 1
  .ok { output with
    frames := output.frames ++ [⟨retained, literal, value⟩]
    previousUnits := retained + P.units literal }

/-- `finish`: give up the frames. -/
def finish (output : NativeOutput) : Result (NativeOutput × List Frame) := do
  output.requireActive
  .ok ({ output with frames := [], finished := true }, output.frames)

end NativeOutput

/-- `profile_native_writer`. -/
structure NativeWriter where
  output : NativeOutput
  /-- The preceding key. -/
  previous : BitString

namespace NativeWriter

/-- Open a writer for the width of the policy. -/
def start : Result NativeWriter := do
  let output ← NativeOutput.start P P.valueWidth
  .ok ⟨output, []⟩

/-- `append`: keys must strictly increase, and the hint limits what is retained. -/
def append (writer : NativeWriter) (record : ProfileRecord) : Result NativeWriter := do
  writer.output.requireActive
  require (P.Aligned record.key ∧ P.Aligned record.value)
    "native writer record length disagrees with policy units"
  require (∀ width ∈ writer.output.common, P.units record.value = width)
    "native writer value disagrees with common width"
  let comparison := compareCommonBits writer.previous record.key
  require (writer.output.frames = [] ∨ comparison.order = .lt)
    "native writer keys must be strictly increasing"
  let retained :=
    min comparison.commonBits (record.retainedLimitBits.getD comparison.commonBits) / P.bitsPerUnit
  let output ← writer.output.append P retained (record.key.drop (retained * P.bitsPerUnit))
    record.value
  .ok ⟨output, record.key⟩

/-- Append records in order. -/
def appendAll (writer : NativeWriter) (records : List ProfileRecord) : Result NativeWriter :=
  records.foldlM (append P) writer

/-- `finish`. -/
def finish (writer : NativeWriter) : Result (NativeWriter × List Frame) := do
  let (output, frames) ← writer.output.finish
  .ok (⟨output, []⟩, frames)

end NativeWriter

/-- The entries which frames stand for after a preceding key. -/
def entriesFrom : BitString → List Frame → List Entry
  | _, [] => []
  | previous, frame :: frames =>
      let key := previous.take (frame.retainedBits P) ++ frame.suffix
      ⟨key, frame.retained, frame.value⟩ :: entriesFrom key frames

/-- Decide what an array must satisfy. -/
def Retains.decide : (word : BitString) → (entries : List Entry) →
    Decidable (Retains P word entries)
  | _, [] => .isTrue trivial
  | _, entry :: entries =>
      have := Retains.decide entry.key entries
      inferInstanceAs (Decidable (_ ∧ _ ∧ _))

instance (previous : BitString) (entries : List Entry) : Decidable (Retains P previous entries) :=
  Retains.decide P previous entries

/-- Adopt written frames as a native array.  The source adopts them unchecked. -/
def NativeArray.fromOwned (frames : List Frame) : Result (NativeArray P) :=
  let entries := entriesFrom P [] frames
  if native : Retains P [] entries ∧ (entries.map Entry.key).Pairwise (· < ·) ∧
      entries.length ≤ maximum64 then
    .ok ⟨entries, native.1, native.2.1, native.2.2⟩
  else .error "frames of no native array"

variable {P}

theorem Retains.append_singleton {previous : BitString} {entries : List Entry} {entry : Entry}
    (retains : Retains P previous entries)
    (shares : entry.retained * P.bitsPerUnit ≤
      lcp ((entries.getLast?.map Entry.key).getD previous) entry.key)
    (aligned : P.Aligned entry.key) : Retains P previous (entries ++ [entry]) := by
  induction entries generalizing previous with
  | nil => exact ⟨shares, aligned, trivial⟩
  | cons head tail induction =>
      refine ⟨retains.1, retains.2.1, induction retains.2.2 ?_⟩
      cases tail with
      | nil => simpa using shares
      | cons next tail => simpa [List.getLast?_cons] using shares

theorem entriesFrom_frames {previous : BitString} {entries : List Entry}
    (retains : Retains P previous entries) :
    entriesFrom P previous (entries.map (Entry.frame P)) = entries := by
  induction entries generalizing previous with
  | nil => rfl
  | cons entry entries induction =>
      have key : previous.take (entry.retained * P.bitsPerUnit) ++
          entry.key.drop (entry.retained * P.bitsPerUnit) = entry.key := by
        rw [take_eq_of_le_lcp retains.1, List.take_append_drop]
      have rest := induction retains.2.2
      have head : previous.take ((entry.frame P).retainedBits P) ++ (entry.frame P).suffix =
          entry.key := key
      rw [List.map_cons, entriesFrom, head, rest]
      rfl

/-- The key which precedes the next one to be written. -/
def lastWritten (entries : List Entry) : BitString :=
  (entries.getLast?.map Entry.key).getD []

@[simp]
theorem lastWritten_append (entries : List Entry) (entry : Entry) :
    lastWritten (entries ++ [entry]) = entry.key := by
  simp [lastWritten]

namespace NativeOutput

/-- An open output whose frames stand for sorted entries. -/
structure Writes (output : NativeOutput) (entries : List Entry) : Prop where
  frames : output.frames = entries.map (Entry.frame P)
  retains : Retains P [] entries
  sorted : (entries.map Entry.key).Pairwise (· < ·)
  previous : output.previousUnits = P.units (lastWritten entries)
  common : output.common = P.valueWidth
  active : output.finished = false

theorem start_ok (fits : P.valueWidth.getD 0 * P.bitsPerUnit ≤ maximum64) :
    ∃ output, start P P.valueWidth = .ok output ∧ output.Writes (P := P) [] := by
  refine ⟨⟨[], P.valueWidth, 0, false⟩, ?_, ?_⟩
  · simp [start, require_true, ProfileDetail.multiply, fits]
  · exact ⟨rfl, trivial, .nil, by simp [lastWritten, StoragePolicy.units], rfl, rfl⟩

/-- Writing an entry which extends the sorted entries frames it as it says. -/
theorem Writes.append_ok {output : NativeOutput} {entries : List Entry}
    (writes : output.Writes (P := P) entries) {entry : Entry}
    (shares : entry.retained * P.bitsPerUnit ≤ lcp (lastWritten entries) entry.key)
    (later : entries = [] ∨ lastWritten entries < entry.key) (aligned : P.Aligned entry.key)
    (valid : P.ValidValue entry.value) (count : entries.length < maximum64) :
    ∃ next, output.append P entry.retained (entry.key.drop (entry.retained * P.bitsPerUnit))
        entry.value = .ok next ∧ next.Writes (P := P) (entries ++ [entry]) := by
  set retainedBits := entry.retained * P.bitsPerUnit with retainedBits_eq
  have within : retainedBits ≤ entry.key.length := shares.trans (lcp_le_right _ _)
  have literal_aligned : P.Aligned (entry.key.drop retainedBits) := by
    unfold StoragePolicy.Aligned
    rw [List.length_drop]
    exact Nat.dvd_sub aligned (Dvd.intro_left _ rfl)
  have known : entry.retained ≤ output.previousUnits := by
    rw [writes.previous]
    exact (Nat.le_div_iff_mul_le P.bitsPerUnit_pos).mpr (shares.trans (lcp_le_left _ _))
  have progress : output.frames = [] ∨ entry.key.drop retainedBits ≠ [] := by
    rcases later with rfl | less
    · exact .inl writes.frames
    · refine .inr fun exhausted => ?_
      have whole : entry.key.length ≤ retainedBits := List.drop_eq_nil_iff.mp exhausted
      have above : entry.key ≤ lastWritten entries := by
        apply le_of_length_le_lcp
        rw [lcp_comm]
        exact whole.trans shares
      exact absurd less (not_lt.mpr above)
  have width : ∀ width ∈ output.common, P.units entry.value = width := by
    rw [writes.common]
    exact valid.2
  have room : output.frames.length + 1 ≤ maximum64 := by
    rw [writes.frames, List.length_map]
    exact count
  have units : entry.retained + P.units (entry.key.drop retainedBits) = P.units entry.key :=
    frame_keyUnits shares
  have written : output.append P entry.retained (entry.key.drop retainedBits) entry.value =
      .ok { output with
        frames := output.frames ++ [⟨entry.retained, entry.key.drop retainedBits, entry.value⟩]
        previousUnits := entry.retained + P.units (entry.key.drop retainedBits) } := by
    unfold append requireActive
    rw [require_true writes.active, require_true ⟨literal_aligned, valid.1⟩, require_true width,
      require_true ⟨known, progress⟩, ProfileDetail.add, if_pos room]
    rfl
  refine ⟨_, written, ⟨?_, writes.retains.append_singleton shares aligned, ?_, ?_, writes.common,
    writes.active⟩⟩
  · rw [List.map_append, ← writes.frames]
    rfl
  · rw [List.map_append, List.map_singleton]
    refine List.pairwise_append.mpr ⟨writes.sorted, List.pairwise_singleton _ _, ?_⟩
    rintro key member _ (_ | ⟨_, impossible⟩)
    · obtain ⟨earlier, earlier_member, rfl⟩ := List.mem_map.mp member
      have nonempty : entries ≠ [] := List.ne_nil_of_mem earlier_member
      have less : lastWritten entries < entry.key := later.resolve_left nonempty
      refine lt_of_le_of_lt ?_ less
      obtain ⟨front, last, rfl⟩ := List.eq_nil_or_concat entries |>.resolve_left nonempty
      rw [List.concat_eq_append, lastWritten_append]
      rw [List.concat_eq_append] at writes earlier_member
      have sorted := writes.sorted
      rw [List.map_append, List.map_singleton, List.pairwise_append] at sorted
      rcases List.mem_append.mp earlier_member with early | last_member
      · exact (sorted.2.2 _ (List.mem_map_of_mem early) _ (by simp)).le
      · rw [List.mem_singleton.mp last_member]
    · cases impossible
  · rw [lastWritten_append]
    exact units

/-- The frames of a finished output are adopted as the entries it wrote. -/
theorem Writes.finish_ok {output : NativeOutput} {entries : List Entry}
    (writes : output.Writes (P := P) entries) (count : entries.length ≤ maximum64) :
    ∃ closed array, output.finish = .ok (closed, output.frames) ∧
      NativeArray.fromOwned P output.frames = .ok array ∧ array.entries = entries := by
  have adopted : entriesFrom P [] output.frames = entries := by
    rw [writes.frames, entriesFrom_frames writes.retains]
  refine ⟨{ output with frames := [], finished := true },
    ⟨entries, writes.retains, writes.sorted, count⟩, ?_, ?_, rfl⟩
  · simp [finish, requireActive, require_true writes.active]
  · simp [NativeArray.fromOwned, adopted, writes.retains, writes.sorted, count]

end NativeOutput

end Everett

import Everett.Policy

/-!
# Front-coded frames

A record of a profile array is a frame: a count of retained units, a literal suffix and a value.
Readers see frames only.  An array remembers which key each frame stands for, so that what a reader
reconstructs can be compared with it.
-/

namespace Everett

open Word

variable (P : StoragePolicy)

/-- `profile_encoded_record`: retained key units, literal suffix bits and value bits. -/
structure Frame where
  /-- Units inherited from the preceding key. -/
  retained : Nat
  /-- Literal bits following the inherited prefix. -/
  suffix : BitString
  /-- Value bits. -/
  value : BitString
  deriving DecidableEq, Repr

namespace Frame

/-- Length of the framed key in units. -/
def keyUnits (frame : Frame) : Nat := frame.retained + P.units frame.suffix

/-- Inherited bits of the framed key. -/
def retainedBits (frame : Frame) : Nat := frame.retained * P.bitsPerUnit

end Frame

/-- `decode_into` without a prefix limit: replace the preceding key by the framed one. -/
def decodeInto (frame : Frame) (scratch : BitString) : Result BitString :=
  if P.units scratch < frame.retained then .error "profile anchor is too short"
  else .ok (scratch.take (frame.retainedBits P) ++ frame.suffix)

/-- A record of an array together with the key it stands for. -/
structure Entry where
  /-- The complete key. -/
  key : BitString
  /-- Units the frame inherits from the preceding key. -/
  retained : Nat
  /-- Value bits. -/
  value : BitString
  deriving DecidableEq, Repr

/-- The physical frame of an entry. -/
def Entry.frame (entry : Entry) : Frame :=
  ⟨entry.retained, entry.key.drop (entry.retained * P.bitsPerUnit), entry.value⟩

/-- Every entry is aligned and inherits at most what it shares with the preceding key. -/
def Retains : BitString → List Entry → Prop
  | _, [] => True
  | previous, entry :: entries =>
      entry.retained * P.bitsPerUnit ≤ lcp previous entry.key ∧ P.Aligned entry.key ∧
        Retains entry.key entries

/-- A profile array whose consecutive keys are related; the relation is the role of the array. -/
structure ProfileArray (related : BitString → BitString → Prop) where
  /-- Records in order. -/
  entries : List Entry
  /-- Frames inherit only shared prefixes. -/
  retains : Retains P [] entries
  /-- Keys are sorted as the role requires. -/
  sorted : (entries.map Entry.key).Pairwise related
  /-- Record counts are 64-bit. -/
  count : entries.length ≤ maximum64

/-- Native arrays have strictly increasing keys. -/
abbrev NativeArray := ProfileArray P (· < ·)

/-- Borrowed arrays have nondecreasing keys. -/
abbrev BorrowedArray := ProfileArray P (· ≤ ·)

namespace ProfileArray

variable {P} {related : BitString → BitString → Prop}

/-- Keys of an array in order. -/
def keys (array : ProfileArray P related) : List BitString := array.entries.map Entry.key

/-- Physical frames of an array, all that its readers see. -/
def frames (array : ProfileArray P related) : List Frame := array.entries.map (Entry.frame P)

/-- `size()`. -/
def size (array : ProfileArray P related) : Nat := array.entries.length

@[simp]
theorem length_keys (array : ProfileArray P related) : array.keys.length = array.size := by
  simp [keys, size]

@[simp]
theorem length_frames (array : ProfileArray P related) : array.frames.length = array.size := by
  simp [frames, size]

/-- The empty array. -/
def empty : ProfileArray P related := ⟨[], trivial, .nil, by decide⟩

/-- The array of one record. -/
def singleton (key value : BitString) (aligned : P.Aligned key) : NativeArray P :=
  ⟨[⟨key, 0, value⟩], ⟨by simp, aligned, trivial⟩, by simp, by simp [maximum64]⟩

end ProfileArray

variable {P}

theorem frame_keyUnits {previous : BitString} {entry : Entry}
    (shares : entry.retained * P.bitsPerUnit ≤ lcp previous entry.key) :
    (entry.frame P).keyUnits P = P.units entry.key := by
  have within := shares.trans (lcp_le_right previous entry.key)
  simp only [Frame.keyUnits, Entry.frame, StoragePolicy.units, List.length_drop]
  rw [Nat.mul_comm entry.retained, Nat.sub_mul_div]
  have := (Nat.le_div_iff_mul_le P.bitsPerUnit_pos).mpr within
  omega

/-- Decoding a frame over a word sharing its retained prefix gives the framed key. -/
theorem decodeInto_frame {scratch : BitString} {entry : Entry}
    (shares : entry.retained * P.bitsPerUnit ≤ lcp scratch entry.key) :
    decodeInto P (entry.frame P) scratch = .ok entry.key := by
  have within : entry.retained ≤ P.units scratch :=
    (Nat.le_div_iff_mul_le P.bitsPerUnit_pos).mpr (shares.trans (lcp_le_left _ _))
  simp only [decodeInto, Entry.frame, Frame.retainedBits, Nat.not_lt.mpr within, if_false]
  rw [take_eq_of_le_lcp shares, List.take_append_drop]

theorem Retains.tail_of_append {previous : BitString} {front back : List Entry}
    (retains : Retains P previous (front ++ back)) :
    Retains P ((front.getLast?.map Entry.key).getD previous) back := by
  induction front generalizing previous with
  | nil => exact retains
  | cons entry front induction =>
      have rest := induction retains.2.2
      cases front with
      | nil => exact rest
      | cons next front => simpa [List.getLast?_cons] using rest

theorem Retains.take {previous : BitString} {entries : List Entry}
    (retains : Retains P previous entries) (count : Nat) : Retains P previous (entries.take count) := by
  induction entries generalizing previous count with
  | nil => simpa using retains
  | cons entry entries induction =>
      cases count with
      | zero => trivial
      | succ count => exact ⟨retains.1, retains.2.1, induction retains.2.2 count⟩

/-- An anchor between the preceding key and the first key shares what the first frame retains. -/
theorem Retains.anchored {previous anchor : BitString} {entries : List Entry}
    (retains : Retains P previous entries)
    (between : ∀ entry ∈ entries.head?, previous ≤ anchor ∧ anchor ≤ entry.key) :
    Retains P anchor entries := by
  cases entries with
  | nil => trivial
  | cons entry entries =>
      obtain ⟨lower, upper⟩ := between entry rfl
      exact ⟨retains.1.trans (lcp_between lower upper).2, retains.2⟩

/-- A window of an array, read after an anchor between the key preceding it and its first key. -/
theorem Retains.window {anchor : BitString} {entries : List Entry} {first : Nat}
    (retains : Retains P [] entries)
    (between : ∀ entry, entries[first]? = some entry →
      (∀ earlier ∈ entries.take first, earlier.key ≤ anchor) ∧ anchor ≤ entry.key) (count : Nat) :
    Retains P anchor ((entries.drop first).take count) := by
  rw [← List.take_append_drop first entries] at retains
  refine Retains.take (retains.tail_of_append.anchored fun entry head => ?_) count
  obtain ⟨below, above⟩ := between entry (by simpa [List.head?_drop] using head)
  refine ⟨?_, above⟩
  cases last : (entries.take first).getLast? with
  | none => simp
  | some earlier => simpa using below earlier (List.mem_of_getLast? last)

theorem Retains.aligned {previous : BitString} {entries : List Entry}
    (retains : Retains P previous entries) {entry : Entry} (member : entry ∈ entries) :
    P.Aligned entry.key := by
  induction entries generalizing previous with
  | nil => cases member
  | cons head tail induction =>
      rcases List.mem_cons.mp member with rfl | later
      · exact retains.2.1
      · exact induction retains.2.2 later

end Everett

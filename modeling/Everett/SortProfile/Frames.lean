import Everett.Library.Delimited
import Everett.SortProfile.View

/-!
# Frames of sort profiles

An array stands for a list of entries when its data are their frames one after the other and its
other sections agree with them.  A view then reads exactly these frames, in whatever order.
-/

namespace Everett

open Word Outcome

/-- A record of a sort profile together with the key it stands for. -/
structure SortEntry (S : Type) where
  sort : S
  /-- The order bits of the key. -/
  key : BitString
  value : BitString
  /-- Bits of path and key which the frame retains. -/
  retained : Nat
  /-- The header of the key codec. -/
  header : BitString

namespace SortEntry

variable {S : Type} [DecidableEq S] (P : StoragePolicy) (layout : SortProfileLayout S)
  (path : S → BitString)

/-- The path followed by the order bits. -/
def logical (entry : SortEntry S) : BitString := path entry.sort ++ entry.key

/-- Length of the path. -/
def pathBits (entry : SortEntry S) : Nat := (path entry.sort).length

/-- The key past what the frame retains. -/
def literal (entry : SortEntry S) : BitString := (entry.logical path).drop entry.retained

/-- What the following entry may inherit. -/
def continuation (entry : SortEntry S) : Nat :=
  entry.pathBits path + if (layout.key entry.sort).frontCoded then entry.key.length else 0

/-- Whether the preceding entry has the same sort. -/
def follows (entry : SortEntry S) : Option (SortEntry S) → Bool
  | some previous => previous.sort = entry.sort
  | none => false

/-- Bits of the path which the preceding entry has in common. -/
def joint (entry : SortEntry S) : Option (SortEntry S) → Nat
  | some previous => lcp (path previous.sort) (path entry.sort)
  | none => 0

/-- The control bits of a frame. -/
def control (restart : Bool) (previous : Option (SortEntry S)) (entry : SortEntry S) : BitString :=
  let continuation := (previous.map (continuation layout path)).getD 0
  if restart then CountCode.exponential.bits entry.retained
  else if entry.follows previous then P.backspace.bits (continuation - entry.retained)
  else P.backspace.bits (continuation - entry.joint path previous) ++
    (path entry.sort).drop (entry.joint path previous)

/-- The bits of an entry. -/
def bits (restart : Bool) (previous : Option (SortEntry S)) (entry : SortEntry S) : BitString :=
  entry.control P layout path restart previous ++
    (entry.header ++ entry.literal path ++ entry.value)

/-- Whether the record at an ordinal starts a block. -/
def restarts (ordinal : Nat) : Bool := ordinal % P.codecBlockSize = 0

/-- The bits of entries from an ordinal on, after a preceding entry. -/
def bitsFrom : Nat → Option (SortEntry S) → List (SortEntry S) → BitString
  | _, _, [] => []
  | ordinal, previous, entry :: entries =>
      entry.bits P layout path (restarts P ordinal) previous ++
        bitsFrom (ordinal + 1) (some entry) entries

/-- The bits of all entries. -/
def allBits (entries : List (SortEntry S)) : BitString := bitsFrom P layout path 0 none entries

/-- An entry whose frame can be read after the preceding entry. -/
structure Valid (previous : Option (SortEntry S)) (entry : SortEntry S) : Prop where
  value : Reads (layout.value entry.sort).skip entry.value ()
  frame : Reads ((layout.key entry.sort).read (entry.retained - entry.pathBits path))
    (entry.header ++ entry.literal path)
    ⟨entry.retained - entry.pathBits path, entry.literal path⟩
  floor : entry.pathBits path ≤ entry.retained
  within : entry.retained ≤ (entry.logical path).length
  bounded : (entry.logical path).length ≤ maximum64 - 7
  shares : ∀ before ∈ previous, before.sort = entry.sort →
    entry.retained ≤ lcp (before.logical path) (entry.logical path)
  apart : entry.follows previous = false → entry.retained = entry.pathBits path
  whole : (layout.key entry.sort).frontCoded = false → entry.retained = entry.pathBits path

/-- Every entry can be read after the one before it. -/
def ValidFrom : Option (SortEntry S) → List (SortEntry S) → Prop
  | _, [] => True
  | previous, entry :: entries =>
      entry.Valid layout path previous ∧ ValidFrom (some entry) entries

/-- Whether a view takes the path of a frame from the preceding key. -/
def inherits (restart : Bool) (previous : Option (SortEntry S)) (entry : SortEntry S) : Bool :=
  if restart then entry.retained ≠ entry.pathBits path else entry.follows previous

/-- What a frame retains as a view reads it. -/
def viewRetained (restart : Bool) (previous : Option (SortEntry S)) (entry : SortEntry S) : Nat :=
  if entry.inherits path restart previous then entry.retained
  else if restart then 0 else entry.joint path previous

/-- Where the path of a sort stands in a dictionary. -/
def pathOffset (ids : List S) (sort : S) : Nat :=
  ((ids.map path).take (ids.idxOf sort)).flatten.length

/-- The frame of an entry after some others, as a view reads it. -/
def frameOf (ids : List S) (front : List (SortEntry S)) (entry : SortEntry S) :
    SortProfileFrame S :=
  let restart := restarts P front.length
  let previous := front.getLast?
  { ordinal := front.length
    retained := entry.viewRetained path restart previous
    keyUnits := (entry.logical path).length
    nextOffset := (allBits P layout path (front ++ [entry])).length
    literal := [if entry.inherits path restart previous then []
      else (path entry.sort).drop (entry.viewRetained path restart previous), entry.literal path]
    value := entry.value
    path := path entry.sort
    pathOffset := pathOffset path ids entry.sort
    leaf := entry.sort
    frontCoded := (layout.key entry.sort).frontCoded
    retainedLimitBits := none }

variable {P layout path}

theorem bitsFrom_append (ordinal : Nat) (previous : Option (SortEntry S))
    (front back : List (SortEntry S)) :
    bitsFrom P layout path ordinal previous (front ++ back) =
      bitsFrom P layout path ordinal previous front ++
        bitsFrom P layout path (ordinal + front.length) (front.getLast?.or previous) back := by
  induction front generalizing ordinal previous with
  | nil => rfl
  | cons entry front induction =>
      have last : (entry :: front).getLast?.or previous = front.getLast?.or (some entry) := by
        cases front with
        | nil => rfl
        | cons next front => simp [List.getLast?_cons]
      rw [List.cons_append, bitsFrom, induction, bitsFrom, last, List.append_assoc,
        List.length_cons, Nat.add_assoc, Nat.add_comm 1]

theorem allBits_append (front back : List (SortEntry S)) :
    allBits P layout path (front ++ back) = allBits P layout path front ++
      bitsFrom P layout path front.length front.getLast? back := by
  rw [allBits, bitsFrom_append, Nat.zero_add, Option.or_none]
  rfl

theorem allBits_append_singleton (front : List (SortEntry S)) (entry : SortEntry S) :
    allBits P layout path (front ++ [entry]) = allBits P layout path front ++
      entry.bits P layout path (restarts P front.length) front.getLast? := by
  rw [allBits_append, bitsFrom, bitsFrom, List.append_nil]

/-- Where the frame of an entry ends. -/
theorem length_allBits_append_singleton (front : List (SortEntry S)) (entry : SortEntry S) :
    (allBits P layout path (front ++ [entry])).length = (allBits P layout path front).length +
      (entry.control P layout path (restarts P front.length) front.getLast?).length +
      (entry.header ++ entry.literal path ++ entry.value).length := by
  rw [allBits_append_singleton, bits, List.length_append, List.length_append, Nat.add_assoc]

theorem allBits_append_cons (front back : List (SortEntry S)) (entry : SortEntry S) :
    allBits P layout path (front ++ entry :: back) = allBits P layout path front ++
      (entry.bits P layout path (restarts P front.length) front.getLast? ++
        bitsFrom P layout path (front.length + 1) (some entry) back) := by
  rw [allBits_append, bitsFrom]

theorem ValidFrom.split {previous : Option (SortEntry S)} {front back : List (SortEntry S)}
    {entry : SortEntry S} (valid : ValidFrom layout path previous (front ++ entry :: back)) :
    entry.Valid layout path (front.getLast?.or previous) := by
  induction front generalizing previous with
  | nil => exact valid.1
  | cons first front induction =>
      have later := induction valid.2
      cases front with
      | nil => exact later
      | cons second front => simpa [List.getLast?_cons] using later

theorem ValidFrom.append_singleton {previous : Option (SortEntry S)}
    {entries : List (SortEntry S)} {entry : SortEntry S}
    (valid : ValidFrom layout path previous entries)
    (last : entry.Valid layout path (entries.getLast?.or previous)) :
    ValidFrom layout path previous (entries ++ [entry]) := by
  induction entries generalizing previous with
  | nil => exact ⟨last, trivial⟩
  | cons first entries induction =>
      refine ⟨valid.1, induction valid.2 ?_⟩
      cases entries with
      | nil => exact last
      | cons second entries => simpa [List.getLast?_cons] using last

variable {entry : SortEntry S}

theorem length_logical : (entry.logical path).length = entry.pathBits path + entry.key.length :=
  List.length_append

/-- A view adds the path and the literal of a frame to what it retains. -/
theorem Valid.completes {previous : Option (SortEntry S)} (valid : entry.Valid layout path previous)
    (restart : Bool) :
    [if entry.inherits path restart previous then []
      else (path entry.sort).drop (entry.viewRetained path restart previous),
      entry.literal path].flatten =
      (entry.logical path).drop (entry.viewRetained path restart previous) := by
  have whole : entry.follows previous = false → entry.literal path = entry.key := by
    intro apart
    rw [literal, valid.apart apart, logical, pathBits, List.drop_left]
  have two_parts : ∀ a b : BitString, [a, b].flatten = a ++ b := by
    intro a b
    simp
  rw [two_parts]
  by_cases inherited : entry.inherits path restart previous = true
  · rw [if_pos inherited, List.nil_append, viewRetained, if_pos inherited, literal]
  · have fresh : entry.literal path = entry.key ∧
        entry.viewRetained path restart previous ≤ entry.pathBits path := by
      rw [viewRetained, if_neg inherited]
      cases restart with
      | true =>
          have same : entry.retained = entry.pathBits path := by
            simpa [inherits] using inherited
          refine ⟨?_, Nat.zero_le _⟩
          rw [literal, same, logical, pathBits, List.drop_left]
      | false =>
          have apart : entry.follows previous = false := by
            simpa [inherits] using inherited
          refine ⟨whole apart, ?_⟩
          cases previous with
          | none => exact Nat.zero_le _
          | some before => exact lcp_le_right _ _
    rw [if_neg inherited, fresh.1, logical, List.drop_append_of_le_length fresh.2]

end SortEntry

end Everett

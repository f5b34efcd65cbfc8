import Everett.Cola.Sampler

/-!
# Building an index

`cola_index_builder` merges the native keys of a node with the samples of its targets, one
occurrence at a time.  Without targets no key is read: navigation depends only on the count.
-/

namespace Everett

open Word Outcome

variable (P : StoragePolicy)

/-- Append a key of known common prefix to the frames of a borrowed array. -/
def appendKnown (frames : List Frame) (key : BitString) (commonBits : Nat) :
    Result (List Frame) := do
  let _ ← ProfileDetail.add frames.length 1
  let retained := commonBits / P.bitsPerUnit
  .ok (frames ++ [⟨retained, key.drop (retained * P.bitsPerUnit), []⟩])

/-- `group_count` of a main target. -/
def MainPointer.groupCount (main : MainPointer P) : Nat :=
  match main with
  | [] => 0
  | node :: _ => node.value.groupCount

/-- Number of samples of a secondary array. -/
def secondaryCount (secondary : Option (Shared (NativeArray P))) : Nat :=
  match secondary with
  | none => 0
  | some leaf => ceilDiv leaf.value.size P.groupSize

/-- `cola_index_builder`. -/
structure ColaIndexBuilder where
  /-- Native array of the node. -/
  native : Shared (NativeArray P)
  /-- Main target. -/
  main : MainPointer P
  /-- Terminal secondary native array. -/
  secondary : Option (Shared (NativeArray P))
  /-- Cursor over the native keys, absent without targets. -/
  nativeCursor : Option ProfileCursor
  /-- Sampler of the main target. -/
  primaryCursor : Option SampleCursor
  /-- Cursor over the secondary keys. -/
  secondaryCursor : Option ProfileCursor
  /-- Frames of the borrowed arrays. -/
  borrowed : ColaTarget → List Frame
  ranks : ColaTarget → RankGroups
  flags : ColaTarget → List Bool
  cuts : ColaTarget → List Nat
  borrowedCount : ColaTarget → Nat
  /-- Prefix which the last borrow of a route shares with the last occurrence. -/
  cutCommon : ColaTarget → Nat
  /-- Borrows of a route in the open group. -/
  population : ColaTarget → Nat
  /-- Prefix of the last occurrence which each live head shares. -/
  prefixes : ColaOrigin → Nat
  /-- Length of the last occurrence in bits. -/
  previousLength : Nat
  /-- Number of occurrences. -/
  count : Nat
  /-- Occurrences of the open group. -/
  width : Nat
  /-- Whether the last occurrence equals a native key. -/
  nativeEqual : Bool
  finished : Bool

namespace ColaIndexBuilder

variable {P}

/-- Cursor over the native keys, opened only when there is a target. -/
def openNative (native : Shared (NativeArray P)) (main : MainPointer P)
    (secondary : Option (Shared (NativeArray P))) : Result (Option ProfileCursor) :=
  if main.isEmpty && secondary.isNone then .ok none
  else some <$> ProfileCursor.start P native.value.frames

/-- Sampler of a main target. -/
def openPrimary : MainPointer P → Result (Option SampleCursor)
  | [] => .ok none
  | node :: _ => some <$> SampleCursor.bind P node.value

/-- Cursor over a secondary target. -/
def openSecondary : Option (Shared (NativeArray P)) → Result (Option ProfileCursor)
  | none => .ok none
  | some leaf => some <$> ProfileCursor.start P leaf.value.frames

/-- Open a builder over a native array and its targets. -/
def start (native : Shared (NativeArray P)) (main : MainPointer P)
    (secondary : Option (Shared (NativeArray P))) : Result (ColaIndexBuilder P) := do
  let remaining := maximum64 - native.value.size
  require (main.groupCount ≤ remaining ∧
    secondaryCount P secondary ≤ remaining - main.groupCount) "COLA augmented count overflow"
  let nativeCursor ← openNative native main secondary
  let primaryCursor ← openPrimary main
  let secondaryCursor ← openSecondary secondary
  .ok {
    native, main, secondary, nativeCursor, primaryCursor, secondaryCursor
    borrowed := fun _ => []
    ranks := fun _ => .empty
    flags := fun _ => []
    cuts := fun _ => []
    borrowedCount := fun _ => 0
    cutCommon := fun _ => 0
    population := fun _ => 0
    prefixes := fun _ => 0
    previousLength := 0
    count := 0
    width := 0
    nativeEqual := false
    finished := false }

/-- `live`. -/
def live (builder : ColaIndexBuilder P) : ColaOrigin → Bool
  | .native => builder.nativeCursor.any fun cursor => ! cursor.done
  | .main => builder.primaryCursor.any fun cursor => ! cursor.done
  | .secondary => builder.secondaryCursor.any fun cursor => ! cursor.done

/-- `done`. -/
def done (builder : ColaIndexBuilder P) : Bool :=
  match builder.nativeCursor with
  | none => builder.count = builder.native.value.size
  | some _ => ! builder.live .native && ! builder.live .main && ! builder.live .secondary

/-- `head` of the main target while it is live. -/
def primaryHead (builder : ColaIndexBuilder P) : Result (Option BitString) :=
  match builder.primaryCursor with
  | none => .ok none
  | some cursor => if cursor.done then .ok none else some <$> cursor.peek

/-- `head` of every live source. -/
def heads (builder : ColaIndexBuilder P) : Result (ColaOrigin → Option BitString) := do
  let primary ← builder.primaryHead
  let scratch := fun (cursor : Option ProfileCursor) =>
    (cursor.filter fun cursor => ! cursor.done).map ProfileCursor.scratch
  .ok fun
    | .native => scratch builder.nativeCursor
    | .main => primary
    | .secondary => scratch builder.secondaryCursor

variable (P) in
/-- `advance_native`: step a native cursor and report what its new key shares with the old one. -/
def advanceNative (cursor : ProfileCursor) : Result (ProfileCursor × Nat) := do
  let (cursor, next) ← cursor.advanceComparison P
  require (∀ comparison ∈ next, comparison.order = .lt) "COLA native source order mismatch"
  .ok (cursor, (next.map BitComparison.commonBits).getD 0)

variable (P) in
/-- Step a secondary cursor to its next sample. -/
def advanceSecondary : Nat → ProfileCursor → Nat → Result (ProfileCursor × Nat)
  | 0, cursor, common => .ok (cursor, common)
  | stride + 1, cursor, common =>
      if cursor.done then .ok (cursor, common)
      else do
        let (cursor, next) ← advanceNative P cursor
        advanceSecondary stride cursor (min common next)

/-- `flush_group`. -/
def flushGroup (builder : ColaIndexBuilder P) : Result (ColaIndexBuilder P) := do
  let main ← (builder.ranks .main).append P (builder.population .main) builder.width
  let secondary ←
    (builder.ranks .secondary).append P (builder.population .secondary) builder.width
  .ok { builder with
    ranks := fun
      | .main => main
      | .secondary => secondary
    population := fun _ => 0
    width := 0 }

/-- Record a borrow with what it shares with the preceding borrow of its route. -/
def borrow (builder : ColaIndexBuilder P) (route : ColaTarget) (key : BitString) :
    Result (ColaIndexBuilder P) := do
  let common := if builder.borrowedCount route ≠ 0 then builder.cutCommon route else 0
  let frames ← appendKnown P (builder.borrowed route) key common
  .ok { builder with
    borrowed := Function.update builder.borrowed route frames
    flags := Function.update builder.flags route
      (builder.flags route ++ [builder.nativeEqual])
    borrowedCount := Function.update builder.borrowedCount route
      (builder.borrowedCount route + 1)
    population := Function.update builder.population route (builder.population route + 1)
    cutCommon := Function.update builder.cutCommon route key.length }

/-- Record an occurrence in the borrowed array of its origin, if it has one. -/
def record (builder : ColaIndexBuilder P) (origin : ColaOrigin) (key : BitString) :
    Result (ColaIndexBuilder P) :=
  match origin with
  | .native => .ok builder
  | .main => builder.borrow .main key
  | .secondary => builder.borrow .secondary key

/-- Flush a full group. -/
def closeGroup (builder : ColaIndexBuilder P) : Result (ColaIndexBuilder P) :=
  if builder.width = P.groupSize then builder.flushGroup else .ok builder

/-- Advance the source of the occurrence which was taken. -/
def advanceSource (builder : ColaIndexBuilder P) (origin : ColaOrigin) (key : BitString) :
    Result (ColaIndexBuilder P) :=
  match origin with
  | .native => do
      let cursor ← demand builder.nativeCursor "bad optional access"
      let (cursor, next) ← advanceNative P cursor
      .ok { builder with
        nativeCursor := some cursor
        prefixes := Function.update builder.prefixes .native next }
  | .main => do
      let cursor ← demand builder.primaryCursor "bad optional access"
      let (cursor, next) ← cursor.advanceComparison P
      .ok { builder with
        primaryCursor := some cursor
        prefixes := Function.update builder.prefixes .main
          ((next.map BitComparison.commonBits).getD 0) }
  | .secondary => do
      let cursor ← demand builder.secondaryCursor "bad optional access"
      let (cursor, next) ← advanceSecondary P P.groupSize cursor key.length
      .ok { builder with
        secondaryCursor := some cursor
        prefixes := Function.update builder.prefixes .secondary next }

/-- Account for the next occurrence: prefixes to the last borrows, cuts and equality. -/
def account (builder : ColaIndexBuilder P) (origin : ColaOrigin) (key : BitString) (equal : Bool) :
    ColaIndexBuilder P :=
  let cutCommon := fun route =>
    if builder.borrowedCount route ≠ 0 then
      min (builder.cutCommon route) (builder.prefixes origin)
    else builder.cutCommon route
  { builder with
    cutCommon
    cuts := fun route =>
      if builder.width = 0 then
        builder.cuts route ++ [if builder.borrowedCount route ≠ 0 then cutCommon route else 0]
      else builder.cuts route
    nativeEqual := origin = .native || (equal && builder.nativeEqual)
    previousLength := key.length }

/-- One iteration of `step`: take the least head. -/
def mergeOne (builder : ColaIndexBuilder P) : Result (ColaIndexBuilder P) := do
  let heads ← builder.heads
  let selected ← chooseFrontier builder.prefixes heads
  let origin := selected.origin
  let key := selected.key
  let equal : Bool := builder.count ≠ 0 ∧ builder.prefixes origin = builder.previousLength ∧
    key.length = builder.previousLength
  require (¬ (origin = .native ∧ equal = true)) "COLA sources violate sorted native order"
  let recorded ← (builder.account origin key equal).record origin key
  let advanced ← { recorded with prefixes := selected.common }.advanceSource origin key
  { advanced with count := advanced.count + 1, width := advanced.width + 1 }.closeGroup

/-- `step_terminal`: count native occurrences without reading them. -/
def stepTerminal : Nat → ColaIndexBuilder P → Nat → Result (ColaIndexBuilder P × Nat)
  | 0, builder, _ => .ok (builder, 0)
  | fuel + 1, builder, budget =>
      if budget = 0 ∨ builder.native.value.size ≤ builder.count then .ok (builder, 0)
      else do
        let cuts := fun route =>
          if builder.width = 0 then builder.cuts route ++ [0] else builder.cuts route
        let chunk := min budget (min (builder.native.value.size - builder.count)
          (P.groupSize - builder.width))
        let flushed ← { builder with
          cuts, count := builder.count + chunk, width := builder.width + chunk }.closeGroup
        let (builder, consumed) ← stepTerminal fuel flushed (budget - chunk)
        .ok (builder, chunk + consumed)

/-- The loop of `step` with targets. -/
def stepMerge : Nat → ColaIndexBuilder P → Result (ColaIndexBuilder P × Nat)
  | 0, builder => .ok (builder, 0)
  | budget + 1, builder =>
      if builder.done then .ok (builder, 0)
      else do
        let merged ← builder.mergeOne
        let (builder, consumed) ← stepMerge budget merged
        .ok (builder, consumed + 1)

/-- `step`: consume at most `budget` occurrences and report how many. -/
def step (builder : ColaIndexBuilder P) (budget : Nat) : Result (ColaIndexBuilder P × Nat) :=
  if builder.finished then .error "COLA builder is no longer active"
  else if builder.nativeCursor.isNone then stepTerminal (budget + 1) builder budget
  else stepMerge budget builder

/-- Flush a group which is still open at the end. -/
def closeLast (builder : ColaIndexBuilder P) : Result (ColaIndexBuilder P) :=
  if builder.width ≠ 0 then builder.flushGroup else .ok builder

/-- `finish`: close the last group and adopt what was built. -/
def finish (builder : ColaIndexBuilder P) : Result (ColaIndexBuilder P × ColaIndex P) :=
  if builder.finished then .error "COLA builder is no longer active"
  else if ! builder.done then .error "COLA builder has remaining input"
  else do
    let builder ← builder.closeLast
    .ok ({ builder with finished := true }, {
      native := builder.native
      secondary := builder.secondary
      borrowed := builder.borrowed
      ranks := builder.ranks
      flags := builder.flags
      cuts := builder.cuts
      count := builder.count })

/-- The loop of `adopt_native`; every step consumes an occurrence. -/
def runToEnd : Nat → ColaIndexBuilder P → Result (ColaIndexBuilder P)
  | 0, builder => .ok builder
  | fuel + 1, builder =>
      if builder.done then .ok builder
      else do
        let (builder, _) ← builder.step 4096
        runToEnd fuel builder

end ColaIndexBuilder

/-- `adopt_native`: build the index of a node at once. -/
def adoptNative {P : StoragePolicy} (native : Shared (NativeArray P)) (main : MainPointer P)
    (secondary : Option (Shared (NativeArray P))) : Result (ColaIndex P) := do
  let builder ← ColaIndexBuilder.start native main secondary
  let builder ← builder.runToEnd
    (native.value.size + main.groupCount + secondaryCount P secondary + 1)
  let (_, index) ← builder.finish
  .ok index

end Everett

import Everett.Catalog.Values

/-!
# Tables of the catalog

Rows are only ever inserted, apart from the seal of a reserved object.  An insertion checks the
constraints of its table: keys, references and counts.
-/

namespace Everett.Catalog

open Outcome

/-! ## Rows -/

/-- `owners.kind`. -/
inductive OwnerKind
  | attempt
  | save
  | reader
  | timeline
  deriving DecidableEq, Repr

/-- `object_sync_barrier`. -/
inductive SyncBarrier
  | fsync
  | appleFullFsync
  deriving DecidableEq, Repr

/-- The seal of an object: `bytes`, `crc` and `barrier`. -/
structure Seal where
  bytes : UInt64
  crc : UInt32
  barrier : SyncBarrier
  deriving DecidableEq

/-- A row of `objects`. -/
structure ObjectRow where
  id : ObjectId
  kind : FileKind
  attempt : ObjectId
  sealed : Option Seal
  deriving DecidableEq

/-- `pairs.layout`. -/
inductive Layout
  | linear
  | cola
  deriving DecidableEq, Repr

/-- A row of `pairs`. -/
structure PairRow where
  id : BlobIdentity
  target : Option BlobIdentity
  nativeCount : Nat
  borrowedCount : Nat
  virtualCount : Nat
  layout : Layout
  secondary : Option ObjectId
  secondaryNativeCount : Nat
  secondaryBorrowedCount : Nat
  deriving DecidableEq

/-- A row of `timelines`. -/
structure TimelineRow where
  name : Text
  source : Option (Text × UInt64)
  deriving DecidableEq

/-- A row of `session_checkpoints`. -/
structure CheckpointRow where
  name : Text
  generation : UInt64
  checkpoint : Text
  deriving DecidableEq

/-- A row of `session_saves`. -/
structure SessionSaveRow where
  name : Text
  sessionName : Text
  generation : UInt64
  deriving DecidableEq

/-- A row of `completed_native_merges`. -/
structure MergeRow where
  domain : List UInt8
  older : ObjectId
  newer : ObjectId
  output : ObjectId
  owner : Text
  deriving DecidableEq

/-- `private_scopes`, `private_attempts` and `released_private_scopes`. -/
structure PrivateScopes where
  scopes : List ObjectId
  attempts : List (ObjectId × ObjectId)
  released : List ObjectId

/-- The tables of a catalog, each in the order of insertion.  Rows of `timeline_generations` are
heads. -/
structure Tables where
  owners : List (OwnerKind × Text)
  attempts : List (ObjectId × Text)
  objects : List ObjectRow
  pairs : List PairRow
  ownerObjects : List (OwnerKind × Text × ObjectId)
  ownerRoots : List (OwnerKind × Text × BlobIdentity)
  saves : List (Text × BlobIdentity)
  timelines : List TimelineRow
  generations : List TimelineHead
  checkpoints : List CheckpointRow
  sessionSaves : List SessionSaveRow
  nativeMerges : Option (List MergeRow)
  privateScopes : Option PrivateScopes

/-- A catalog which was just created. -/
def Tables.empty : Tables := ⟨[], [], [], [], [], [], [], [], [], [], [], none, none⟩

/-! ## Constraints -/

/-- A constraint which a statement violates, as its extended result code. -/
inductive Constraint
  | check
  | foreignKey
  | primaryKey
  | unique
  deriving DecidableEq, Repr

/-- `SQLITE_CONSTRAINT_CHECK`, `_FOREIGNKEY`, `_PRIMARYKEY` and `_UNIQUE`. -/
def Constraint.code : Constraint → Nat
  | .check => 275
  | .foreignKey => 787
  | .primaryKey => 1555
  | .unique => 2067

/-- Fail by a constraint unless the condition holds. -/
def constrain (condition : Prop) [Decidable condition] (constraint : Constraint) : Answer Unit :=
  require condition (.catalog "constraint failed" constraint.code false)

/-- `integer`: a count which a column holds. -/
def integer (value : UInt64) : Answer Nat := do
  require (value.toNat ≤ 2 ^ 63 - 1)
    (.exception "Everett catalog count exceeds SQLite integer range")
  .ok value.toNat

namespace Tables

variable (t : Tables)

/-- The row of an object. -/
def objectRow (id : ObjectId) : Option ObjectRow := t.objects.find? (·.id = id)

/-- The row of the pair of an index. -/
def pairRow (index : ObjectId) : Option PairRow := t.pairs.find? (·.id.index = index)

/-- Whether a pair is registered. -/
def Registered (id : BlobIdentity) : Prop := id ∈ t.pairs.map PairRow.id

instance (id : BlobIdentity) : Decidable (t.Registered id) :=
  inferInstanceAs (Decidable (_ ∈ _))

/-! ## Insertions -/

/-- `add_owner`. -/
def addOwner (kind : OwnerKind) (owner : Text) : Answer Tables := do
  constrain ((kind, owner) ∉ t.owners) .primaryKey
  .ok { t with owners := t.owners ++ [(kind, owner)] }

/-- `add_root`. -/
def addRoot (kind : OwnerKind) (owner : Text) (root : BlobIdentity) : Answer Tables := do
  constrain ((kind, owner, root) ∉ t.ownerRoots) .primaryKey
  constrain ((kind, owner) ∈ t.owners ∧ t.Registered root) .foreignKey
  .ok { t with ownerRoots := t.ownerRoots ++ [(kind, owner, root)] }

/-- `INSERT INTO owner_objects`. -/
def addObject (kind : OwnerKind) (owner : Text) (object : ObjectId) : Answer Tables := do
  constrain ((kind, owner, object) ∉ t.ownerObjects) .primaryKey
  constrain ((kind, owner) ∈ t.owners ∧ object ∈ t.objects.map ObjectRow.id) .foreignKey
  .ok { t with ownerObjects := t.ownerObjects ++ [(kind, owner, object)] }

/-- `INSERT INTO attempts`. -/
def insertAttempt (attempt : ObjectId) (owner : Text) : Answer Tables := do
  constrain (attempt ∉ t.attempts.map Prod.fst) .primaryKey
  constrain (owner ∉ t.attempts.map Prod.snd) .unique
  .ok { t with attempts := t.attempts ++ [(attempt, owner)] }

/-- `INSERT INTO objects`. -/
def insertObject (id : ObjectId) (kind : FileKind) (attempt : ObjectId) : Answer Tables := do
  constrain (id ∉ t.objects.map ObjectRow.id) .primaryKey
  constrain (attempt ∈ t.attempts.map Prod.fst) .foreignKey
  .ok { t with objects := t.objects ++ [⟨id, kind, attempt, none⟩] }

/-- `INSERT INTO pairs`. -/
def insertPair (row : PairRow) : Answer Tables := do
  constrain (row.id.index ∉ t.pairs.map fun old => old.id.index) .primaryKey
  constrain (row.id.index ∈ t.objects.map ObjectRow.id ∧ row.id.native ∈ t.objects.map ObjectRow.id ∧
    (∀ target ∈ row.target, t.Registered target) ∧
    ∀ secondary ∈ row.secondary, secondary ∈ t.objects.map ObjectRow.id) .foreignKey
  constrain (row.nativeCount ≤ row.virtualCount ∧
    row.secondaryBorrowedCount ≤ row.virtualCount - row.nativeCount ∧
    row.borrowedCount = row.virtualCount - row.nativeCount - row.secondaryBorrowedCount) .check
  constrain (row.secondary.isSome ∨
    (row.secondaryNativeCount = 0 ∧ row.secondaryBorrowedCount = 0)) .check
  constrain (row.layout = .cola ∨ (row.secondary = none ∧ row.secondaryNativeCount = 0 ∧
    row.secondaryBorrowedCount = 0)) .check
  .ok { t with pairs := t.pairs ++ [row] }

/-- `INSERT INTO saves`. -/
def insertSave (name : Text) (head : BlobIdentity) : Answer Tables := do
  constrain (name ∉ t.saves.map Prod.fst) .primaryKey
  constrain (t.Registered head) .foreignKey
  .ok { t with saves := t.saves ++ [(name, head)] }

/-- `INSERT INTO timelines`. -/
def insertTimeline (name : Text) (source : Option (Text × UInt64)) : Answer Tables := do
  constrain (name ∉ t.timelines.map TimelineRow.name) .primaryKey
  constrain (∀ origin ∈ source, origin ∈ t.generations.map fun row => (row.name, row.generation))
    .foreignKey
  .ok { t with timelines := t.timelines ++ [⟨name, source⟩] }

/-- `INSERT INTO timeline_generations`. -/
def insertGeneration (row : TimelineHead) : Answer Tables := do
  constrain ((row.name, row.generation) ∉
    t.generations.map fun old => (old.name, old.generation)) .primaryKey
  constrain (row.name ∈ t.timelines.map TimelineRow.name ∧
    (OwnerKind.timeline, row.owner, row.head) ∈ t.ownerRoots) .foreignKey
  constrain (row.owner ∉ t.generations.map TimelineHead.owner) .unique
  .ok { t with generations := t.generations ++ [row] }

/-- `INSERT INTO session_checkpoints`. -/
def insertCheckpoint (row : CheckpointRow) : Answer Tables := do
  constrain ((row.name, row.generation) ∉
    t.checkpoints.map fun old => (old.name, old.generation)) .primaryKey
  constrain ((row.name, row.generation) ∈
    t.generations.map fun old => (old.name, old.generation)) .foreignKey
  .ok { t with checkpoints := t.checkpoints ++ [row] }

/-- `INSERT INTO session_saves`. -/
def insertSessionSave (row : SessionSaveRow) : Answer Tables := do
  constrain (row.name ∉ t.sessionSaves.map SessionSaveRow.name) .primaryKey
  constrain (row.name ∈ t.saves.map Prod.fst ∧ (row.sessionName, row.generation) ∈
    t.checkpoints.map fun old => (old.name, old.generation)) .foreignKey
  .ok { t with sessionSaves := t.sessionSaves ++ [row] }

/-- `INSERT INTO completed_native_merges`, of a table with these rows. -/
def insertMerge (rows : List MergeRow) (row : MergeRow) : Answer Tables := do
  constrain ((row.domain, row.older, row.newer) ∉
    rows.map fun old => (old.domain, old.older, old.newer)) .primaryKey
  constrain (row.older ∈ t.objects.map ObjectRow.id ∧ row.newer ∈ t.objects.map ObjectRow.id ∧
    row.output ∈ t.objects.map ObjectRow.id ∧
    (OwnerKind.reader, row.owner, row.output) ∈ t.ownerObjects) .foreignKey
  constrain (row.owner ∉ rows.map MergeRow.owner) .unique
  .ok { t with nativeMerges := some (rows ++ [row]) }

end Tables

end Everett.Catalog

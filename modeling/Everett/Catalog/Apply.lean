import Everett.Catalog.Action

/-!
# What the transactions do

The apply step of every transaction: what it reads, which rows it inserts, and the outcome which
the journal keeps.
-/

namespace Everett.Catalog

open Outcome

/-! ## Reading the tables -/

namespace Tables

variable (t : Tables)

/-- `timeline_at` of a generation. -/
def timelineAt (name : Text) (generation : UInt64) : Option TimelineHead :=
  t.generations.find? fun row => row.name = name ∧ row.generation = generation

/-- `timeline_at` of the last generation. -/
def lastTimeline (name : Text) : Option TimelineHead :=
  (t.generations.filter (·.name = name)).argmax fun row => row.generation.toNat

/-- `checkpoint_at`. -/
def checkpointAt (name : Text) (generation : UInt64) : Option Text :=
  (t.checkpoints.find? fun row => row.name = name ∧ row.generation = generation).map
    CheckpointRow.checkpoint

/-- The roots of an owner. -/
def rootsOf (kind : OwnerKind) (owner : Text) : List BlobIdentity :=
  t.ownerRoots.filterMap fun row => if row.1 = kind ∧ row.2.1 = owner then some row.2.2 else none

/-- The objects of an owner. -/
def objectsOf (kind : OwnerKind) (owner : Text) : List ObjectId :=
  t.ownerObjects.filterMap fun row => if row.1 = kind ∧ row.2.1 = owner then some row.2.2 else none

/-- A list which fits into memory. -/
def sized {α : Type} (items : List α) : Answer (Sized α) :=
  if fits : items.length < 2 ^ 64 then .ok ⟨items, fits⟩
  else .error (.exception "std::length_error")

/-- `auxiliary_at`. -/
def auxiliaryAt (head : TimelineHead) : Answer Auxiliary := do
  let pairs ← sized (((t.rootsOf .timeline head.owner).mergeSort fun a b => decide (a ≤ b)).filter
    (· ≠ head.head))
  let natives ← sized ((t.objectsOf .timeline head.owner).mergeSort fun a b => decide (a ≤ b))
  .ok ⟨pairs, natives⟩

/-- `attach_checkpoint`. -/
def attachCheckpoint (head : TimelineHead) : Answer SessionHead := do
  let checkpoint ← demand (t.checkpointAt head.name head.generation)
    (.exception "timeline is not a named Everett session")
  let roots ← t.auxiliaryAt head
  .ok ⟨head, checkpoint, roots⟩

/-- `native_merge_output`. -/
def nativeMergeOutput (domain : List UInt8) (older newer : ObjectId) : Option ObjectId := do
  let rows ← t.nativeMerges
  let row ← rows.find? fun row => row.domain = domain ∧ row.older = older ∧ row.newer = newer
  some row.output

/-- `find_save`. -/
def findSave (name : Text) : Option BlobIdentity :=
  (t.saves.find? (·.1 = name)).map Prod.snd

/-- `require_prepared`, with the text of its caller. -/
def requirePrepared (P : StoragePolicy) (head : BlobIdentity) (message : String) : Answer Unit := do
  let row ← demand (t.pairs.find? (·.id = head)) (.exception message)
  demands (row.virtualCount ≤ P.groupSize) message

end Tables

/-- The text of `require_prepared`. -/
def preparedText : String := "timeline requires a registered prepared head"

/-! ## Writing the tables -/

namespace Tables

variable (t : Tables)

/-- The owner of a generation: its name and number. -/
def generationOwner (name : Text) (generation : UInt64) : List UInt8 :=
  field name ++ number generation

/-- `add_generation`. -/
def addGeneration (name : Text) (generation : UInt64) (head : BlobIdentity) :
    Answer (Tables × TimelineHead) := do
  let owner ← sized (generationOwner name generation)
  let owned ← t.addOwner .timeline owner
  let rooted ← owned.addRoot .timeline owner head
  let _ ← integer generation
  let row : TimelineHead := ⟨name, generation, head, owner⟩
  let result ← rooted.insertGeneration row
  .ok (result, row)

/-- Add some roots of an owner. -/
def addRoots (kind : OwnerKind) (owner : Text) : List BlobIdentity → Tables → Answer Tables
  | [], t => .ok t
  | root :: rest, t => do
      let rooted ← t.addRoot kind owner root
      addRoots kind owner rest rooted

/-- Pin some sealed natives for an owner. -/
def addNatives (C : Context) (disk : Disk) (kind : OwnerKind) (owner : Text) :
    List ObjectId → Tables → Answer Tables
  | [], t => .ok t
  | native :: rest, t => do
      requireSealed C disk t native .nativeBlob none
      let pinned ← t.addObject kind owner native
      addNatives C disk kind owner rest pinned

/-- `add_auxiliary`. -/
def addAuxiliary (C : Context) (disk : Disk) (kind : OwnerKind) (owner : Text)
    (value : Auxiliary) : Answer Tables := do
  let rooted ← addRoots kind owner value.pairs.items t
  addNatives C disk kind owner value.natives.items rooted

/-- `add_session_generation`. -/
def addSessionGeneration (C : Context) (disk : Disk) (name : Text) (generation : UInt64)
    (head : BlobIdentity) (checkpoint : Text) (value : Auxiliary) :
    Answer (Tables × SessionHead) := do
  let (grown, row) ← t.addGeneration name generation head
  let pinned ← grown.addAuxiliary C disk .timeline row.owner value
  let _ ← integer generation
  let result ← pinned.insertCheckpoint ⟨name, generation, checkpoint⟩
  .ok (result, ⟨row, checkpoint, value⟩)

/-- `add_native_pin`. -/
def addNativePin (owner : Text) (native : ObjectId) : Answer Tables := do
  let owned ← t.addOwner .reader owner
  owned.addObject .reader owner native

/-- `write_seal`. -/
def writeSeal (receipt : Receipt) : Answer Tables := do
  let bytes ← integer receipt.bytes
  constrain (96 ≤ bytes) .check
  .ok { t with objects := t.objects.map fun row =>
    if row.id = receipt.object then
      { row with sealed := some ⟨receipt.bytes, receipt.bodyCrc32c, receipt.barrier⟩ }
    else row }

/-- The unsealed reservation of a receipt. -/
def reservationOf (receipt : Receipt) : Answer ObjectRow := do
  let row ← demand (t.objectRow receipt.object)
    (.exception "object is not this attempt's unsealed reservation")
  demands (row.attempt = receipt.attempt ∧ row.sealed = none)
    "object is not this attempt's unsealed reservation"
  .ok row

/-- The bytes of a reserved object: pinned by the call, or opened. -/
def evidenceBytes (disk : Disk) (id : ObjectId) (kind : FileKind) :
    Option (List UInt8) → Answer (List UInt8)
  | some bytes => .ok bytes
  | none => openObjectBytes disk id kind

/-- `record_sealed_row`. -/
def recordSealedRow (C : Context) (disk : Disk) (receipt : Receipt)
    (evidence : Option (List UInt8)) : Answer Tables := do
  let row ← t.reservationOf receipt
  demands (receipt.path = pathText receipt.object row.kind)
    "seal receipt names another catalog path"
  let bytes ← evidenceBytes disk receipt.object row.kind evidence
  checkObjectEnvelope C row.kind receipt.bytes receipt.bodyCrc32c bytes
  t.writeSeal receipt

/-- `record_prepared_seal`. -/
def recordPreparedSeal (receipt : Receipt) (expected : FileKind) : Answer Tables := do
  let row ← t.reservationOf receipt
  demands (row.kind = expected) "object is not this attempt's unsealed reservation"
  t.writeSeal receipt

/-- The row of a pair of a linear chain. -/
def linearRow (entry : LinearEntry) (target : Option BlobIdentity) : Answer PairRow := do
  let native ← integer entry.nativeCount
  let borrowed ← integer entry.borrowedCount
  let virtualCount ← integer entry.virtualCount
  .ok ⟨entry.id, target, native, borrowed, virtualCount, .linear, none, 0, 0⟩

/-- The row of a descriptor. -/
def colaRow (value : Descriptor) : Answer PairRow := do
  let native ← integer value.nativeCount
  let main ← integer value.mainSamples
  let virtualCount ← integer value.virtualCount
  let secondary ← integer value.secondaryCount
  let secondaryMain ← integer value.secondarySamples
  .ok ⟨value.id, value.main, native, main, virtualCount, .cola, value.secondary, secondary,
    secondaryMain⟩

/-- Insert the row of a pair unless the same row is there. -/
def intern (row : PairRow) (message : String) : Answer Tables :=
  match t.pairRow row.id.index with
  | some old => do
      demands (old = row) message
      .ok t
  | none => t.insertPair row

/-- `insert_cola_row`. -/
def insertColaRow (value : Descriptor) : Answer Tables := do
  let row ← colaRow value
  t.intern row "registered COLA index identity already has different contents"

/-- A secondary native has to be sealed. -/
def requireSecondary (C : Context) (disk : Disk) : Option ObjectId → Answer Unit
  | none => .ok ()
  | some id => requireSealed C disk t id .nativeBlob none

/-- `register_cola_row`. -/
def registerColaRow (C : Context) (disk : Disk) (value : Descriptor) : Answer Tables := do
  requireSealed C disk t value.id.native .nativeBlob none
  requireSealed C disk t value.id.index .fractionalIndex none
  t.requireSecondary C disk value.secondary
  t.insertColaRow value

/-- Register the pairs of a graph, targets first. -/
def registerRows (C : Context) (disk : Disk) : List Descriptor → Tables → Answer Tables
  | [], t => .ok t
  | value :: rest, t => do
      let grown ← t.registerColaRow C disk value
      registerRows C disk rest grown

/-- One pair of `register_chain`. -/
def registerLinearRow (C : Context) (disk : Disk) (entry : LinearEntry)
    (target : Option BlobIdentity) : Answer Tables := do
  requireSealed C disk t entry.id.native .nativeBlob none
  requireSealed C disk t entry.id.index .fractionalIndex none
  let row ← linearRow entry target
  t.intern row "registered index identity already has different contents"

/-- The pairs of `register_chain`, from the end of the chain. -/
def registerLinearRows (C : Context) (disk : Disk) : List LinearEntry → Tables → Answer Tables
  | [], t => .ok t
  | entry :: rest, t => do
      let grown ← registerLinearRows C disk rest t
      grown.registerLinearRow C disk entry (rest.head?.map LinearEntry.id)

end Tables

/-! ## Private scopes -/

/-- `require_private_scope`. -/
def requirePrivateScope (t : Tables) (id : ObjectId) : Answer Unit := do
  let tables ← demand t.privateScopes (.exception "incompatible Everett catalog schema definition")
  demands (id ∈ tables.scopes ∧ id ∉ tables.released) "inactive private construction scope"

/-- `ensure_private_scopes`. -/
def ensurePrivateScopes (t : Tables) : PrivateScopes := t.privateScopes.getD ⟨[], [], []⟩

/-- The scope of an attempt, if it has one. -/
def enterScope (t : Tables) (attempt : ObjectId) : Option ObjectId → Answer Tables
  | none => .ok t
  | some id => do
      let tables ← demand t.privateScopes
        (.exception "incompatible Everett catalog schema definition")
      constrain (attempt ∉ tables.attempts.map Prod.fst) .primaryKey
      constrain (attempt ∈ t.attempts.map Prod.fst ∧ id ∈ tables.scopes) .foreignKey
      .ok { t with
        privateScopes := some { tables with attempts := tables.attempts ++ [(attempt, id)] } }

/-- Whether the scope of a reservation is active. -/
def requireScope (t : Tables) : Option ObjectId → Answer Unit
  | none => .ok ()
  | some id => requirePrivateScope t id

/-- Whether an owner is that of an attempt whose scope is released. -/
def Tables.hidden (t : Tables) (owner : Text) : Bool :=
  t.attempts.any fun job => job.2 = owner ∧
    (ensurePrivateScopes t).attempts.any fun inside => inside.1 = job.1 ∧
      inside.2 ∈ (ensurePrivateScopes t).released

/-- `live_owner_objects`. -/
def Tables.liveOwnerObjects (t : Tables) : List (OwnerKind × Text × ObjectId) :=
  t.ownerObjects.filter fun row => row.1 ≠ .attempt ∨ t.hidden row.2.1 = false

/-- `live_owner_roots`. -/
def Tables.liveOwnerRoots (t : Tables) : List (OwnerKind × Text × BlobIdentity) :=
  t.ownerRoots.filter fun row => row.1 ≠ .attempt ∨ t.hidden row.2.1 = false

/-! ## What the transactions do -/

/-- Reserve some objects for an attempt. -/
def reserveObjects (attempt : ObjectId) (owner : Text) : List Reservation → Tables → Answer Tables
  | [], t => .ok t
  | output :: rest, t => do
      let reserved ← t.insertObject output.object output.kind attempt
      let pinned ← reserved.addObject .attempt owner output.object
      reserveObjects attempt owner rest pinned

/-- The transaction of `reserve`. -/
def applyReserve (t : Tables) (attempt : ObjectId) (owner : Text) (inputs : List BlobIdentity)
    (outputs : List Reservation) (scope : Option ObjectId) : Answer Tables := do
  requireScope t scope
  let owned ← t.addOwner .attempt owner
  let job ← owned.insertAttempt attempt owner
  let entered ← enterScope job attempt scope
  let rooted ← Tables.addRoots .attempt owner inputs entered
  reserveObjects attempt owner outputs rooted

/-- The transaction of `record_native_merge`. -/
def applyRememberMerge (C : Context) (disk : Disk) (t : Tables) (domain : Text)
    (older newer : ObjectId) (receipt : Receipt) (owner : Text) :
    Answer (Tables × ObjectId) := do
  verifySealed C disk t receipt .nativeBlob
  requireSealed C disk t older .nativeBlob none
  requireSealed C disk t newer .nativeBlob none
  let rows := t.nativeMerges.getD []
  match Tables.nativeMergeOutput { t with nativeMerges := some rows } domain.items older newer with
  | some old => do
      requireSealed C disk t old .nativeBlob none
      .ok ({ t with nativeMerges := some rows }, old)
  | none => do
      let pinned ← t.addNativePin owner receipt.object
      let result ← pinned.insertMerge rows ⟨domain.items, older, newer, receipt.object, owner⟩
      .ok (result, receipt.object)

/-- The transaction of `acquire_native_merge`. -/
def applyAcquireMerge (C : Context) (disk : Disk) (t : Tables) (domain : Text)
    (older newer : ObjectId) (owner : Text) : Answer (Tables × ObjectId) := do
  let output ← demand (t.nativeMergeOutput domain.items older newer)
    (.exception "completed native merge disappeared")
  requireSealed C disk t output .nativeBlob none
  let pinned ← t.addNativePin owner output
  .ok (pinned, output)

/-- The transaction of `save`. -/
def applySave (C : Context) (t : Tables) (name : Text) (head : BlobIdentity) : Answer Tables := do
  t.requirePrepared C.policy head "save requires a registered prepared head"
  let owned ← t.addOwner .save name
  let rooted ← owned.addRoot .save name head
  rooted.insertSave name head

/-- The transaction of `acquire_save`. -/
def applyAcquireSave (t : Tables) (name reader : Text) : Answer (Tables × BlobIdentity) := do
  let head ← demand (t.findSave name) (.exception "unknown Everett save")
  let owned ← t.addOwner .reader reader
  let rooted ← owned.addRoot .reader reader head
  .ok (rooted, head)

/-- The transaction of `create_timeline`. -/
def applyCreateTimeline (C : Context) (t : Tables) (name : Text) (head : BlobIdentity) :
    Answer (Tables × TimelineHead) := do
  t.requirePrepared C.policy head preparedText
  let named ← t.insertTimeline name none
  named.addGeneration name 0 head

/-- The transaction of `fork_timeline`. -/
def applyForkTimeline (C : Context) (t : Tables) (name : Text) (source : TimelineHead) :
    Answer (Tables × TimelineHead) := do
  let _ ← integer source.generation
  demands (t.timelineAt source.name source.generation = some source)
    "fork source is not this exact timeline generation"
  t.requirePrepared C.policy source.head preparedText
  let named ← t.insertTimeline name (some (source.name, source.generation))
  named.addGeneration name 0 source.head

/-- The transaction of `publish_timeline`: whether it published, and the head it leaves. -/
def applyPublishTimeline (C : Context) (t : Tables) (expected : TimelineHead)
    (candidate : BlobIdentity) : Answer (Tables × Bool × TimelineHead) := do
  let current ← demand (t.lastTimeline expected.name) (.exception "unknown Everett timeline")
  demands (¬ (4 ≤ C.version ∧ (t.checkpointAt current.name current.generation).isSome))
    "publish a named session together with its checkpoint"
  if current = expected then do
    t.requirePrepared C.policy candidate preparedText
    demands (expected.generation.toNat ≠ 2 ^ 63 - 1) "Everett timeline generation exhausted"
    let (grown, row) ← t.addGeneration expected.name (expected.generation + 1) candidate
    .ok (grown, true, row)
  else .ok (t, false, current)

/-- The transaction of `create_session`. -/
def applyCreateSession (C : Context) (disk : Disk) (t : Tables) (name : Text) (head : BlobIdentity)
    (checkpoint : Text) (roots : Auxiliary) : Answer (Tables × SessionHead) := do
  t.requirePrepared C.policy head preparedText
  let named ← t.insertTimeline name none
  named.addSessionGeneration C disk name 0 head checkpoint roots

/-- The transaction of `publish_session`: whether it published, and the head it leaves. -/
def applyPublishSession (C : Context) (disk : Disk) (t : Tables) (expected : SessionHead)
    (candidate : BlobIdentity) (checkpoint : Text) (roots : Auxiliary) :
    Answer (Tables × Bool × SessionHead) := do
  let found ← demand (t.lastTimeline expected.timeline.name) (.exception "unknown Everett session")
  let current ← t.attachCheckpoint found
  if current = expected then do
    t.requirePrepared C.policy candidate preparedText
    demands (current.timeline.generation.toNat ≠ 2 ^ 63 - 1) "Everett session generation exhausted"
    let (grown, row) ← t.addSessionGeneration C disk current.timeline.name
      (current.timeline.generation + 1) candidate checkpoint roots
    .ok (grown, true, row)
  else .ok (t, false, current)

/-- The exact session generation which a head names. -/
def exactSession (t : Tables) (source : SessionHead) (message : String) : Answer Unit := do
  let _ ← integer source.timeline.generation
  let found ← demand (t.timelineAt source.timeline.name source.timeline.generation)
    (.exception message)
  let actual ← t.attachCheckpoint found
  demands (actual = source) message

/-- The transaction of `fork_session`. -/
def applyForkSession (C : Context) (disk : Disk) (t : Tables) (name : Text) (source : SessionHead) :
    Answer (Tables × SessionHead) := do
  exactSession t source "fork source is not this exact session generation"
  t.requirePrepared C.policy source.timeline.head preparedText
  let named ← t.insertTimeline name (some (source.timeline.name, source.timeline.generation))
  named.addSessionGeneration C disk name 0 source.timeline.head source.checkpoint source.auxiliary

/-- The transaction of `save_session`. -/
def applySaveSession (C : Context) (disk : Disk) (t : Tables) (name : Text) (source : SessionHead) :
    Answer Tables := do
  exactSession t source "save source is not this exact session generation"
  let owned ← t.addOwner .save name
  let rooted ← owned.addRoot .save name source.timeline.head
  let pinned ← rooted.addAuxiliary C disk .save name source.auxiliary
  let saved ← pinned.insertSave name source.timeline.head
  saved.insertSessionSave ⟨name, source.timeline.name, source.timeline.generation⟩

/-- The transaction of `begin_private_scope`. -/
def applyPrivateBegin (t : Tables) (id : ObjectId) : Answer Tables := do
  let tables := ensurePrivateScopes t
  constrain (id ∉ tables.scopes) .primaryKey
  .ok { t with privateScopes := some { tables with scopes := tables.scopes ++ [id] } }

/-- The transaction of `release_private_scope`. -/
def applyPrivateRelease (t : Tables) (id : ObjectId) : Answer Tables := do
  let tables ← demand t.privateScopes (.exception "incompatible Everett catalog schema definition")
  demands (id ∈ tables.scopes) "unknown private construction scope"
  let released := if id ∈ tables.released then tables.released else tables.released ++ [id]
  .ok { t with privateScopes := some { tables with released := released } }

/-! ## Outcomes -/

/-- Only the tables change. -/
def silent (result : Answer Tables) : Answer (Tables × List UInt8) := do
  let t ← result
  .ok (t, [])

/-- The outcome is the encoding of what was found. -/
def encoded {α : Type} (encode : α → List UInt8) (result : Answer (Tables × α)) :
    Answer (Tables × List UInt8) := do
  let (t, value) ← result
  .ok (t, encode value)

/-- The outcome of a publication. -/
def publication {α : Type} (encode : α → List UInt8) (value : Bool × α) : List UInt8 :=
  flag value.1 ++ encode value.2

/-- An action with the file bytes which its call keeps mapped. -/
structure Work where
  action : Action
  pinned : List UInt8

/-- The apply step of a transaction. -/
def Work.apply (C : Context) (disk : Disk) (work : Work) (t : Tables) :
    Answer (Tables × List UInt8) :=
  match work.action with
  | .reserve attempt owner inputs outputs scope =>
      silent (applyReserve t attempt owner inputs.items outputs.items scope)
  | .seal receipt => silent (t.recordSealedRow C disk receipt none)
  | .rememberNativeMerge domain older newer receipt owner =>
      encoded identity (applyRememberMerge C disk t domain older newer receipt owner)
  | .acquireNativeMerge domain older newer owner =>
      encoded identity (applyAcquireMerge C disk t domain older newer owner)
  | .registerChain _ chain => do
      let grown ← Tables.registerLinearRows C disk chain t
      .ok (grown, (chain.head?.map fun entry => pair entry.id).getD [])
  | .registerColaGraphs _ roots chain => do
      let grown ← Tables.registerRows C disk chain t
      .ok (grown, LittleEndian.counted pair roots)
  | .registerColaPair descriptor => do
      let grown ← t.insertColaRow descriptor
      .ok (grown, pair descriptor.id)
  | .sealColaPair receipt descriptor => do
      let recorded ← t.recordSealedRow C disk receipt (some work.pinned)
      let grown ← recorded.insertColaRow descriptor
      .ok (grown, pair descriptor.id)
  | .sealNativeColaPair native index descriptor => do
      let recorded ← t.recordPreparedSeal native .nativeBlob
      let both ← recorded.recordPreparedSeal index .fractionalIndex
      let grown ← both.insertColaRow descriptor
      .ok (grown, pair descriptor.id)
  | .save name head => encoded pair do
      let saved ← applySave C t name head
      .ok (saved, head)
  | .acquireSave name reader => encoded pair (applyAcquireSave t name reader)
  | .createTimeline name head => encoded timeline (applyCreateTimeline C t name head)
  | .forkTimeline name source => encoded timeline (applyForkTimeline C t name source)
  | .publishTimeline expected candidate =>
      encoded (publication timeline) (applyPublishTimeline C t expected candidate)
  | .createSession name head checkpoint roots =>
      encoded session (applyCreateSession C disk t name head checkpoint roots)
  | .publishSession expected candidate checkpoint roots =>
      encoded (publication session)
        (applyPublishSession C disk t expected candidate checkpoint roots)
  | .forkSession name source => encoded session (applyForkSession C disk t name source)
  | .saveSession name source => silent (applySaveSession C disk t name source)
  | .privateBegin id => silent (applyPrivateBegin t id)
  | .privateRelease id => silent (applyPrivateRelease t id)

end Everett.Catalog

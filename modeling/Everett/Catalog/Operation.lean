import Everett.Catalog.Apply
import Everett.Catalog.Reader

/-!
# Operations of the catalog

A call checks its arguments, opens the files it needs, and reads what it has to before its
transaction starts.  After the transaction it takes its answer from the outcome, and some calls read
the tables once more.
-/

namespace Everett.Catalog

open Outcome

/-- `catalog_native_merge_kind`. -/
inductive NativeMergeKind
  | replacement
  | conservativeTombstones
  deriving DecidableEq, Repr

/-- `catalog_native_merge`. -/
structure NativeMerge where
  schema : Text
  older : ObjectId
  newer : ObjectId
  kind : NativeMergeKind
  deriving DecidableEq

/-- The calls of a catalog which write. -/
inductive Operation
  | reserve (attempt : ObjectId) (owner : Text) (inputs : Sized BlobIdentity)
      (outputs : Sized Reservation)
  | recordSealed (receipt : Receipt)
  | recordNativeMerge (key : NativeMerge) (receipt : Receipt) (owner : Text)
  | acquireNativeMerge (key : NativeMerge) (owner : Text)
  | registerChain (head : BlobIdentity) (admission : Admission)
  | registerGraphs (roots : Sized BlobIdentity) (admission : Admission)
  | registerPair (id : BlobIdentity)
  | sealPair (id : BlobIdentity) (receipt : Receipt)
  | sealNativePair (id : BlobIdentity) (native index : Receipt)
  | save (name : Text) (head : BlobIdentity)
  | acquireSave (name reader : Text)
  | createTimeline (name : Text) (head : BlobIdentity)
  | forkTimeline (name : Text) (source : TimelineHead)
  | publishTimeline (expected : TimelineHead) (candidate : BlobIdentity)
  | createSession (name : Text) (head : BlobIdentity) (checkpoint : Text) (auxiliary : Auxiliary)
  | publishSession (expected : SessionHead) (candidate : BlobIdentity) (checkpoint : Text)
      (auxiliary : Auxiliary)
  | forkSession (name : Text) (source : SessionHead)
  | saveSession (name : Text) (source : SessionHead)
  | beginPrivateScope (id : ObjectId)
  | releasePrivateScope (id : ObjectId)

/-- A row of `operations`. -/
structure Entry where
  id : Text
  kind : String
  request : List UInt8
  outcome : List UInt8
  deriving DecidableEq

/-- A catalog: its journal and its tables. -/
structure Database where
  journal : List Entry
  tables : Tables

/-- `lookup_operation`. -/
def Database.lookupOperation (c : Database) (id : Text) : Option Entry :=
  c.journal.find? (·.id = id)

/-- A call on its way to its transaction. -/
structure Call where
  id : Text
  work : Work

variable (C : Context) (disk : Disk)

/-! ## Domains of merges -/

/-- A string of the source. -/
def ascii (text : String) : List UInt8 := text.toList.map fun c => UInt8.ofNat c.toNat

/-- The kernel of a merge. -/
def kernel : NativeMergeKind → Text
  | .replacement => ⟨ascii "everett.KV03.right-biased-native-merge/1", by decide⟩
  | .conservativeTombstones => ⟨ascii "everett.KV03.conservative-tombstone-merge/1", by decide⟩

/-- `policy`. -/
def policyBytes (P : StoragePolicy) : List UInt8 :=
  [P.unitByte, P.groupSize, P.codecBlockSize, P.backspaceByte, P.backspaceParameter,
    if P.valueWidth.isSome then 1 else 0, P.valueWidth.getD 0].flatMap (LittleEndian.toBytes 8)

/-- The bytes of `native_merge_domain`. -/
def domainBytes (key : NativeMerge) : List UInt8 :=
  field (kernel key.kind) ++ (field key.schema ++ policyBytes C.policy)

/-- `native_merge_domain`. -/
def nativeMergeDomain (key : NativeMerge) : Answer Text := do
  name key.schema
  Tables.sized (domainBytes C key)

/-! ## Before the transaction -/

/-- `require_timelines`. -/
def requireTimelines : Answer Unit :=
  demands (2 ≤ C.version)
    "Everett timelines require catalog version 2 or later; no automatic migration"

/-- `require_sessions`. -/
def requireSessions : Answer Unit :=
  demands (4 ≤ C.version)
    "Everett named sessions require catalog version 4; no automatic migration"

/-- `validate_timeline`. -/
def validateTimeline (value : TimelineHead) : Answer Unit := do
  name value.name
  name value.owner
  let _ ← integer value.generation
  .ok ()

/-- The explicit scan of an admission. -/
def scanned (admission : Admission) (scan : Answer Unit) : Answer Unit :=
  match admission with
  | .trusted => .ok ()
  | .scan => scan

/-- Roots in the order of their indices. -/
def sortedRoots (roots : List BlobIdentity) : List BlobIdentity :=
  roots.mergeSort fun a b => decide (a.index ≤ b.index)

/-- Roots of one index name one native. -/
def conflicting (roots : List BlobIdentity) : Bool :=
  (roots.zip roots.tail).any fun two => two.1.index = two.2.index ∧ two.1.native ≠ two.2.native

/-- The pairs of a chain up to the first which was seen, and all which are seen then. -/
def fresh : List ObjectId → List Descriptor → List Descriptor × List ObjectId
  | seen, [] => ([], seen)
  | seen, current :: rest =>
      if current.id.index ∈ seen then ([], seen)
      else
        let (later, all) := fresh (current.id.index :: seen) rest
        (current :: later, all)

/-- The union of some graphs, targets before the pairs over them. -/
def openGraphs (admission : Admission) : List BlobIdentity → List ObjectId →
    Answer (List Descriptor)
  | [], _ => .ok []
  | root :: roots, seen => do
      let chain ← resolvePair C disk root
      scanned admission (C.opener.scanCola disk root)
      let rest ← openGraphs admission roots (fresh seen chain).2
      .ok ((fresh seen chain).1.reverse ++ rest)

/-- The roots of `register_graphs`, sorted and without repetitions. -/
def canonicalRoots (roots : Sized BlobIdentity) : Sized BlobIdentity :=
  roots.shorten (unique (sortedRoots roots.items))
    ((length_unique_le _).trans (List.length_mergeSort _).le)

/-- Whether `acquire_native_merge` goes on to its transaction. -/
def hinted (c : Database) (id domain : Text) (key : NativeMerge) : Bool :=
  (c.lookupOperation id).isSome ||
    (c.tables.nativeMergeOutput domain.items key.older key.newer).isSome

/-- An action which keeps no file mapped. -/
def plain (action : Action) : Answer (Option Work) := .ok (some ⟨action, []⟩)

/-- What a call does before its transaction: its work, or nothing on a missed hint. -/
def prepare (c : Database) (scope : Option ObjectId) (id : Text) :
    Operation → Answer (Option Work)
  | .reserve attempt owner inputs outputs => do
      name id
      name owner
      demands (outputs.items ≠ []) "reservation has no outputs"
      plain (.reserve attempt owner inputs outputs scope)
  | .recordSealed receipt => do
      name id
      plain (.seal receipt)
  | .recordNativeMerge key receipt owner => do
      requireSessions C
      name id
      name owner
      let domain ← nativeMergeDomain C key
      plain (.rememberNativeMerge domain key.older key.newer receipt owner)
  | .acquireNativeMerge key owner => do
      requireSessions C
      name id
      name owner
      let domain ← nativeMergeDomain C key
      if hinted c id domain key then
        plain (.acquireNativeMerge domain key.older key.newer owner)
      else .ok none
  | .registerChain head admission => do
      name id
      let chain ← openMappedQuery C disk head
      scanned admission (C.opener.scanLinear disk head)
      plain (.registerChain admission (chain.map fun current =>
        ⟨current.id, current.nativeCount, current.mainSamples, current.virtualCount⟩))
  | .registerGraphs roots admission => do
      name id
      demands (3 ≤ C.version) "COLA admission requires catalog version 3; no automatic migration"
      demands (roots.items ≠ []) "empty COLA graph set"
      demands (conflicting (sortedRoots roots.items) = false)
        "conflicting COLA graph root identities"
      let chain ← openGraphs C disk admission (canonicalRoots roots).items []
      plain (.registerColaGraphs admission (canonicalRoots roots) chain)
  | .registerPair pair => do
      name id
      let (descriptor, _) ← prepareColaPair C disk c.tables pair none none
      plain (.registerColaPair descriptor)
  | .sealPair pair receipt => do
      name id
      demands (receipt.object = pair.index) "pair receipt names another index"
      demands (receipt.path = pathText receipt.object .fractionalIndex)
        "seal receipt names another catalog path"
      let (descriptor, bytes) ← prepareColaPair C disk c.tables pair (some receipt) none
      .ok (some ⟨.sealColaPair receipt descriptor, bytes⟩)
  | .sealNativePair pair native index => do
      name id
      demands (native.object = pair.native ∧ index.object = pair.index ∧ pair.native ≠ pair.index)
        "pair receipts name different objects"
      demands (native.path = pathText pair.native .nativeBlob ∧
        index.path = pathText pair.index .fractionalIndex)
        "seal receipt names another catalog path"
      let (descriptor, _) ← prepareColaPair C disk c.tables pair (some index) (some native)
      plain (.sealNativeColaPair native index descriptor)
  | .save save head => do
      name id
      name save
      plain (.save save head)
  | .acquireSave save reader => do
      name id
      name save
      name reader
      plain (.acquireSave save reader)
  | .createTimeline timeline head => do
      requireTimelines C
      name id
      name timeline
      plain (.createTimeline timeline head)
  | .forkTimeline timeline source => do
      requireTimelines C
      name id
      name timeline
      validateTimeline source
      plain (.forkTimeline timeline source)
  | .publishTimeline expected candidate => do
      requireTimelines C
      name id
      validateTimeline expected
      plain (.publishTimeline expected candidate)
  | .createSession session head checkpoint roots => do
      requireSessions C
      name id
      name session
      plain (.createSession session head checkpoint (canonicalAuxiliary roots head))
  | .publishSession expected candidate checkpoint roots => do
      requireSessions C
      name id
      validateTimeline expected.timeline
      plain (.publishSession expected candidate checkpoint (canonicalAuxiliary roots candidate))
  | .forkSession session source => do
      requireSessions C
      name id
      name session
      validateTimeline source.timeline
      plain (.forkSession session source)
  | .saveSession save source => do
      requireSessions C
      name id
      name save
      validateTimeline source.timeline
      plain (.saveSession save source)
  | .beginPrivateScope scope => do
      requireSessions C
      name id
      plain (.privateBegin scope)
  | .releasePrivateScope scope => do
      requireSessions C
      name id
      plain (.privateRelease scope)

/-! ## After the transaction -/

/-- What a call returns. -/
inductive Value
  | done
  | receipt (value : Receipt)
  | savedRoot (head : BlobIdentity) (owner : Text)
  | timeline (head : TimelineHead)
  | timelinePublication (published : Bool) (head : TimelineHead)
  | session (head : SessionHead)
  | sessionPublication (published : Bool) (head : SessionHead)
  deriving DecidableEq

/-- What a call does with the outcome of its transaction. -/
def finish (t : Tables) (outcome : List UInt8) : Action → Answer Value
  | .rememberNativeMerge _ _ _ receipt _ => do
      verifySealed C disk t receipt .nativeBlob
      .ok .done
  | .acquireNativeMerge .. => do
      let output ← readAll readIdentity outcome
      let receipt ← sealedReceipt C disk t output .nativeBlob
      .ok (.receipt receipt)
  | .acquireSave name reader => do
      let head ← demand (t.findSave name) (.exception "committed save disappeared")
      .ok (.savedRoot head reader)
  | .createTimeline .. | .forkTimeline .. => do
      let head ← readAll readTimeline outcome
      .ok (.timeline head)
  | .publishTimeline .. => do
      let (published, head) ← readAll (readPublication readTimeline) outcome
      .ok (.timelinePublication published head)
  | .createSession .. | .forkSession .. => do
      let head ← readAll readSession outcome
      .ok (.session head)
  | .publishSession .. => do
      let (published, head) ← readAll (readPublication readSession) outcome
      .ok (.sessionPublication published head)
  | _ => .ok .done

end Everett.Catalog

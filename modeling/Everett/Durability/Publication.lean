import Everett.Library.Methods

/-!
# Publication of a merge

The protocol object of `durability.h`: one owner drives one merge recipe through checkpoints,
output and manifest, and recovers from uncertain outcomes.  Methods keep the order of the
statements of the source, so a throw leaves the fields as they were assigned before it.
-/

namespace Everett.Durability

open Methods

/-- A `std::string`, whose bytes are opaque here. -/
abbrev Bytes := List UInt8

/-- Exception classes of the protocol, with their texts. -/
inductive Fault
  | invalidArgument (text : String)
  | logicError (text : String)
  | overflowError (text : String)
  deriving DecidableEq, Repr

/-- Completion event of a backend operation. -/
inductive PersistenceResult
  | durableVerified
  | failure
  deriving DecidableEq, Repr

/-- Evidence which recovery supplies. -/
inductive RecoveryEvidence
  | unverified
  | durableStateVerified
  deriving DecidableEq, Repr

/-- What recovery found out about the selected root. -/
inductive SelectorRecovery
  | unresolved
  | oldRootSelected
  deriving DecidableEq, Repr

inductive PublicationStage
  | building
  | outputDurable
  | manifestPending
  | uncertain
  | published
  deriving DecidableEq, Repr

structure MergeIdentity where
  recipe : Bytes
  inputVersions : List Bytes
  deriving DecidableEq, Repr

structure MergeInputCursor where
  inputVersion : Bytes
  ordinal : UInt64
  byteOffset : UInt64
  predecessorKey : Bytes
  deriving DecidableEq, Repr

structure SealedMergeExtent where
  exactId : Bytes
  bytes : UInt64
  checksum : Bytes
  deriving DecidableEq, Repr

structure MergeCheckpoint where
  exactId : Bytes
  identity : MergeIdentity
  outputGeneration : Bytes
  inputs : List MergeInputCursor
  sealedOutput : List SealedMergeExtent
  previousOutputKey : Bytes
  metadataState : Bytes
  outputRecords : UInt64
  completedWork : UInt64
  deriving DecidableEq, Repr

/-- One extent added to the size of the earlier ones. -/
def addExtent (sum : UInt64) (extent : SealedMergeExtent) : Except Fault UInt64 :=
  if extent.bytes > 0xffffffffffffffff - sum then .error (.overflowError "merge checkpoint size")
  else .ok (sum + extent.bytes)

/-- Size of the sealed output of a checkpoint. -/
def MergeCheckpoint.sealedBytes (checkpoint : MergeCheckpoint) : Except Fault UInt64 :=
  checkpoint.sealedOutput.foldlM addExtent 0

/-- The loops over identities: item by item, first a present identity, then a new one. -/
def distinctLoop {α : Type} (name : α → Bytes) (present : α → Bool) (missing duplicate : Fault) :
    List Bytes → List α → Except Fault Unit
  | _, [] => .ok ()
  | seen, item :: rest =>
      if present item = false then .error missing
      else if name item ∈ seen then .error duplicate
      else distinctLoop name present missing duplicate (seen ++ [name item]) rest

/-- Identities which the loop accepts are new and distinct. -/
theorem distinctLoop_eq_ok {α : Type} {name : α → Bytes} {present : α → Bool}
    {missing duplicate : Fault} {seen : List Bytes} {items : List α} :
    distinctLoop name present missing duplicate seen items = .ok () ↔
      (∀ item ∈ items, present item = true) ∧ (items.map name).Nodup ∧
        ∀ item ∈ items, name item ∉ seen := by
  induction items generalizing seen with
  | nil => simp [distinctLoop]
  | cons item rest induction =>
      unfold distinctLoop
      split
      · simp_all
      · split
        · simp_all
        · rw [induction]
          simp only [List.forall_mem_cons, List.map_cons, List.nodup_cons, List.mem_append,
            List.mem_singleton, List.mem_map, not_or, not_exists, not_and]
          constructor
          · rintro ⟨there, distinct, fresh⟩
            exact ⟨⟨by simp_all, there⟩, ⟨fun other member => (fresh other member).2, distinct⟩,
              by assumption, fun other member => (fresh other member).1⟩
          · rintro ⟨⟨_, there⟩, ⟨apart, distinct⟩, _, fresh⟩
            exact ⟨there, distinct, fun other member => ⟨fresh other member, apart other member⟩⟩

/-- Fields of `merge_publication`. -/
structure MergePublication where
  identity : MergeIdentity
  durableManifest : Bytes
  generation : Bytes
  pendingManifest : Bytes
  generations : List Bytes
  manifests : List Bytes
  checkpoint : Option MergeCheckpoint
  stage : PublicationStage
  oldPinsRetained : Bool
  deriving DecidableEq, Repr

namespace MergePublication

/-- Constructor of a publication. -/
def make (identity : MergeIdentity) (oldManifest outputGeneration : Bytes) :
    Except Fault MergePublication :=
  if identity.recipe = [] ∨ identity.inputVersions = [] ∨ oldManifest = [] ∨
      outputGeneration = [] then
    .error (.invalidArgument "missing merge publication identity")
  else do
    distinctLoop id (fun version => !version.isEmpty)
      (.invalidArgument "missing merge input identity")
      (.invalidArgument "duplicate merge input identity") [] identity.inputVersions
    .ok
      { identity := identity
        durableManifest := oldManifest
        generation := outputGeneration
        pendingManifest := []
        generations := [outputGeneration]
        manifests := []
        checkpoint := none
        stage := .building
        oldPinsRetained := true }

/-- Old pins may go once the merge is published. -/
def canReleaseOldPins (publication : MergePublication) : Bool :=
  decide (publication.stage = .published)

/-- A method of a publication. -/
abbrev Publishing := Method Fault MergePublication

def requireStage (wanted : PublicationStage) : Publishing Unit := do
  let publication ← get
  require (publication.stage = wanted) (.logicError "invalid merge publication transition")

def requireEvidence (evidence : RecoveryEvidence) : Publishing Unit :=
  require (evidence = .durableStateVerified)
    (.invalidArgument "durable recovery evidence required")

def validateCheckpoint (candidate : MergeCheckpoint) : Publishing Unit := do
  let publication ← get
  require (candidate.exactId ≠ [] ∧ candidate.identity = publication.identity ∧
      candidate.inputs.length = publication.identity.inputVersions.length)
    (.invalidArgument "checkpoint identity mismatch")
  require (∀ pair ∈ candidate.inputs.zip publication.identity.inputVersions,
      pair.1.inputVersion = pair.2)
    (.invalidArgument "checkpoint input version mismatch")
  evaluate (distinctLoop SealedMergeExtent.exactId
    (fun extent => !extent.exactId.isEmpty && !extent.checksum.isEmpty)
    (.invalidArgument "checkpoint extent identity missing")
    (.invalidArgument "duplicate checkpoint extent") [] candidate.sealedOutput)
  let _ ← evaluate candidate.sealedBytes
  pure ()

/-- Comparison of a candidate with the checkpoint it supersedes. -/
def requireAdvance (candidate : MergeCheckpoint) : Option MergeCheckpoint → Publishing Unit
  | none => pure ()
  | some checkpoint => do
      require (¬(candidate.exactId = checkpoint.exactId ∨
          candidate.outputRecords < checkpoint.outputRecords ∨
          candidate.completedWork < checkpoint.completedWork))
        (.invalidArgument "checkpoint did not advance")
      require (∀ pair ∈ candidate.inputs.zip checkpoint.inputs,
          ¬(pair.1.ordinal < pair.2.ordinal ∨ pair.1.byteOffset < pair.2.byteOffset))
        (.invalidArgument "checkpoint cursor moved backwards")

def completeCheckpoint (candidate : MergeCheckpoint) (result : PersistenceResult) :
    Publishing Unit := do
  requireStage .building
  validateCheckpoint candidate
  let publication ← get
  require (candidate.outputGeneration = publication.generation)
    (.invalidArgument "checkpoint generation mismatch")
  requireAdvance candidate publication.checkpoint
  if result = .failure then
    modify fun publication => { publication with stage := .uncertain }
  else
    modify fun publication => { publication with checkpoint := some candidate }

def completeOutput (result : PersistenceResult) : Publishing Unit := do
  requireStage .building
  modify fun publication =>
    { publication with
      stage := if result = .durableVerified then .outputDurable else .uncertain }

def prepareManifest (exactId : Bytes) : Publishing Unit := do
  requireStage .outputDurable
  let publication ← get
  require (¬(exactId = [] ∨ exactId = publication.durableManifest ∨
      exactId ∈ publication.manifests))
    (.invalidArgument "manifest identity must be fresh")
  modify fun publication => { publication with manifests := publication.manifests ++ [exactId] }
  modify fun publication => { publication with pendingManifest := exactId }
  modify fun publication => { publication with stage := .manifestPending }

def completeManifest (result : PersistenceResult) : Publishing Unit := do
  requireStage .manifestPending
  if result = .failure then
    modify fun publication => { publication with stage := .uncertain }
  else do
    modify fun publication =>
      { publication with durableManifest := publication.pendingManifest }
    modify fun publication => { publication with stage := .published }

def reportIoFailure : Publishing Unit := do
  let publication ← get
  require (publication.stage ≠ .published)
    (.logicError "published merge requires separate cleanup handling")
  modify fun publication => { publication with stage := .uncertain }

def resume (freshGeneration : Bytes) (evidence : RecoveryEvidence)
    (retained : Option MergeCheckpoint) (selector : SelectorRecovery) : Publishing Unit := do
  requireStage .uncertain
  requireEvidence evidence
  let publication ← get
  require (¬(publication.pendingManifest ≠ [] ∧ selector ≠ .oldRootSelected))
    (.invalidArgument "uncertain manifest selector needs reconciliation")
  require (¬(freshGeneration = [] ∨ freshGeneration ∈ publication.generations))
    (.invalidArgument "merge resumption needs a fresh generation")
  require (¬(retained.isSome ∧ (publication.checkpoint = none ∨ retained ≠ publication.checkpoint)))
    (.invalidArgument "unrecognized recovery checkpoint")
  modify fun publication =>
    { publication with generations := publication.generations ++ [freshGeneration] }
  modify fun publication => { publication with generation := freshGeneration }
  modify fun publication => { publication with checkpoint := retained }
  modify fun publication => { publication with pendingManifest := [] }
  modify fun publication => { publication with stage := .building }

def acceptRecoveredPublication (evidence : RecoveryEvidence) : Publishing Unit := do
  requireStage .uncertain
  requireEvidence evidence
  let publication ← get
  require (publication.pendingManifest ≠ []) (.logicError "no manifest to reconcile")
  modify fun publication => { publication with durableManifest := publication.pendingManifest }
  modify fun publication => { publication with stage := .published }

def releaseOldPins : Publishing Bool := do
  requireStage .published
  let publication ← get
  modify fun publication => { publication with oldPinsRetained := false }
  pure publication.oldPinsRetained

end MergePublication

end Everett.Durability

import Everett.Catalog.Tables

/-!
# Files of a catalog

The files below the root of a catalog, what opening them says, and the chains of pairs which they
name.  A file is opened by other parts of the library; here only its identities and counts matter.
-/

namespace Everett.Catalog

open Outcome ByteFields FileDetail

/-- The files below the root. -/
abbrev Disk := List (ObjectId × FileKind × List UInt8)

/-- `object_path`, as a relative path. -/
def objectPath (id : ObjectId) (kind : FileKind) : List UInt8 :=
  id.hex.take 2 ++ 47 :: (id.hex.drop 2).take 2 ++ 47 :: id.hex.drop 4 ++
    match kind with
    | .nativeBlob => [46, 107, 118]
    | .fractionalIndex => [46, 105, 110, 100, 101, 120]

theorem length_objectPath_lt (id : ObjectId) (kind : FileKind) :
    (objectPath id kind).length < 2 ^ 64 := by
  have length := id.length_hex
  cases kind <;> simp [objectPath, length]

/-- `object_path`, as a string. -/
def pathText (id : ObjectId) (kind : FileKind) : Text :=
  ⟨objectPath id kind, length_objectPath_lt id kind⟩

/-- `open_object_bytes`. -/
def openObjectBytes (disk : Disk) (id : ObjectId) (kind : FileKind) : Answer (List UInt8) :=
  demand ((disk.find? fun file => file.1 = id ∧ file.2.1 = kind).map fun file => file.2.2)
    (.exception "open Everett object")

/-- A reader of bytes as a part of a call. -/
def lift {α : Type} (result : Result α) : Answer α :=
  match result with
  | .ok a => .ok a
  | .error message => .error (.exception message)

/-- `object_seal_receipt`, with the canonical path relative to the root. -/
@[ext]
structure Receipt where
  object : ObjectId
  attempt : ObjectId
  path : Text
  bytes : UInt64
  bodyCrc32c : UInt32
  barrier : SyncBarrier
  deriving DecidableEq

/-! ## Openers -/

/-- What an opened linear index says. -/
structure LinearIndex where
  nativeId : ObjectId
  targetId : Option BlobIdentity
  borrowed : UInt64
  virtualSize : UInt64

/-- What an opened index with two routes says. -/
structure ColaIndex where
  nativeId : ObjectId
  mainId : Option BlobIdentity
  secondaryId : Option ObjectId
  mainBorrowed : UInt64
  secondaryBorrowed : UInt64
  virtualSize : UInt64

/-- The openers of files, and the explicit scans of what a root reaches. -/
structure Opener where
  native : List UInt8 → Answer UInt64
  linearIndex : List UInt8 → Answer LinearIndex
  colaIndex : List UInt8 → Answer ColaIndex
  scanLinear : Disk → BlobIdentity → Answer Unit
  scanCola : Disk → BlobIdentity → Answer Unit

/-- What all handles of a catalog share. -/
structure Context where
  policy : StoragePolicy
  version : Nat
  opener : Opener

/-- `cola_pair_descriptor`. -/
@[ext]
structure Descriptor where
  id : BlobIdentity
  main : Option BlobIdentity
  secondary : Option ObjectId
  nativeCount : UInt64
  mainSamples : UInt64
  secondarySamples : UInt64
  secondaryCount : UInt64
  virtualCount : UInt64
  deriving DecidableEq

variable (C : Context) (disk : Disk)

/-- `group_count`: the number of groups of so many records. -/
def groupCount (P : StoragePolicy) (count : Nat) : Nat :=
  count / P.groupSize + if count % P.groupSize = 0 then 0 else 1

/-! ## Envelopes -/

/-- `check_object_envelope`. -/
def checkObjectEnvelope (expected : FileKind) (size : UInt64) (crc : UInt32)
    (bytes : List UInt8) : Answer Unit := do
  let header ← lift (decodeFileHeader C.policy bytes)
  let total ← lift (totalBytes C.policy header.extent)
  demands (header.kind = expected ∧ size.toNat = bytes.length ∧ total.toNat = bytes.length ∧
    crc.toNat = get bytes 64 4) "sealed catalog metadata disagrees with object"

/-- `verify_object_envelope`. -/
def verifyObjectEnvelope (id : ObjectId) (expected : FileKind) (size : UInt64) (crc : UInt32) :
    Answer Unit := do
  let bytes ← openObjectBytes disk id expected
  checkObjectEnvelope C expected size crc bytes

/-- The seal of an object of this kind. -/
def sealOf (t : Tables) (id : ObjectId) (expected : FileKind) : Option Seal := do
  let row ← t.objectRow id
  if row.kind = expected then row.sealed else none

/-- `require_sealed`. -/
def requireSealed (t : Tables) (id : ObjectId) (expected : FileKind)
    (evidence : Option (List UInt8)) : Answer Unit := do
  let found ← demand (sealOf t id expected)
    (.exception "chain refers to an unsealed or wrongly typed object")
  match evidence with
  | some bytes => checkObjectEnvelope C expected found.bytes found.crc bytes
  | none => verifyObjectEnvelope C disk id expected found.bytes found.crc

/-- `verify_sealed`. -/
def verifySealed (t : Tables) (receipt : Receipt) (expected : FileKind) : Answer Unit := do
  demands (receipt.path = pathText receipt.object expected)
    "seal receipt names another catalog path"
  let row ← demand (t.objectRow receipt.object)
    (.exception "seal receipt disagrees with catalog reservation")
  let _ ← integer receipt.bytes
  demands (row.kind = expected ∧ row.attempt = receipt.attempt ∧
    row.sealed = some ⟨receipt.bytes, receipt.bodyCrc32c, receipt.barrier⟩)
    "seal receipt disagrees with catalog reservation"
  verifyObjectEnvelope C disk receipt.object expected receipt.bytes receipt.bodyCrc32c

/-- `sealed_receipt`. -/
def sealedReceipt (t : Tables) (id : ObjectId) (expected : FileKind) : Answer Receipt := do
  let row ← demand (t.objectRow id) (.exception "object has no completed seal in this catalog")
  let found ← demand (if row.kind = expected then row.sealed else none)
    (.exception "object has no completed seal in this catalog")
  demands (96 ≤ found.bytes.toNat) "invalid completed seal metadata"
  verifyObjectEnvelope C disk id expected found.bytes found.crc
  .ok ⟨id, row.attempt, pathText id expected, found.bytes, found.crc, found.barrier⟩

/-! ## Chains -/

/-- The error texts of a resolver. -/
structure ResolverTexts where
  cyclic : String
  nativeIdentity : String
  samples : String
  shape : String

/-- The texts of `open_mapped_query`. -/
def linearTexts : ResolverTexts where
  cyclic := "cyclic Everett object identities"
  nativeIdentity := "Everett chain native identity mismatch"
  samples := "Everett mapped pair sample count mismatch"
  shape := "profile blob section shape mismatch"

/-- The texts of `mapped_cola_resolver`. -/
def colaTexts : ResolverTexts where
  cyclic := "cyclic COLA object identities"
  nativeIdentity := "COLA chain native identity mismatch"
  samples := "COLA mapped target sample count mismatch"
  shape := "COLA augmented count mismatch"

/-- The record count of a native file. -/
def nativeSize (id : ObjectId) : Answer UInt64 := do
  let bytes ← openObjectBytes disk id .nativeBlob
  C.opener.native bytes

/-- The record count of an optional native file. -/
def secondarySize : Option ObjectId → Answer UInt64
  | none => .ok 0
  | some id => nativeSize C disk id

/-- Open one pair of a linear chain. -/
def linearNode (id : BlobIdentity) : Answer Descriptor := do
  let bytes ← openObjectBytes disk id.index .fractionalIndex
  let index ← C.opener.linearIndex bytes
  demands (index.nativeId = id.native) linearTexts.nativeIdentity
  let native ← nativeSize C disk id.native
  .ok ⟨id, index.targetId, none, native, index.borrowed, 0, 0, index.virtualSize⟩

/-- Open one pair of a main chain. -/
def colaNode (id : BlobIdentity) : Answer Descriptor := do
  let bytes ← openObjectBytes disk id.index .fractionalIndex
  let index ← C.opener.colaIndex bytes
  demands (index.nativeId = id.native) colaTexts.nativeIdentity
  let native ← nativeSize C disk id.native
  let secondary ← secondarySize C disk index.secondaryId
  .ok ⟨id, index.mainId, index.secondaryId, native, index.mainBorrowed, index.secondaryBorrowed,
    secondary, index.virtualSize⟩

/-- The pairs of a chain from its head.  Each has its own index file, so a chain which is longer
than the disk repeats one. -/
def openChain (texts : ResolverTexts) (node : BlobIdentity → Answer Descriptor) :
    Nat → List ObjectId → BlobIdentity → Answer (List Descriptor)
  | 0, _, _ => .error (.exception texts.cyclic)
  | files + 1, seen, id => do
      demands (id.index ∉ seen) texts.cyclic
      let current ← node id
      match current.main with
      | none => .ok [current]
      | some main => do
          let rest ← openChain texts node files (id.index :: seen) main
          .ok (current :: rest)

/-- The samples and the shape which `bind` checks. -/
def bindNode (P : StoragePolicy) (texts : ResolverTexts) (current : Descriptor)
    (main : Option Descriptor) : Answer Unit := do
  demands (current.mainSamples.toNat =
      (main.map fun target => groupCount P target.virtualCount.toNat).getD 0 ∧
    current.secondarySamples.toNat = groupCount P current.secondaryCount.toNat) texts.samples
  demands (current.nativeCount.toNat + current.mainSamples.toNat + current.secondarySamples.toNat =
    current.virtualCount.toNat) texts.shape

/-- Bind a chain from its end. -/
def bindChain (P : StoragePolicy) (texts : ResolverTexts) : List Descriptor → Answer Unit
  | [] => .ok ()
  | current :: rest => do
      bindChain P texts rest
      bindNode P texts current rest.head?

/-- `open_mapped_query`. -/
def openMappedQuery (head : BlobIdentity) : Answer (List Descriptor) := do
  let chain ← openChain linearTexts (linearNode C disk) (disk.length + 1) [] head
  bindChain C.policy linearTexts chain
  demands (∀ first ∈ chain.head?, first.virtualCount.toNat ≤ C.policy.groupSize)
    "query root head exceeds one cascade group"
  .ok chain

/-- `mapped_cola_resolver::pair`. -/
def resolvePair (head : BlobIdentity) : Answer (List Descriptor) := do
  let chain ← openChain colaTexts (colaNode C disk) (disk.length + 1) [] head
  bindChain C.policy colaTexts chain
  .ok chain

/-- The main target of a pair, as registered: the number of its samples. -/
def mainSamples (t : Tables) : Option BlobIdentity → Answer Nat
  | none => .ok 0
  | some main => do
      let row ← demand (t.pairRow main.index)
        (.exception "COLA main target is not this registered pair")
      demands (row.id.native = main.native ∧ row.layout = .cola)
        "COLA main target is not this registered pair"
      .ok (groupCount C.policy row.virtualCount)

/-- A secondary native of `prepare_cola_pair`. -/
def preparedSecondary (t : Tables) : Option ObjectId → Answer UInt64
  | none => .ok 0
  | some id => do
      let bytes ← openObjectBytes disk id .nativeBlob
      let size ← C.opener.native bytes
      requireSealed C disk t id .nativeBlob (some bytes)
      .ok size

/-- The envelope of a part of `prepare_cola_pair`: against a receipt, or against its seal. -/
def preparedEnvelope (t : Tables) (id : ObjectId) (kind : FileKind) (receipt : Option Receipt)
    (bytes : List UInt8) : Answer Unit :=
  match receipt with
  | some given => checkObjectEnvelope C kind given.bytes given.bodyCrc32c bytes
  | none => requireSealed C disk t id kind (some bytes)

/-- `prepare_cola_pair`, with the mapped index file. -/
def prepareColaPair (t : Tables) (id : BlobIdentity) (receipt nativeReceipt : Option Receipt) :
    Answer (Descriptor × List UInt8) := do
  require (3 ≤ C.version) (.exception "COLA admission requires catalog version 3")
  let indexBytes ← openObjectBytes disk id.index .fractionalIndex
  let index ← C.opener.colaIndex indexBytes
  demands (index.nativeId = id.native) "COLA pair native identity mismatch"
  preparedEnvelope C disk t id.index .fractionalIndex receipt indexBytes
  let nativeBytes ← openObjectBytes disk id.native .nativeBlob
  let native ← C.opener.native nativeBytes
  preparedEnvelope C disk t id.native .nativeBlob nativeReceipt nativeBytes
  let secondary ← preparedSecondary C disk t index.secondaryId
  let samples ← mainSamples C t index.mainId
  demands (index.mainBorrowed.toNat = samples ∧
    index.secondaryBorrowed.toNat = groupCount C.policy secondary.toNat)
    "COLA pair sample count disagrees with registered target"
  demands (native.toNat + index.mainBorrowed.toNat + index.secondaryBorrowed.toNat =
    index.virtualSize.toNat) "COLA augmented count mismatch"
  .ok (⟨id, index.mainId, index.secondaryId, native, index.mainBorrowed, index.secondaryBorrowed,
    secondary, index.virtualSize⟩, indexBytes)

end Everett.Catalog

import Everett.Bits
import Everett.Library.LittleEndian

/-!
# The persistent engine

An engine owns a core and a named session of a catalog.  Every world which it publishes is first
stored under the head of the session; the world which the engine goes on with is read back from
there.  A mutation gets a new logical identity, maintenance keeps the one it had.
-/

namespace Everett

/-- `typed_world_metadata`. -/
structure TypedMetadata where
  signature : UInt64
  liveCount : UInt64
  schemaId : List UInt8
  deriving DecidableEq

/-- What an engine throws, besides the errors of its core. -/
inductive EngineError (X : Type)
  | core (error : X)
  /-- "failed persistent Everett engine; reconnect it" -/
  | inactive
  /-- "transaction base is no longer current" -/
  | conflict
  /-- "failed Everett runtime store; reopen it" -/
  | storeFailed
  /-- "named Everett session was advanced by another connection" -/
  | advanced
  /-- "empty typed schema identity" -/
  | emptySchema
  /-- "truncated typed metadata" -/
  | truncated
  /-- "typed snapshot metadata or schema mismatch" -/
  | mismatch

variable {R C I X : Type}

namespace TypedMetadata

/-- `encode`. -/
def encode (metadata : TypedMetadata) : Except (EngineError X) (List UInt8) :=
  if metadata.schemaId.isEmpty then .error .emptySchema
  else .ok (LittleEndian.toBytes 8 metadata.signature.toNat ++
    LittleEndian.toBytes 8 metadata.liveCount.toNat ++ metadata.schemaId)

/-- `decode`. -/
def decode (data : List UInt8) : Except (EngineError X) TypedMetadata :=
  if data.length ≤ 16 then .error .truncated
  else .ok {
    signature := UInt64.ofNat (LittleEndian.ofBytes (data.take 8))
    liveCount := UInt64.ofNat (LittleEndian.ofBytes ((data.drop 8).take 8))
    schemaId := data.drop 16 }

theorem encode_ok {metadata : TypedMetadata} (named : metadata.schemaId ≠ []) :
    ∃ data, encode (X := X) metadata = .ok data ∧ decode (X := X) data = .ok metadata := by
  have wide : ∀ n : UInt64, UInt64.ofNat (LittleEndian.ofBytes (LittleEndian.toBytes 8 n.toNat)) =
      n := by
    intro n
    rw [LittleEndian.ofBytes_toBytes_of_lt (by simpa using n.toNat_lt), UInt64.ofNat_toNat]
  have positive := List.length_pos_iff.mpr named
  refine ⟨_, if_neg (by simpa using named), ?_⟩
  have name : ((LittleEndian.toBytes 8 metadata.signature.toNat ++
      LittleEndian.toBytes 8 metadata.liveCount.toNat) ++ metadata.schemaId).drop 16 =
      metadata.schemaId := List.drop_left' (by simp)
  rw [decode, if_neg (by simp; omega), name]
  simp [wide]

end TypedMetadata

/-- `typed_world`: the snapshot of a runtime with its metadata. -/
structure TypedWorld (R : Type) where
  runtime : R
  metadata : TypedMetadata

/-- `catalog_session_head`, with the checkpoint which it names. -/
structure SessionHead (R : Type) where
  version : Nat
  runtime : R
  semantic : List UInt8

/-- `stored_world`; the logical state is known by its address. -/
structure StoredWorld (R : Type) where
  world : TypedWorld R
  head : SessionHead R
  logical : Nat

/-- What the engine calls of its core and of the storage below it. -/
structure CoreOps (R C I X : Type) where
  snapshot : C → TypedWorld R
  pending : C → Bool
  failed : C → Bool
  contribute : C → I → Except X (TypedWorld R) × C
  advance : C → Nat → Except X (Option (TypedWorld R)) × C
  /-- `rebase`, or a new core from the snapshot. -/
  rebase : C → TypedWorld R → Except X C
  fromSnapshot : TypedWorld R → Except X C
  poison : C → C
  /-- Whether a contribution has no records. -/
  isEmpty : I → Bool
  sameLayout : R → R → Bool
  admissions : R → Nat
  /-- The mapped form of a sealed runtime. -/
  mapped : R → R

/-- `prepared_transaction`, with the contributions which its core was given. -/
structure PreparedTransaction (R C I : Type) where
  base : StoredWorld R
  core : Option C
  edits : List I

/-- What a publication was for. -/
inductive Publication (I : Type)
  | created
  | contribution (input : I)
  | transaction (edits : List I)
  | maintenance

/-- Whether a publication mints a new logical state. -/
def Publication.mutation {I : Type} : Publication I → Bool
  | .maintenance => false
  | _ => true

/-- `persistent_engine`, with the head of its session in the catalog, the number of logical states
made so far, and its publications, newest first. -/
structure PersistentEngine (R C I : Type) where
  catalog : SessionHead R
  storeFailed : Bool
  core : C
  current : StoredWorld R
  schema : List UInt8
  failed : Bool
  identities : Nat
  published : List (Publication I × StoredWorld R)

namespace PersistentEngine

variable (ops : CoreOps R C I X) (e : PersistentEngine R C I)

/-- `failed`. -/
def isFailed : Bool := e.failed || ops.failed e.core || e.storeFailed

/-- `poison`. -/
def poison : PersistentEngine R C I := { e with failed := true, core := ops.poison e.core }

/-- `publish` of the store: exchange the head of the session when it is the expected one. -/
def storePublish (expected : SessionHead R) (runtime : R) (semantic : List UInt8) :
    Except (EngineError X) (SessionHead R) × PersistentEngine R C I :=
  if e.storeFailed then (.error .storeFailed, e)
  else if e.catalog.version = expected.version then
    let head : SessionHead R := ⟨expected.version + 1, ops.mapped runtime, semantic⟩
    (.ok head, { e with catalog := head })
  else (.error .advanced, { e with storeFailed := true })

/-- `restore` of a typed world. -/
def restore (head : SessionHead R) (schema : List UInt8) (logical : Nat) :
    Except (EngineError X) (StoredWorld R) :=
  match TypedMetadata.decode head.semantic with
  | .error error => .error error
  | .ok metadata =>
      if schema = [] ∨ metadata.schemaId ≠ schema ∨
          ops.admissions head.runtime < metadata.liveCount.toNat then .error .mismatch
      else .ok ⟨⟨head.runtime, metadata⟩, head, logical⟩

/-- Store a world and read it back. -/
def exchange (updated : TypedWorld R) (logical : Nat) :
    Except (EngineError X) (StoredWorld R) × PersistentEngine R C I :=
  match updated.metadata.encode with
  | .error error => (.error error, e)
  | .ok semantic =>
      match e.storePublish ops e.current.head updated.runtime semantic with
      | (.error error, e) => (.error error, e)
      | (.ok head, e) => (restore ops head e.schema logical, e)

/-- Keep a core with private work, and bring a settled one to the world which was published. -/
def settle (core : C) (world : TypedWorld R) : Except (EngineError X) C :=
  if ops.pending core then .ok core
  else match ops.rebase core world with
    | .error error => .error (.core error)
    | .ok core => .ok core

/-- Go on with a published world. -/
def goOn (core : C) (purpose : Publication I) (world : StoredWorld R) : PersistentEngine R C I :=
  { e with
    core
    current := world
    identities := max e.identities (world.logical + 1)
    published := (purpose, world) :: e.published }

/-- The logical state of the next publication. -/
def identity (purpose : Publication I) : Nat :=
  if purpose.mutation then e.identities else e.current.logical

/-- `publish`, and the publication of an installed core. -/
def publish (core : C) (updated : TypedWorld R) (purpose : Publication I) :
    Except (EngineError X) (StoredWorld R) × PersistentEngine R C I :=
  match e.exchange ops updated (e.identity purpose) with
  | (.error error, e) => (.error error, e.poison ops)
  | (.ok world, e) =>
      match settle ops core world.world with
      | .error error => (.error error, e.poison ops)
      | .ok core => (.ok world, e.goOn core purpose world)

/-- Whether an empty contribution left the world as it was. -/
def unchanged (before : Option (TypedWorld R)) (updated : TypedWorld R) : Bool :=
  match before with
  | none => false
  | some before =>
      ops.sameLayout updated.runtime before.runtime && (updated.metadata = before.metadata)

/-- `contribute_ordinary`. -/
def contributeOrdinary (input : I) :
    Except (EngineError X) (StoredWorld R) × PersistentEngine R C I :=
  if e.isFailed ops then (.error .inactive, e)
  else
    let before := if ops.isEmpty input then some (ops.snapshot e.core) else none
    match ops.contribute e.core input with
    | (.error error, core) =>
        let e := { e with core }
        (.error (.core error), if ops.failed core then e.poison ops else e)
    | (.ok updated, core) =>
        let e := { e with core }
        if unchanged ops before updated then (.ok e.current, e)
        else e.publish ops core updated (.contribution input)

/-- `install`. -/
def install (input : PreparedTransaction R C I) :
    Except (EngineError X) (StoredWorld R) × PersistentEngine R C I :=
  if e.isFailed ops then (.error .inactive, e)
  else if input.base.logical ≠ e.current.logical then (.error .conflict, e)
  else match input.core with
    | none => (.ok e.current, e)
    | some core => e.publish ops core (ops.snapshot core) (.transaction input.edits)

/-- `advance`. -/
def advance (budget : Nat) :
    Except (EngineError X) (Option (StoredWorld R)) × PersistentEngine R C I :=
  if e.isFailed ops then (.error .inactive, e)
  else match ops.advance e.core budget with
    | (.error error, core) => (.error (.core error), { e with core }.poison ops)
    | (.ok none, core) => (.ok none, { e with core })
    | (.ok (some updated), core) =>
        match { e with core }.publish ops core updated .maintenance with
        | (.error error, e) => (.error error, e)
        | (.ok world, e) => (.ok (some world), e)

end PersistentEngine

end Everett

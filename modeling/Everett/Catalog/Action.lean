import Everett.Catalog.Files

/-!
# Actions of the catalog

What one transaction does to the tables, and the bytes by which the journal knows it.
-/

namespace Everett.Catalog

open Outcome

/-- `catalog_admission`. -/
inductive Admission
  | trusted
  | scan
  deriving DecidableEq, Repr

/-- A pair of a linear chain; its target is the next pair. -/
@[ext]
structure LinearEntry where
  id : BlobIdentity
  nativeCount : UInt64
  borrowedCount : UInt64
  virtualCount : UInt64
  deriving DecidableEq

/-- `catalog_object_reservation`. -/
@[ext]
structure Reservation where
  object : ObjectId
  kind : FileKind
  deriving DecidableEq

/-- The transactions of the catalog, with what they capture. -/
inductive Action
  | reserve (attempt : ObjectId) (owner : Text) (inputs : Sized BlobIdentity)
      (outputs : Sized Reservation) (scope : Option ObjectId)
  | seal (receipt : Receipt)
  | rememberNativeMerge (domain : Text) (older newer : ObjectId) (receipt : Receipt) (owner : Text)
  | acquireNativeMerge (domain : Text) (older newer : ObjectId) (owner : Text)
  | registerChain (admission : Admission) (chain : List LinearEntry)
  | registerColaGraphs (admission : Admission) (roots : Sized BlobIdentity)
      (chain : List Descriptor)
  | registerColaPair (descriptor : Descriptor)
  | sealColaPair (receipt : Receipt) (descriptor : Descriptor)
  | sealNativeColaPair (native index : Receipt) (descriptor : Descriptor)
  | save (name : Text) (head : BlobIdentity)
  | acquireSave (name reader : Text)
  | createTimeline (name : Text) (head : BlobIdentity)
  | forkTimeline (name : Text) (source : TimelineHead)
  | publishTimeline (expected : TimelineHead) (candidate : BlobIdentity)
  | createSession (name : Text) (head : BlobIdentity) (checkpoint : Text) (auxiliary : Auxiliary)
  | publishSession (expected : SessionHead) (candidate : BlobIdentity) (checkpoint : Text)
      (auxiliary : Auxiliary)
  | forkSession (name : Text) (source : SessionHead)
  | saveSession (name : Text) (source : SessionHead)
  | privateBegin (id : ObjectId)
  | privateRelease (id : ObjectId)
  deriving DecidableEq

/-! ## Requests -/

/-- The number of a file kind. -/
def kindNumber : FileKind → UInt64
  | .nativeBlob => 0
  | .fractionalIndex => 1

/-- The number of a barrier. -/
def barrierNumber : SyncBarrier → UInt64
  | .fsync => 0
  | .appleFullFsync => 1

/-- The number of an admission. -/
def admissionNumber : Admission → UInt64
  | .trusted => 0
  | .scan => 1

/-- An output of a reservation. -/
def reservation (value : Reservation) : List UInt8 :=
  identity value.object ++ number (kindNumber value.kind)

/-- An optional value behind its flag. -/
def optional {α : Type} (encode : α → List UInt8) (value : Option α) : List UInt8 :=
  flag value.isSome ++ value.elim [] encode

/-- `append_seal_request`. -/
def sealRequest (value : Receipt) : List UInt8 :=
  identity value.object ++ (identity value.attempt ++ (number value.bytes ++
    (number value.bodyCrc32c.toUInt64 ++ (number (barrierNumber value.barrier) ++
      field value.path))))

/-- `append_pair_request`. -/
def pairRequest (value : Descriptor) : List UInt8 :=
  pair value.id ++ (optional pair value.main ++ (optional identity value.secondary ++
    (number value.nativeCount ++ (number value.mainSamples ++ (number value.secondarySamples ++
      (number value.secondaryCount ++ number value.virtualCount))))))

/-- A pair of `register_chain`. -/
def linearRequest (value : LinearEntry) : List UInt8 :=
  pair value.id ++ (number value.nativeCount ++ (number value.borrowedCount ++
    number value.virtualCount))

namespace Action

/-- The kind of the journal. -/
def kind : Action → String
  | reserve .. => "reserve"
  | .seal _ => "seal"
  | rememberNativeMerge .. => "remember_native_merge"
  | acquireNativeMerge .. => "acquire_native_merge"
  | registerChain .. => "register_chain"
  | registerColaGraphs .. => "register_cola_graphs"
  | registerColaPair _ => "register_cola_pair"
  | sealColaPair .. => "seal_cola_pair"
  | sealNativeColaPair .. => "seal_native_cola_pair"
  | save .. => "save"
  | acquireSave .. => "acquire_save"
  | createTimeline .. => "create_timeline"
  | forkTimeline .. => "fork_timeline"
  | publishTimeline .. => "publish_timeline"
  | createSession .. => "create_session"
  | publishSession .. => "publish_session"
  | forkSession .. => "fork_session"
  | saveSession .. => "save_session"
  | privateBegin _ => "private-begin"
  | privateRelease _ => "private-release"

/-- The request of the journal. -/
def request : Action → List UInt8
  | reserve attempt owner inputs outputs scope =>
      identity attempt ++ (field owner ++ (LittleEndian.counted pair inputs ++
        (LittleEndian.counted reservation outputs ++ scope.elim [] identity)))
  | .seal receipt => sealRequest receipt
  | rememberNativeMerge domain older newer receipt owner =>
      field domain ++ (identity older ++ (identity newer ++ (sealRequest receipt ++ field owner)))
  | acquireNativeMerge domain older newer owner =>
      field domain ++ (identity older ++ (identity newer ++ field owner))
  | registerChain admission chain =>
      number (admissionNumber admission) ++ chain.flatMap linearRequest
  | registerColaGraphs admission roots chain =>
      number (admissionNumber admission) ++ (LittleEndian.counted pair roots ++
        chain.flatMap pairRequest)
  | registerColaPair descriptor => pairRequest descriptor
  | sealColaPair receipt descriptor => sealRequest receipt ++ pairRequest descriptor
  | sealNativeColaPair native index descriptor =>
      sealRequest native ++ (sealRequest index ++ pairRequest descriptor)
  | save name head => field name ++ pair head
  | acquireSave name reader => field name ++ field reader
  | createTimeline name head => field name ++ pair head
  | forkTimeline name source => field name ++ timeline source
  | publishTimeline expected candidate => timeline expected ++ pair candidate
  | createSession name head checkpoint roots =>
      field name ++ (pair head ++ (field checkpoint ++ auxiliary roots))
  | publishSession expected candidate checkpoint roots =>
      session expected ++ (pair candidate ++ (field checkpoint ++ auxiliary roots))
  | forkSession name source => field name ++ session source
  | saveSession name source => field name ++ session source
  | privateBegin id => identity id
  | privateRelease id => identity id

end Action

/-! ## A request determines its action -/

theorem framed_reservation : Framed reservation := by
  intro a b rest other same
  simp only [reservation, List.append_assoc] at same
  obtain ⟨objects, same⟩ := framed_identity _ _ _ _ same
  obtain ⟨kinds, same⟩ := framed_number _ _ _ _ same
  refine ⟨Reservation.ext objects ?_, same⟩
  revert kinds
  cases a.kind <;> cases b.kind <;> decide

theorem framed_optional {α : Type} {encode : α → List UInt8} (framed : Framed encode) :
    Framed (optional encode) := by
  intro a b rest other same
  simp only [optional, List.append_assoc] at same
  obtain ⟨present, same⟩ := framed_flag _ _ _ _ same
  cases a with
  | none =>
      cases b with
      | none => exact ⟨rfl, same⟩
      | some b => cases present
  | some a =>
      cases b with
      | none => cases present
      | some b =>
          obtain ⟨values, same⟩ := framed _ _ _ _ same
          exact ⟨congrArg some values, same⟩

theorem framed_sealRequest : Framed sealRequest := by
  intro a b rest other same
  simp only [sealRequest, List.append_assoc] at same
  obtain ⟨objects, same⟩ := framed_identity _ _ _ _ same
  obtain ⟨attempts, same⟩ := framed_identity _ _ _ _ same
  obtain ⟨sizes, same⟩ := framed_number _ _ _ _ same
  obtain ⟨crcs, same⟩ := framed_number _ _ _ _ same
  obtain ⟨barriers, same⟩ := framed_number _ _ _ _ same
  obtain ⟨paths, same⟩ := framed_field _ _ _ _ same
  refine ⟨Receipt.ext objects attempts paths sizes ?_ ?_, same⟩
  · have words := congrArg UInt64.toNat crcs
    rw [UInt32.toNat_toUInt64, UInt32.toNat_toUInt64] at words
    exact UInt32.toNat_inj.mp words
  · revert barriers
    cases a.barrier <;> cases b.barrier <;> decide

theorem framed_pairRequest : Framed pairRequest := by
  intro a b rest other same
  simp only [pairRequest, List.append_assoc] at same
  obtain ⟨ids, same⟩ := framed_pair _ _ _ _ same
  obtain ⟨mains, same⟩ := framed_optional framed_pair _ _ _ _ same
  obtain ⟨secondaries, same⟩ := framed_optional framed_identity _ _ _ _ same
  obtain ⟨natives, same⟩ := framed_number _ _ _ _ same
  obtain ⟨main_samples, same⟩ := framed_number _ _ _ _ same
  obtain ⟨secondary_samples, same⟩ := framed_number _ _ _ _ same
  obtain ⟨secondary_counts, same⟩ := framed_number _ _ _ _ same
  obtain ⟨virtual_counts, same⟩ := framed_number _ _ _ _ same
  exact ⟨Descriptor.ext ids mains secondaries natives main_samples secondary_samples
    secondary_counts virtual_counts, same⟩

theorem framed_linearRequest : Framed linearRequest := by
  intro a b rest other same
  simp only [linearRequest, List.append_assoc] at same
  obtain ⟨ids, same⟩ := framed_pair _ _ _ _ same
  obtain ⟨natives, same⟩ := framed_number _ _ _ _ same
  obtain ⟨borrowed, same⟩ := framed_number _ _ _ _ same
  obtain ⟨virtual_counts, same⟩ := framed_number _ _ _ _ same
  exact ⟨LinearEntry.ext ids natives borrowed virtual_counts, same⟩

theorem pair_ne_nil (value : BlobIdentity) : pair value ≠ [] := by
  intro empty
  have length := congrArg List.length empty
  rw [pair, List.length_append, identity, List.length_append, LittleEndian.length_toBytes] at length
  simp at length

theorem pairRequest_ne_nil (value : Descriptor) : pairRequest value ≠ [] :=
  fun empty => pair_ne_nil _ (List.append_eq_nil_iff.mp empty).1

theorem linearRequest_ne_nil (value : LinearEntry) : linearRequest value ≠ [] :=
  fun empty => pair_ne_nil _ (List.append_eq_nil_iff.mp empty).1

theorem framed_admission : Framed fun admission => number (admissionNumber admission) := by
  apply framed_number.comp
  intro a b same
  revert same
  cases a <;> cases b <;> decide

/-- The scope of a reservation stands at the end of its request. -/
theorem scope_injective {a b : Option ObjectId}
    (same : a.elim [] identity = b.elim [] identity) : a = b := by
  have nonempty : ∀ id, identity id ≠ [] := by
    intro id empty
    have length := congrArg List.length empty
    rw [identity, List.length_append, LittleEndian.length_toBytes] at length
    simp at length
  cases a with
  | none =>
      cases b with
      | none => rfl
      | some b => exact absurd same.symm (nonempty b)
  | some a =>
      cases b with
      | none => exact absurd same (nonempty a)
      | some b => exact congrArg some (framed_identity.injective same)

/-- The journal tells any two actions apart. -/
theorem Action.request_injective {a b : Action} (kinds : a.kind = b.kind)
    (same : a.request = b.request) : a = b := by
  cases a <;> cases b <;>
    first
    | (exfalso
       revert kinds
       simp [Action.kind]
       done)
    | simp only [Action.request] at same
  case reserve.reserve =>
    obtain ⟨first, same⟩ := framed_identity _ _ _ _ same
    obtain ⟨second, same⟩ := framed_field _ _ _ _ same
    obtain ⟨third, same⟩ := LittleEndian.framed_counted framed_pair _ _ _ _ same
    obtain ⟨fourth, same⟩ := LittleEndian.framed_counted framed_reservation _ _ _ _ same
    rw [first, second, third, fourth, scope_injective same]
  case seal.seal => rw [Framed.injective framed_sealRequest same]
  case rememberNativeMerge.rememberNativeMerge =>
    obtain ⟨first, same⟩ := framed_field _ _ _ _ same
    obtain ⟨second, same⟩ := framed_identity _ _ _ _ same
    obtain ⟨third, same⟩ := framed_identity _ _ _ _ same
    obtain ⟨fourth, same⟩ := framed_sealRequest _ _ _ _ same
    rw [first, second, third, fourth, framed_field.injective same]
  case acquireNativeMerge.acquireNativeMerge =>
    obtain ⟨first, same⟩ := framed_field _ _ _ _ same
    obtain ⟨second, same⟩ := framed_identity _ _ _ _ same
    obtain ⟨third, same⟩ := framed_identity _ _ _ _ same
    rw [first, second, third, framed_field.injective same]
  case registerChain.registerChain =>
    obtain ⟨first, same⟩ := framed_admission _ _ _ _ same
    rw [first, Framed.flatMap_injective framed_linearRequest linearRequest_ne_nil same]
  case registerColaGraphs.registerColaGraphs =>
    obtain ⟨first, same⟩ := framed_admission _ _ _ _ same
    obtain ⟨second, same⟩ := LittleEndian.framed_counted framed_pair _ _ _ _ same
    rw [first, second, Framed.flatMap_injective framed_pairRequest pairRequest_ne_nil same]
  case registerColaPair.registerColaPair => rw [Framed.injective framed_pairRequest same]
  case sealColaPair.sealColaPair =>
    obtain ⟨first, same⟩ := framed_sealRequest _ _ _ _ same
    rw [first, Framed.injective framed_pairRequest same]
  case sealNativeColaPair.sealNativeColaPair =>
    obtain ⟨first, same⟩ := framed_sealRequest _ _ _ _ same
    obtain ⟨second, same⟩ := framed_sealRequest _ _ _ _ same
    rw [first, second, Framed.injective framed_pairRequest same]
  case save.save =>
    obtain ⟨first, same⟩ := framed_field _ _ _ _ same
    rw [first, framed_pair.injective same]
  case acquireSave.acquireSave =>
    obtain ⟨first, same⟩ := framed_field _ _ _ _ same
    rw [first, framed_field.injective same]
  case createTimeline.createTimeline =>
    obtain ⟨first, same⟩ := framed_field _ _ _ _ same
    rw [first, framed_pair.injective same]
  case forkTimeline.forkTimeline =>
    obtain ⟨first, same⟩ := framed_field _ _ _ _ same
    rw [first, framed_timeline.injective same]
  case publishTimeline.publishTimeline =>
    obtain ⟨first, same⟩ := framed_timeline _ _ _ _ same
    rw [first, framed_pair.injective same]
  case createSession.createSession =>
    obtain ⟨first, same⟩ := framed_field _ _ _ _ same
    obtain ⟨second, same⟩ := framed_pair _ _ _ _ same
    obtain ⟨third, same⟩ := framed_field _ _ _ _ same
    rw [first, second, third, framed_auxiliary.injective same]
  case publishSession.publishSession =>
    obtain ⟨first, same⟩ := framed_session _ _ _ _ same
    obtain ⟨second, same⟩ := framed_pair _ _ _ _ same
    obtain ⟨third, same⟩ := framed_field _ _ _ _ same
    rw [first, second, third, framed_auxiliary.injective same]
  case forkSession.forkSession =>
    obtain ⟨first, same⟩ := framed_field _ _ _ _ same
    rw [first, framed_session.injective same]
  case saveSession.saveSession =>
    obtain ⟨first, same⟩ := framed_field _ _ _ _ same
    rw [first, framed_session.injective same]
  case privateBegin.privateBegin => rw [framed_identity.injective same]
  case privateRelease.privateRelease => rw [framed_identity.injective same]

end Everett.Catalog

import Everett.Durability.Publication

/-!
# Calls of a publication

Every call either throws and leaves the publication as it was, or has one of the effects listed in
`Effect`.
-/

namespace Everett.Durability

open Methods

/-- Calls of the methods which may change a publication. -/
inductive Call
  | completeCheckpoint (candidate : MergeCheckpoint) (result : PersistenceResult)
  | completeOutput (result : PersistenceResult)
  | prepareManifest (exactId : Bytes)
  | completeManifest (result : PersistenceResult)
  | reportIoFailure
  | resume (freshGeneration : Bytes) (evidence : RecoveryEvidence)
      (retained : Option MergeCheckpoint) (selector : SelectorRecovery)
  | acceptRecoveredPublication (evidence : RecoveryEvidence)
  | releaseOldPins
  deriving DecidableEq, Repr

/-- Returned value of a call. -/
inductive Reply
  | done
  | released (first : Bool)
  deriving DecidableEq, Repr

namespace MergePublication

/-- A method without result, as a call. -/
def quietly (method : Publishing Unit) : Publishing Reply := do
  method
  pure .done

/-- The method which a call invokes. -/
def perform : Call → Publishing Reply
  | .completeCheckpoint candidate result => quietly (completeCheckpoint candidate result)
  | .completeOutput result => quietly (completeOutput result)
  | .prepareManifest exactId => quietly (prepareManifest exactId)
  | .completeManifest result => quietly (completeManifest result)
  | .reportIoFailure => quietly reportIoFailure
  | .resume fresh evidence retained selector => quietly (resume fresh evidence retained selector)
  | .acceptRecoveredPublication evidence => quietly (acceptRecoveredPublication evidence)
  | .releaseOldPins => do
      let first ← releaseOldPins
      pure (.released first)

theorem reads_requireStage (wanted : PublicationStage) : Reads (requireStage wanted) :=
  reads_get.bind fun _ => reads_require _ _

theorem reads_validateCheckpoint (candidate : MergeCheckpoint) :
    Reads (validateCheckpoint candidate) :=
  reads_get.bind fun _ => (reads_require _ _).bind fun _ => (reads_require _ _).bind fun _ =>
    (reads_evaluate _).bind fun _ => (reads_evaluate _).bind fun _ => reads_pure _

theorem reads_requireAdvance (candidate : MergeCheckpoint) (checkpoint : Option MergeCheckpoint) :
    Reads (requireAdvance candidate checkpoint) := by
  cases checkpoint with
  | none => exact reads_pure _
  | some checkpoint => exact (reads_require _ _).bind fun _ => reads_require _ _

theorem atomic_quietly {method : Publishing Unit} (atomic : Atomic method) :
    Atomic (quietly method) :=
  atomic.bind_returns fun _ => returns_pure _

/-- Every check of a method comes before its first assignment. -/
theorem perform_atomic (request : Call) : Atomic (perform request) := by
  cases request with
  | completeCheckpoint candidate result =>
      refine atomic_quietly ?_
      refine (reads_requireStage _).bind_atomic fun _ => ?_
      refine (reads_validateCheckpoint _).bind_atomic fun _ => ?_
      refine reads_get.bind_atomic fun publication => ?_
      refine (reads_require _ _).bind_atomic fun _ => ?_
      refine (reads_requireAdvance _ _).bind_atomic fun _ => ?_
      exact Atomic.ite (returns_modify _).atomic (returns_modify _).atomic
  | completeOutput result =>
      refine atomic_quietly ?_
      exact (reads_requireStage _).bind_atomic fun _ => (returns_modify _).atomic
  | prepareManifest exactId =>
      refine atomic_quietly ?_
      refine (reads_requireStage _).bind_atomic fun _ => ?_
      refine reads_get.bind_atomic fun publication => ?_
      refine (reads_require _ _).bind_atomic fun _ => ?_
      exact ((returns_modify _).bind fun _ => (returns_modify _).bind fun _ =>
        returns_modify _).atomic
  | completeManifest result =>
      refine atomic_quietly ?_
      refine (reads_requireStage _).bind_atomic fun _ => ?_
      exact Atomic.ite (returns_modify _).atomic
        ((returns_modify _).bind fun _ => returns_modify _).atomic
  | reportIoFailure =>
      refine atomic_quietly ?_
      refine reads_get.bind_atomic fun publication => ?_
      exact (reads_require _ _).bind_atomic fun _ => (returns_modify _).atomic
  | resume fresh evidence retained selector =>
      refine atomic_quietly ?_
      refine (reads_requireStage _).bind_atomic fun _ => ?_
      refine (reads_require _ _).bind_atomic fun _ => ?_
      refine reads_get.bind_atomic fun publication => ?_
      refine (reads_require _ _).bind_atomic fun _ => ?_
      refine (reads_require _ _).bind_atomic fun _ => ?_
      refine (reads_require _ _).bind_atomic fun _ => ?_
      exact ((returns_modify _).bind fun _ => (returns_modify _).bind fun _ =>
        (returns_modify _).bind fun _ => (returns_modify _).bind fun _ =>
          returns_modify _).atomic
  | acceptRecoveredPublication evidence =>
      refine atomic_quietly ?_
      refine (reads_requireStage _).bind_atomic fun _ => ?_
      refine (reads_require _ _).bind_atomic fun _ => ?_
      refine reads_get.bind_atomic fun publication => ?_
      refine (reads_require _ _).bind_atomic fun _ => ?_
      exact ((returns_modify _).bind fun _ => returns_modify _).atomic
  | releaseOldPins =>
      refine Atomic.bind_returns ?_ fun _ => returns_pure _
      refine (reads_requireStage _).bind_atomic fun _ => ?_
      refine reads_get.bind_atomic fun publication => ?_
      exact ((returns_modify _).bind fun _ => returns_pure _).atomic

/-- Progress of a checkpoint over the one before it. -/
structure Advances (checkpoint candidate : MergeCheckpoint) : Prop where
  /-- The identity of the checkpoint is new. -/
  fresh : candidate.exactId ≠ checkpoint.exactId
  records : checkpoint.outputRecords ≤ candidate.outputRecords
  work : checkpoint.completedWork ≤ candidate.completedWork
  /-- No input cursor moves backwards. -/
  cursors : List.Forall₂ (fun before after : MergeInputCursor =>
    before.inputVersion = after.inputVersion ∧ before.ordinal ≤ after.ordinal ∧
      before.byteOffset ≤ after.byteOffset) checkpoint.inputs candidate.inputs

/-- A checkpoint which belongs to a merge. -/
structure Belongs (identity : MergeIdentity) (checkpoint : MergeCheckpoint) : Prop where
  named : checkpoint.exactId ≠ []
  identity_eq : checkpoint.identity = identity
  /-- The cursors are those of the inputs, in their order. -/
  inputs_eq : checkpoint.inputs.map MergeInputCursor.inputVersion = identity.inputVersions
  /-- Sealed extents are named, verified and distinct. -/
  extents : ∀ extent ∈ checkpoint.sealedOutput, extent.exactId ≠ [] ∧ extent.checksum ≠ []
  distinct : (checkpoint.sealedOutput.map SealedMergeExtent.exactId).Nodup
  /-- The size of the sealed output is representable. -/
  size : ∃ bytes, checkpoint.sealedBytes = .ok bytes

/-- Effects of the calls which return. -/
inductive Effect (publication : MergePublication) : Call → Reply → MergePublication → Prop
  | checkpointed (candidate : MergeCheckpoint) (building : publication.stage = .building)
      (belongs : Belongs publication.identity candidate)
      (current : candidate.outputGeneration = publication.generation)
      (advances : ∀ checkpoint, publication.checkpoint = some checkpoint →
        checkpoint.inputs.map MergeInputCursor.inputVersion =
          publication.identity.inputVersions → Advances checkpoint candidate) :
      Effect publication (.completeCheckpoint candidate .durableVerified) .done
        { publication with checkpoint := some candidate }
  | checkpointLost (candidate : MergeCheckpoint) (building : publication.stage = .building) :
      Effect publication (.completeCheckpoint candidate .failure) .done
        { publication with stage := .uncertain }
  | outputSealed (building : publication.stage = .building) :
      Effect publication (.completeOutput .durableVerified) .done
        { publication with stage := .outputDurable }
  | outputLost (building : publication.stage = .building) :
      Effect publication (.completeOutput .failure) .done
        { publication with stage := .uncertain }
  | prepared (exactId : Bytes) (durable : publication.stage = .outputDurable)
      (named : exactId ≠ []) (other : exactId ≠ publication.durableManifest)
      (fresh : exactId ∉ publication.manifests) :
      Effect publication (.prepareManifest exactId) .done
        { publication with
          manifests := publication.manifests ++ [exactId]
          pendingManifest := exactId
          stage := .manifestPending }
  | acknowledged (waiting : publication.stage = .manifestPending) :
      Effect publication (.completeManifest .durableVerified) .done
        { publication with
          durableManifest := publication.pendingManifest
          stage := .published }
  | manifestLost (waiting : publication.stage = .manifestPending) :
      Effect publication (.completeManifest .failure) .done
        { publication with stage := .uncertain }
  | failed (unpublished : publication.stage ≠ .published) :
      Effect publication .reportIoFailure .done { publication with stage := .uncertain }
  | resumed (fresh : Bytes) (retained : Option MergeCheckpoint) (selector : SelectorRecovery)
      (lost : publication.stage = .uncertain)
      (reconciled : publication.pendingManifest ≠ [] → selector = .oldRootSelected)
      (named : fresh ≠ []) (unused : fresh ∉ publication.generations)
      (recognized : retained = none ∨ retained = publication.checkpoint) :
      Effect publication (.resume fresh .durableStateVerified retained selector) .done
        { publication with
          generations := publication.generations ++ [fresh]
          generation := fresh
          checkpoint := retained
          pendingManifest := []
          stage := .building }
  | recovered (lost : publication.stage = .uncertain)
      (attempted : publication.pendingManifest ≠ []) :
      Effect publication (.acceptRecoveredPublication .durableStateVerified) .done
        { publication with
          durableManifest := publication.pendingManifest
          stage := .published }
  | released (published : publication.stage = .published) :
      Effect publication .releaseOldPins (.released publication.oldPinsRetained)
        { publication with oldPinsRetained := false }

theorem requireStage_bind {wanted : PublicationStage} {next : Unit → Publishing Unit}
    {publication after : MergePublication} :
    call (requireStage wanted >>= next) publication = (.ok (), after) ↔
      publication.stage = wanted ∧ call (next ()) publication = (.ok (), after) := by
  unfold requireStage
  rw [bind_assoc, call_get_bind, require_bind_eq_ok]

/-- Versions compared position by position are the versions of the cursors. -/
theorem cursors_eq {inputs : List MergeInputCursor} {versions : List Bytes}
    (length : inputs.length = versions.length)
    (each : ∀ pair ∈ inputs.zip versions, pair.1.inputVersion = pair.2) :
    inputs.map MergeInputCursor.inputVersion = versions := by
  induction inputs generalizing versions with
  | nil => exact (List.length_eq_zero_iff.mp length.symm).symm
  | cons cursor inputs induction =>
      cases versions with
      | nil => cases length
      | cons version versions =>
          have first : cursor.inputVersion = version := each (cursor, version) (by simp)
          rw [List.map_cons, first, induction (Nat.succ.inj length)
            fun pair member => each pair (by simp [member])]

theorem validateCheckpoint_ok {candidate : MergeCheckpoint} {publication after : MergePublication}
    (valid : call (validateCheckpoint candidate) publication = (.ok (), after)) :
    Belongs publication.identity candidate := by
  unfold validateCheckpoint at valid
  simp only [call_get_bind, require_bind_eq_ok, (reads_evaluate _).bind_eq_ok, call_evaluate,
    Prod.mk.injEq, and_true] at valid
  obtain ⟨⟨named, same, length⟩, versions, _, scanned, bytes, size, -⟩ := valid
  obtain ⟨present, distinct, -⟩ := distinctLoop_eq_ok.mp scanned
  exact
    { named := named
      identity_eq := same
      inputs_eq := cursors_eq length versions
      extents := fun extent member => by simpa using present extent member
      distinct := distinct
      size := ⟨bytes, size⟩ }

/-- Cursors of the same inputs which do not move backwards. -/
theorem cursors_advance {before after : List MergeInputCursor}
    (versions : before.map MergeInputCursor.inputVersion = after.map MergeInputCursor.inputVersion)
    (forward : ∀ pair ∈ after.zip before,
      ¬(pair.1.ordinal < pair.2.ordinal ∨ pair.1.byteOffset < pair.2.byteOffset)) :
    List.Forall₂ (fun before after : MergeInputCursor =>
      before.inputVersion = after.inputVersion ∧ before.ordinal ≤ after.ordinal ∧
        before.byteOffset ≤ after.byteOffset) before after := by
  induction before generalizing after with
  | nil =>
      cases List.map_eq_nil_iff.mp versions.symm
      exact .nil
  | cons cursor before induction =>
      cases after with
      | nil => cases versions
      | cons next after =>
          rw [List.map_cons, List.map_cons, List.cons.injEq] at versions
          have first := forward (next, cursor) (by simp)
          rw [not_or, UInt64.not_lt, UInt64.not_lt] at first
          exact .cons ⟨versions.1, first⟩
            (induction versions.2 fun pair member => forward pair (by simp [member]))

theorem requireAdvance_ok {candidate checkpoint : MergeCheckpoint}
    {publication after : MergePublication}
    (advances : call (requireAdvance candidate (some checkpoint)) publication = (.ok (), after))
    (versions : checkpoint.inputs.map MergeInputCursor.inputVersion =
      candidate.inputs.map MergeInputCursor.inputVersion) : Advances checkpoint candidate := by
  unfold requireAdvance at advances
  rw [require_bind_eq_ok, require_eq_ok] at advances
  obtain ⟨further, forward, -⟩ := advances
  rw [not_or, not_or, UInt64.not_lt, UInt64.not_lt] at further
  exact
    { fresh := further.1
      records := further.2.1
      work := further.2.2
      cursors := cursors_advance versions forward }

theorem quietly_ok {method : Publishing Unit} {publication after : MergePublication}
    {reply : Reply} (answers : call (quietly method) publication = (.ok reply, after)) :
    reply = .done ∧ call method publication = (.ok (), after) := by
  obtain ⟨_, _, called, replied⟩ := bind_eq_ok.mp answers
  cases replied
  exact ⟨rfl, called⟩

/-- The calls which return are the listed effects. -/
theorem perform_effect {request : Call} {publication after : MergePublication} {reply : Reply}
    (answers : call (perform request) publication = (.ok reply, after)) :
    Effect publication request reply after := by
  cases request with
  | completeCheckpoint candidate result =>
      obtain ⟨rfl, called⟩ := quietly_ok answers
      unfold completeCheckpoint at called
      simp only [requireStage_bind, (reads_validateCheckpoint _).bind_eq_ok, call_get_bind,
        require_bind_eq_ok, (reads_requireAdvance _ _).bind_eq_ok] at called
      obtain ⟨building, _, valid, current, _, advances, stored⟩ := called
      have belongs := validateCheckpoint_ok valid
      cases result with
      | failure =>
          cases stored
          exact .checkpointLost candidate building
      | durableVerified =>
          cases stored
          refine .checkpointed candidate building belongs current fun checkpoint prior versions => ?_
          rw [prior] at advances
          exact requireAdvance_ok advances (versions.trans belongs.inputs_eq.symm)
  | completeOutput result =>
      obtain ⟨rfl, called⟩ := quietly_ok answers
      obtain ⟨building, stored⟩ := Iff.mp requireStage_bind called
      cases stored
      cases result with
      | failure => exact .outputLost building
      | durableVerified => exact .outputSealed building
  | prepareManifest exactId =>
      obtain ⟨rfl, called⟩ := quietly_ok answers
      unfold prepareManifest at called
      simp only [requireStage_bind, call_get_bind, require_bind_eq_ok, not_or] at called
      obtain ⟨durable, ⟨named, other, fresh⟩, stored⟩ := called
      cases stored
      exact .prepared exactId durable named other fresh
  | completeManifest result =>
      obtain ⟨rfl, called⟩ := quietly_ok answers
      obtain ⟨waiting, stored⟩ := Iff.mp requireStage_bind called
      cases result with
      | failure =>
          cases stored
          exact .manifestLost waiting
      | durableVerified =>
          cases stored
          exact .acknowledged waiting
  | reportIoFailure =>
      obtain ⟨rfl, called⟩ := quietly_ok answers
      unfold reportIoFailure at called
      simp only [call_get_bind, require_bind_eq_ok] at called
      obtain ⟨unpublished, stored⟩ := called
      cases stored
      exact .failed unpublished
  | resume fresh evidence retained selector =>
      obtain ⟨rfl, called⟩ := quietly_ok answers
      unfold resume requireEvidence at called
      simp only [requireStage_bind, call_get_bind, require_bind_eq_ok, not_or] at called
      obtain ⟨lost, rfl, reconciled, ⟨named, unused⟩, recognized, stored⟩ := called
      cases stored
      refine .resumed fresh retained selector lost (fun attempted => ?_) named unused ?_
      · by_contra unresolved
        exact reconciled ⟨attempted, unresolved⟩
      · cases retained with
        | none => exact .inl rfl
        | some checkpoint =>
            simp only [Option.isSome_some, true_and, not_or, not_not] at recognized
            exact .inr recognized.2
  | acceptRecoveredPublication evidence =>
      obtain ⟨rfl, called⟩ := quietly_ok answers
      unfold acceptRecoveredPublication requireEvidence at called
      simp only [requireStage_bind, call_get_bind, require_bind_eq_ok] at called
      obtain ⟨lost, rfl, attempted, stored⟩ := called
      cases stored
      exact .recovered lost attempted
  | releaseOldPins =>
      obtain ⟨_, _, called, replied⟩ := bind_eq_ok.mp answers
      unfold releaseOldPins requireStage at called
      simp only [bind_assoc, call_get_bind, require_bind_eq_ok] at called
      obtain ⟨published, stored⟩ := called
      cases stored
      cases replied
      exact .released published

end MergePublication

end Everett.Durability

import Everett.Connection.Engine

/-!
# Publications in sequence

The publications of an engine are the sequential application of what they were for.  A world has the
logical identity of the current one exactly when nothing but maintenance was published since.
-/

namespace Everett

variable {R C I X V : Type}

/-- What a world says: the values of all keys, how many are live, and the signature. -/
structure LogicalState (V : Type) where
  values : V
  liveCount : UInt64
  signature : UInt64

/-- The logical state of a world, by the values which a runtime holds. -/
def TypedWorld.logicalState (values : R → V) (world : TypedWorld R) : LogicalState V :=
  ⟨values world.runtime, world.metadata.liveCount, world.metadata.signature⟩

/-- A world as it is read back from storage. -/
def CoreOps.stored (ops : CoreOps R C I X) (world : TypedWorld R) : TypedWorld R :=
  ⟨ops.mapped world.runtime, world.metadata⟩

/-- What a core does with a contribution, where it accepts it. -/
abbrev Applies (I V : Type) := I → LogicalState V → Option (LogicalState V)

/-- Apply contributions in order. -/
def Applies.all (apply : Applies I V) (edits : List I) (state : LogicalState V) :
    Option (LogicalState V) :=
  edits.foldlM (fun state edit => apply edit state) state

theorem Applies.all_append (apply : Applies I V) (edits : List I) (edit : I)
    (state : LogicalState V) :
    apply.all (edits ++ [edit]) state = (apply.all edits state).bind (apply edit) := by
  rw [all, all, List.foldlM_append]
  cases edits.foldlM (fun state edit => apply edit state) state with
  | none => rfl
  | some middle => exact bind_pure (apply edit middle)

/-- The contract of a core.  A core which has not failed is valid.  Rejecting a contribution without
failing leaves its world as it was; service brings equivalent layouts; and a sound world can be read
back from storage. -/
structure CoreContract (ops : CoreOps R C I X) (values : R → V) (apply : Applies I V)
    (schema : List UInt8) (valid : C → Prop) (sound : TypedWorld R → Prop) : Prop where
  sound_snapshot : ∀ {c}, valid c → sound (ops.snapshot c)
  sound_stored : ∀ {world}, sound world → sound (ops.stored world)
  schema_eq : ∀ {world}, sound world → world.metadata.schemaId = schema
  counted : ∀ {world}, sound world →
    world.metadata.liveCount.toNat ≤ ops.admissions (ops.mapped world.runtime)
  mapped_values : ∀ {world}, sound world → values (ops.mapped world.runtime) = values world.runtime
  contribute_ok : ∀ {c c' input world}, valid c → ops.failed c = false →
    ops.contribute c input = (.ok world, c') → valid c' ∧ ops.failed c' = false ∧
      ops.snapshot c' = world ∧
      apply input ((ops.snapshot c).logicalState values) = some (world.logicalState values)
  contribute_error : ∀ {c c' input error}, valid c → ops.failed c = false →
    ops.contribute c input = (.error error, c') → ops.failed c' = false →
      valid c' ∧ (ops.snapshot c').logicalState values = (ops.snapshot c).logicalState values
  empty : ∀ {input}, ops.isEmpty input = true → ∀ state, apply input state = some state
  advance_none : ∀ {c c' budget}, valid c → ops.failed c = false →
    ops.advance c budget = (.ok none, c') → valid c' ∧ ops.failed c' = false ∧
      (ops.snapshot c').logicalState values = (ops.snapshot c).logicalState values
  advance_some : ∀ {c c' budget world}, valid c → ops.failed c = false →
    ops.advance c budget = (.ok (some world), c') → valid c' ∧ ops.failed c' = false ∧
      ops.snapshot c' = world ∧
      values world.runtime = values (ops.snapshot c).runtime ∧
      world.metadata = (ops.snapshot c).metadata
  rebase_ok : ∀ {c}, valid c → ops.failed c = false → ops.pending c = false →
    ∃ c', ops.rebase c (ops.stored (ops.snapshot c)) = .ok c' ∧ valid c' ∧
      ops.failed c' = false ∧ ops.snapshot c' = ops.stored (ops.snapshot c)
  fromSnapshot_ok : ∀ {world c}, sound world → ops.fromSnapshot world = .ok c →
    valid c ∧ ops.failed c = false ∧ ops.snapshot c = world

theorem CoreContract.stored_logicalState {ops : CoreOps R C I X} {values : R → V}
    {apply : Applies I V} {schema : List UInt8} {valid : C → Prop} {sound : TypedWorld R → Prop}
    (contract : CoreContract ops values apply schema valid sound) {world : TypedWorld R}
    (is_sound : sound world) :
    (ops.stored world).logicalState values = world.logicalState values := by
  rw [TypedWorld.logicalState, TypedWorld.logicalState, ← contract.mapped_values is_sound]
  rfl

/-! ## Transactions -/

/-- Cores which a transaction over a published world can come to: its own, or that of a branch from
one of its snapshots. -/
inductive Candidate (ops : CoreOps R C I X) (base : StoredWorld R) : C → List I → Prop
  | start {c : C} (restored : ops.fromSnapshot base.world = .ok c) : Candidate ops base c []
  | branch {c c' : C} {edits : List I} (flushed : Candidate ops base c edits)
      (restored : ops.fromSnapshot (ops.snapshot c) = .ok c') : Candidate ops base c' edits
  | advance {c c' : C} {edits : List I} {budget : Nat} {result : Option (TypedWorld R)}
      (before : Candidate ops base c edits) (served : ops.advance c budget = (.ok result, c')) :
      Candidate ops base c' edits
  | contribute {c c' : C} {edits : List I} {input : I} {world : TypedWorld R}
      (before : Candidate ops base c edits)
      (accepted : ops.contribute c input = (.ok world, c')) :
      Candidate ops base c' (edits ++ [input])

/-- What a transaction can submit. -/
def PreparedTransaction.Prepared (ops : CoreOps R C I X) (tx : PreparedTransaction R C I) : Prop :=
  match tx.core with
  | none => tx.edits = []
  | some core => Candidate ops tx.base core tx.edits

section
variable {ops : CoreOps R C I X} {values : R → V} {apply : Applies I V} {schema : List UInt8}
  {valid : C → Prop} {sound : TypedWorld R → Prop}

/-- A candidate holds the edits of its transaction, applied to its base. -/
theorem Candidate.applied (contract : CoreContract ops values apply schema valid sound)
    {base : StoredWorld R} (is_sound : sound base.world) {core : C} {edits : List I}
    (candidate : Candidate ops base core edits) :
    valid core ∧ ops.failed core = false ∧ apply.all edits (base.world.logicalState values) =
      some ((ops.snapshot core).logicalState values) := by
  induction candidate with
  | start restored =>
      obtain ⟨is_valid, healthy, same⟩ := contract.fromSnapshot_ok is_sound restored
      refine ⟨is_valid, healthy, ?_⟩
      rw [same]
      rfl
  | branch _ restored induction =>
      obtain ⟨was_valid, -, applied⟩ := induction
      obtain ⟨is_valid, healthy, same⟩ :=
        contract.fromSnapshot_ok (contract.sound_snapshot was_valid) restored
      refine ⟨is_valid, healthy, ?_⟩
      rw [applied, same]
  | @advance c c' edits budget result _ served induction =>
      obtain ⟨was_valid, was_healthy, applied⟩ := induction
      cases result with
      | none =>
          obtain ⟨is_valid, healthy, same⟩ := contract.advance_none was_valid was_healthy served
          refine ⟨is_valid, healthy, ?_⟩
          rw [applied, same]
      | some world =>
          obtain ⟨is_valid, healthy, snapshot, same_values, same_metadata⟩ :=
            contract.advance_some was_valid was_healthy served
          refine ⟨is_valid, healthy, ?_⟩
          rw [applied, snapshot, TypedWorld.logicalState, TypedWorld.logicalState, same_values,
            same_metadata]
  | contribute _ accepted induction =>
      obtain ⟨was_valid, was_healthy, applied⟩ := induction
      obtain ⟨is_valid, healthy, snapshot, step⟩ :=
        contract.contribute_ok was_valid was_healthy accepted
      refine ⟨is_valid, healthy, ?_⟩
      rw [apply.all_append, applied, Option.bind_some, step, snapshot]

end

/-! ## Sequences of publications -/

/-- How a publication changes the logical state. -/
def Publication.Effect (apply : Applies I V) (before after : LogicalState V) :
    Publication I → Prop
  | .created => False
  | .contribution input => apply input before = some after
  | .transaction edits => apply.all edits before = some after
  | .maintenance => after = before

/-- Publications, newest first, each the effect of its purpose on the one before. -/
def Sequential (values : R → V) (apply : Applies I V) :
    List (Publication I × StoredWorld R) → Prop
  | [] => False
  | [(purpose, _)] => match purpose with
      | .created => True
      | _ => False
  | (purpose, world) :: (purpose', previous) :: rest =>
      purpose.Effect apply (previous.world.logicalState values) (world.world.logicalState values) ∧
      world.head.version = previous.head.version + 1 ∧
      (if purpose.mutation then
        ∀ entry ∈ (purpose', previous) :: rest, entry.2.logical < world.logical
      else world.logical = previous.logical) ∧
      Sequential values apply ((purpose', previous) :: rest)

namespace Sequential

variable {values : R → V} {apply : Applies I V}

/-- Versions count up. -/
theorem version_lt {newest : Publication I × StoredWorld R}
    {older : List (Publication I × StoredWorld R)}
    (sequential : Sequential values apply (newest :: older)) :
    ∀ entry ∈ older, entry.2.head.version < newest.2.head.version := by
  induction older generalizing newest with
  | nil => nofun
  | cons previous rest induction =>
      obtain ⟨-, version, -, before⟩ := sequential
      intro entry member
      rcases List.mem_cons.mp member with rfl | deep
      · omega
      · exact (induction before entry deep).trans (version ▸ Nat.lt_succ_self _)

/-- Only maintenance was published after a world. -/
def Undisturbed (published : List (Publication I × StoredWorld R)) (base : StoredWorld R) : Prop :=
  ∀ entry ∈ published, base.head.version < entry.2.head.version → entry.1.mutation = false

/-- A world has the identity of the newest one when only maintenance was published since; then it
says the same. -/
theorem logical_eq_iff {newest : Publication I × StoredWorld R}
    {older : List (Publication I × StoredWorld R)}
    (sequential : Sequential values apply (newest :: older)) {purpose : Publication I}
    {base : StoredWorld R} (member : (purpose, base) ∈ newest :: older) :
    (base.logical = newest.2.logical ↔ Undisturbed (newest :: older) base) ∧
    (base.logical = newest.2.logical →
      base.world.logicalState values = newest.2.world.logicalState values) := by
  induction older generalizing newest with
  | nil =>
      cases List.mem_singleton.mp member
      refine ⟨⟨fun _ entry only => ?_, fun _ => rfl⟩, fun _ => rfl⟩
      cases List.mem_singleton.mp only
      exact fun impossible => absurd impossible (Nat.lt_irrefl _)
  | cons previous rest induction =>
      have lower := sequential.version_lt
      obtain ⟨effect, version, identity, before⟩ := sequential
      rcases List.mem_cons.mp member with rfl | deep
      · refine ⟨⟨fun _ entry any => ?_, fun _ => rfl⟩, fun _ => rfl⟩
        intro later
        rcases List.mem_cons.mp any with rfl | old
        · exact absurd later (Nat.lt_irrefl _)
        · exact absurd later (lower entry old).asymm
      · have older_version := lower _ deep
        obtain ⟨same_iff, same_state⟩ := induction before deep
        split_ifs at identity with mutation
        · have smaller := identity _ deep
          refine ⟨⟨fun same => absurd same smaller.ne, fun undisturbed => ?_⟩,
            fun same => absurd same smaller.ne⟩
          have quiet := undisturbed newest List.mem_cons_self older_version
          rw [mutation] at quiet
          cases quiet
        · rw [identity, same_iff]
          refine ⟨⟨fun undisturbed entry any later => ?_, fun undisturbed entry old =>
            undisturbed entry (List.mem_cons_of_mem _ old)⟩, fun undisturbed => ?_⟩
          · rcases List.mem_cons.mp any with rfl | old
            · exact Bool.eq_false_of_not_eq_true mutation
            · exact undisturbed entry old later
          · rw [same_state (same_iff.mpr undisturbed)]
            obtain ⟨purpose, world⟩ := newest
            cases purpose with
            | maintenance => exact effect.symm
            | _ => exact absurd rfl mutation

end Sequential

end Everett

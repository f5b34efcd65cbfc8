import Everett.Connection.Serial

/-!
# Optimistic transactions

A transaction is installed exactly when nothing but maintenance was published since its base.  An
engine only ever publishes the next world of the sequence.
-/

namespace Everett

open PersistentEngine

variable {R C I X V : Type}

/-- Steps of an engine: contributions, transactions over any published world, and service. -/
inductive EngineStep (ops : CoreOps R C I X) :
    PersistentEngine R C I → PersistentEngine R C I → Prop
  | contribute (e : PersistentEngine R C I) (input : I) :
      EngineStep ops e (e.contributeOrdinary ops input).2
  | install (e : PersistentEngine R C I) {tx : PreparedTransaction R C I}
      (prepared : tx.Prepared ops) (published : tx.base ∈ e.published.map Prod.snd) :
      EngineStep ops e (e.install ops tx).2
  | advance (e : PersistentEngine R C I) (budget : Nat) : EngineStep ops e (e.advance ops budget).2

/-- An engine which has just connected to a session with a world. -/
def PersistentEngine.connected (world : StoredWorld R) (core : C) : PersistentEngine R C I where
  catalog := world.head
  storeFailed := false
  core
  current := world
  schema := world.world.metadata.schemaId
  failed := false
  identities := world.logical + 1
  published := [(.created, world)]

/-- Engines which any steps can lead to from a sound world. -/
def PersistentEngine.Reachable (ops : CoreOps R C I X) (sound : TypedWorld R → Prop)
    (e : PersistentEngine R C I) : Prop :=
  ∃ world core, sound world.world ∧ ops.fromSnapshot world.world = .ok core ∧
    Relation.ReflTransGen (EngineStep ops) (connected world core) e

/-- What an engine has published, and where the catalog stands. -/
structure PersistentEngine.Records (values : R → V) (apply : Applies I V) (schema : List UInt8)
    (sound : TypedWorld R → Prop) (e : PersistentEngine R C I) : Prop where
  sequential : Sequential values apply e.published
  newest : ∃ purpose older, e.published = (purpose, e.current) :: older
  catalog : e.catalog.version = e.current.head.version
  store : e.storeFailed = false
  schema_eq : e.schema = schema
  fresh : ∀ entry ∈ e.published, entry.2.logical < e.identities
  sound_published : ∀ entry ∈ e.published, sound entry.2.world

/-- What holds of an engine at all times. -/
structure PersistentEngine.Inv (ops : CoreOps R C I X) (values : R → V) (apply : Applies I V)
    (schema : List UInt8) (valid : C → Prop) (sound : TypedWorld R → Prop)
    (e : PersistentEngine R C I) : Prop where
  records : e.Records values apply schema sound
  core : e.failed = false → ops.failed e.core = false → valid e.core ∧
    (ops.snapshot e.core).logicalState values = e.current.world.logicalState values

section
variable {ops : CoreOps R C I X} {values : R → V} {apply : Applies I V} {schema : List UInt8}
  {valid : C → Prop} {sound : TypedWorld R → Prop} {e : PersistentEngine R C I}

/-- A healthy core can go on with a world which it has just published. -/
theorem settle_ok (contract : CoreContract ops values apply schema valid sound) {core : C}
    (is_valid : valid core) (healthy : ops.failed core = false) :
    ∃ core', settle ops core (ops.stored (ops.snapshot core)) = .ok core' ∧ valid core' ∧
      ops.failed core' = false ∧
      (ops.snapshot core').logicalState values = (ops.snapshot core).logicalState values := by
  unfold settle
  by_cases pending : ops.pending core = true
  · rw [if_pos pending]
    exact ⟨core, rfl, is_valid, healthy, rfl⟩
  · rw [if_neg pending]
    obtain ⟨core', rebased, is_valid', healthy', snapshot⟩ :=
      contract.rebase_ok is_valid healthy (Bool.eq_false_of_not_eq_true pending)
    rw [rebased]
    refine ⟨core', rfl, is_valid', healthy', ?_⟩
    rw [snapshot, contract.stored_logicalState (contract.sound_snapshot is_valid)]

/-- The records do not depend on the core. -/
theorem PersistentEngine.Records.with_core (records : e.Records values apply schema sound)
    (core : C) (failed : Bool) :
    ({ e with core, failed } : PersistentEngine R C I).Records values apply schema sound :=
  ⟨records.sequential, records.newest, records.catalog, records.store, records.schema_eq,
    records.fresh, records.sound_published⟩

/-- A world which follows is published. -/
theorem PersistentEngine.Records.goOn (records : e.Records values apply schema sound)
    {purpose : Publication I} {world : StoredWorld R} (is_sound : sound world.world)
    (version : world.head.version = e.current.head.version + 1)
    (logical : world.logical = e.identity purpose)
    (effect : purpose.Effect apply (e.current.world.logicalState values)
      (world.world.logicalState values)) (core : C) :
    ({ e with catalog := world.head }.goOn core purpose world).Records values apply schema
      sound := by
  obtain ⟨purpose', older, published⟩ := records.newest
  refine ⟨?_, ⟨purpose, e.published, rfl⟩, rfl, records.store, records.schema_eq, ?_, ?_⟩
  · change Sequential values apply ((purpose, world) :: e.published)
    have sequential := records.sequential
    have fresh := records.fresh
    rw [published] at sequential fresh ⊢
    refine ⟨effect, version, ?_, sequential⟩
    rw [logical, identity]
    split_ifs with mutation
    · exact fresh
    · rfl
  · intro entry member
    rcases List.mem_cons.mp member with rfl | old
    · exact Nat.lt_of_lt_of_le (Nat.lt_succ_self _) (Nat.le_max_right _ _)
    · exact Nat.lt_of_lt_of_le (records.fresh entry old) (Nat.le_max_left _ _)
  · intro entry member
    rcases List.mem_cons.mp member with rfl | old
    · exact is_sound
    · exact records.sound_published entry old

/-- Publishing the world of a valid core succeeds, and the engine goes on with that world. -/
theorem PersistentEngine.Records.publish (records : e.Records values apply schema sound)
    (named : schema ≠ []) (contract : CoreContract ops values apply schema valid sound)
    {core : C} (is_valid : valid core) (healthy : ops.failed core = false)
    {purpose : Publication I}
    (effect : purpose.Effect apply (e.current.world.logicalState values)
      ((ops.snapshot core).logicalState values)) :
    ∃ world e', e.publish ops core (ops.snapshot core) purpose = (.ok world, e') ∧
      e'.Inv ops values apply schema valid sound ∧ e'.isFailed ops = e.failed ∧
      e'.current = world ∧ e'.published = (purpose, world) :: e.published ∧
      world.world.logicalState values = (ops.snapshot core).logicalState values := by
  have is_sound := contract.sound_snapshot is_valid
  have schema_snapshot := contract.schema_eq is_sound
  obtain ⟨semantic, encoded, decoded⟩ :=
    TypedMetadata.encode_ok (X := X) (schema_snapshot ▸ named)
  obtain ⟨core', settled, is_valid', healthy', state⟩ := settle_ok contract is_valid healthy
  let head : SessionHead R :=
    ⟨e.current.head.version + 1, ops.mapped (ops.snapshot core).runtime, semantic⟩
  let world : StoredWorld R := ⟨ops.stored (ops.snapshot core), head, e.identity purpose⟩
  have stored : e.storePublish ops e.current.head (ops.snapshot core).runtime semantic =
      (.ok head, { e with catalog := head }) := by
    rw [storePublish, if_neg (by simp [records.store]), if_pos records.catalog]
  have restored : restore ops head e.schema (e.identity purpose) = .ok world := by
    have counted := contract.counted is_sound
    rw [restore, decoded]
    dsimp only
    rw [if_neg]
    · rfl
    · rw [records.schema_eq, schema_snapshot]
      rintro (unnamed | other | few)
      · exact named unnamed
      · exact other rfl
      · exact absurd few counted.not_gt
  have exchanged : e.exchange ops (ops.snapshot core) (e.identity purpose) =
      (.ok world, { e with catalog := head }) := by
    unfold exchange
    rw [encoded]
    dsimp only
    rw [stored]
    dsimp only
    rw [restored]
  have published : e.publish ops core (ops.snapshot core) purpose =
      (.ok world, { e with catalog := head }.goOn core' purpose world) := by
    unfold PersistentEngine.publish
    rw [exchanged]
    dsimp only
    rw [settled]
  have stored_state : world.world.logicalState values = (ops.snapshot core).logicalState values :=
    contract.stored_logicalState is_sound
  refine ⟨world, _, published, ⟨?_, fun _ _ => ⟨is_valid', state.trans stored_state.symm⟩⟩, ?_, rfl,
    rfl, stored_state⟩
  · exact records.goOn (contract.sound_stored is_sound) rfl rfl (stored_state.symm ▸ effect) core'
  · change (e.failed || ops.failed core' || e.storeFailed) = e.failed
    rw [healthy', records.store, Bool.or_false, Bool.or_false]

theorem isFailed_eq_false : e.isFailed ops = false ↔
    e.failed = false ∧ ops.failed e.core = false ∧ e.storeFailed = false := by
  unfold isFailed
  rw [Bool.or_eq_false_iff, Bool.or_eq_false_iff, and_assoc]

/-- A failed engine keeps its records. -/
theorem PersistentEngine.Records.poisoned (records : e.Records values apply schema sound)
    (core : C) : ({ e with core }.poison ops).Inv ops values apply schema valid sound :=
  ⟨records.with_core (ops.poison core) true, nofun⟩

/-- What comes of asking an engine for a publication: an error, the current world where that is what
was asked for, or the next world of the sequence. -/
inductive Answer (values : R → V) (apply : Applies I V) (purpose : Publication I)
    (e e' : PersistentEngine R C I) : Except (EngineError X) (StoredWorld R) → Prop
  | refused (error : EngineError X) (published : e'.published = e.published)
      (current : e'.current = e.current) : Answer values apply purpose e e' (.error error)
  | kept (published : e'.published = e.published) (current : e'.current = e.current)
      (effect : purpose.Effect apply (e.current.world.logicalState values)
        (e.current.world.logicalState values)) :
      Answer values apply purpose e e' (.ok e.current)
  | published (world : StoredWorld R) (published : e'.published = (purpose, world) :: e.published)
      (current : e'.current = world) : Answer values apply purpose e e' (.ok world)

theorem PersistentEngine.Inv.contributeOrdinary (inv : e.Inv ops values apply schema valid sound)
    (named : schema ≠ []) (contract : CoreContract ops values apply schema valid sound)
    (input : I) :
    (e.contributeOrdinary ops input).2.Inv ops values apply schema valid sound ∧
      Answer values apply (.contribution input) e (e.contributeOrdinary ops input).2
        (e.contributeOrdinary ops input).1 := by
  unfold PersistentEngine.contributeOrdinary
  by_cases inactive : e.isFailed ops = true
  · rw [if_pos inactive]
    exact ⟨inv, .refused _ rfl rfl⟩
  rw [if_neg inactive]
  obtain ⟨working, healthy, -⟩ := isFailed_eq_false.mp (Bool.eq_false_of_not_eq_true inactive)
  obtain ⟨is_valid, state⟩ := inv.core working healthy
  match contributed : ops.contribute e.core input with
  | (.error error, core) =>
      refine ⟨?_, ?_⟩
      · dsimp only
        split_ifs with failed
        · exact inv.records.poisoned core
        · obtain ⟨is_valid', same⟩ := contract.contribute_error is_valid healthy contributed
            (Bool.eq_false_of_not_eq_true failed)
          exact ⟨inv.records.with_core core e.failed, fun _ _ => ⟨is_valid', same.trans state⟩⟩
      · refine .refused _ ?_ ?_ <;> dsimp only <;> split_ifs <;> rfl
  | (.ok updated, core) =>
      obtain ⟨is_valid', healthy', rfl, applied⟩ :=
        contract.contribute_ok is_valid healthy contributed
      rw [state] at applied
      have effect : (Publication.contribution input).Effect apply _ _ := applied
      dsimp only
      by_cases same : unchanged ops (if ops.isEmpty input = true then some (ops.snapshot e.core)
          else none) (ops.snapshot core) = true
      · rw [if_pos same]
        have nothing : ops.isEmpty input = true := by
          by_contra some_records
          rw [if_neg some_records] at same
          cases same
        have unmoved := contract.empty nothing (e.current.world.logicalState values)
        refine ⟨⟨inv.records.with_core core e.failed, fun _ _ => ⟨is_valid', ?_⟩⟩,
          .kept rfl rfl unmoved⟩
        rw [unmoved] at applied
        exact (Option.some.inj applied).symm
      · rw [if_neg same]
        obtain ⟨world, e', published, inv', -, current, history, -⟩ :=
          (inv.records.with_core core e.failed).publish named contract is_valid' healthy' effect
        rw [published]
        exact ⟨inv', .published world history current⟩

/-- An engine installs what was prepared from the state which it is in, and refuses anything
else. -/
theorem PersistentEngine.Inv.install (inv : e.Inv ops values apply schema valid sound)
    (named : schema ≠ []) (contract : CoreContract ops values apply schema valid sound)
    {tx : PreparedTransaction R C I} (prepared : tx.Prepared ops)
    (published : tx.base ∈ e.published.map Prod.snd) (active : e.isFailed ops = false) :
    (¬ Sequential.Undisturbed e.published tx.base → e.install ops tx = (.error .conflict, e)) ∧
    (Sequential.Undisturbed e.published tx.base → ∃ world,
      (e.install ops tx).1 = .ok world ∧
      (e.install ops tx).2.Inv ops values apply schema valid sound ∧
      (e.install ops tx).2.isFailed ops = false ∧
      Answer values apply (.transaction tx.edits) e (e.install ops tx).2 (e.install ops tx).1 ∧
      apply.all tx.edits (tx.base.world.logicalState values) =
        some (world.world.logicalState values)) := by
  obtain ⟨⟨purpose, base⟩, member, same⟩ := List.mem_map.mp published
  change base = tx.base at same
  subst same
  obtain ⟨newest, older, history⟩ := inv.records.newest
  have is_sound := inv.records.sound_published _ member
  have sequential := inv.records.sequential
  rw [history] at sequential member
  obtain ⟨same_iff, same_state⟩ := sequential.logical_eq_iff member
  rw [← history] at same_iff
  obtain ⟨working, -, -⟩ := isFailed_eq_false.mp active
  unfold PersistentEngine.install
  rw [active, if_neg Bool.false_ne_true]
  refine ⟨fun disturbed => ?_, fun undisturbed => ?_⟩
  · rw [if_pos]
    exact fun identical => disturbed (same_iff.mp identical)
  · have identical := same_iff.mpr undisturbed
    have state := same_state identical
    rw [if_neg (not_not.mpr identical)]
    match candidate_eq : tx.core with
    | none =>
        have no_edits : tx.edits = [] := by
          unfold PreparedTransaction.Prepared at prepared
          rwa [candidate_eq] at prepared
        rw [no_edits]
        exact ⟨e.current, rfl, inv, active, .kept rfl rfl rfl, congrArg some state⟩
    | some core =>
        have candidate : Candidate ops tx.base core tx.edits := by
          unfold PreparedTransaction.Prepared at prepared
          rwa [candidate_eq] at prepared
        obtain ⟨is_valid, healthy, applied⟩ := candidate.applied contract is_sound
        have effect : (Publication.transaction tx.edits).Effect apply
            (e.current.world.logicalState values) ((ops.snapshot core).logicalState values) :=
          state ▸ applied
        obtain ⟨world, e', published, inv', active', current, history, result⟩ :=
          inv.records.publish named contract is_valid healthy effect
        dsimp only
        rw [published]
        exact ⟨world, rfl, inv', active'.trans working, .published world history current,
          result ▸ applied⟩

/-- Service publishes nothing but equivalent layouts. -/
theorem PersistentEngine.Inv.advance (inv : e.Inv ops values apply schema valid sound)
    (named : schema ≠ []) (contract : CoreContract ops values apply schema valid sound)
    (budget : Nat) :
    (e.advance ops budget).2.Inv ops values apply schema valid sound ∧
      (∀ world, (e.advance ops budget).1 = .ok (some world) →
        (e.advance ops budget).2.published = (.maintenance, world) :: e.published ∧
        (e.advance ops budget).2.current = world ∧
        world.world.logicalState values = e.current.world.logicalState values) ∧
      ((∀ world, (e.advance ops budget).1 ≠ .ok (some world)) →
        (e.advance ops budget).2.published = e.published ∧
        (e.advance ops budget).2.current = e.current) := by
  unfold PersistentEngine.advance
  by_cases inactive : e.isFailed ops = true
  · rw [if_pos inactive]
    exact ⟨inv, nofun, fun _ => ⟨rfl, rfl⟩⟩
  rw [if_neg inactive]
  obtain ⟨working, healthy, -⟩ := isFailed_eq_false.mp (Bool.eq_false_of_not_eq_true inactive)
  obtain ⟨is_valid, state⟩ := inv.core working healthy
  match served : ops.advance e.core budget with
  | (.error error, core) => exact ⟨inv.records.poisoned core, nofun, fun _ => ⟨rfl, rfl⟩⟩
  | (.ok none, core) =>
      obtain ⟨is_valid', healthy', same⟩ := contract.advance_none is_valid healthy served
      exact ⟨⟨inv.records.with_core core e.failed, fun _ _ => ⟨is_valid', same.trans state⟩⟩, nofun,
        fun _ => ⟨rfl, rfl⟩⟩
  | (.ok (some updated), core) =>
      obtain ⟨is_valid', healthy', rfl, same_values, same_metadata⟩ :=
        contract.advance_some is_valid healthy served
      have effect : (Publication.maintenance : Publication I).Effect apply
          (e.current.world.logicalState values) ((ops.snapshot core).logicalState values) := by
        change _ = _
        rw [← state, TypedWorld.logicalState, TypedWorld.logicalState, same_values, same_metadata]
      obtain ⟨world, e', published, inv', -, current, history, result⟩ :=
        (inv.records.with_core core e.failed).publish named contract is_valid' healthy' effect
      dsimp only
      rw [published]
      refine ⟨inv', fun other same => ?_, fun nothing => absurd rfl (nothing world)⟩
      cases same
      exact ⟨history, current, result.trans effect⟩

theorem PersistentEngine.Inv.connected (contract : CoreContract ops values apply schema valid sound)
    {world : StoredWorld R} (is_sound : sound world.world) {core : C}
    (restored : ops.fromSnapshot world.world = .ok core) :
    (PersistentEngine.connected world core : PersistentEngine R C I).Inv ops values apply schema
      valid sound := by
  obtain ⟨is_valid, -, snapshot⟩ := contract.fromSnapshot_ok is_sound restored
  refine ⟨⟨trivial, ⟨_, _, rfl⟩, rfl, rfl, contract.schema_eq is_sound, ?_, ?_⟩,
    fun _ _ => ⟨is_valid, congrArg _ snapshot⟩⟩
  · intro entry member
    cases List.mem_singleton.mp member
    exact Nat.lt_succ_self _
  · intro entry member
    cases List.mem_singleton.mp member
    exact is_sound

theorem PersistentEngine.Inv.step {e' : PersistentEngine R C I}
    (inv : e.Inv ops values apply schema valid sound) (named : schema ≠ [])
    (contract : CoreContract ops values apply schema valid sound) (step : EngineStep ops e e') :
    e'.Inv ops values apply schema valid sound := by
  cases step with
  | contribute input => exact (inv.contributeOrdinary named contract input).1
  | advance budget => exact (inv.advance named contract budget).1
  | @install tx prepared published =>
      by_cases inactive : e.isFailed ops = true
      · unfold PersistentEngine.install
        rwa [if_pos inactive]
      · obtain ⟨refused, installed⟩ := inv.install named contract prepared published
          (Bool.eq_false_of_not_eq_true inactive)
        by_cases undisturbed : Sequential.Undisturbed e.published tx.base
        · obtain ⟨_, -, inv', -⟩ := installed undisturbed
          exact inv'
        · rwa [refused undisturbed]

/-- The invariant holds after every run. -/
theorem PersistentEngine.Reachable.inv (named : schema ≠ [])
    (contract : CoreContract ops values apply schema valid sound)
    (reachable : e.Reachable ops sound) : e.Inv ops values apply schema valid sound := by
  obtain ⟨world, core, is_sound, restored, run⟩ := reachable
  induction run with
  | refl => exact .connected contract is_sound restored
  | tail _ step induction => exact induction.step named contract step

end

/-- What holds of an engine after any run, and of its next step. -/
structure OptimisticEngine (ops : CoreOps R C I X) (values : R → V) (apply : Applies I V)
    (e : PersistentEngine R C I) : Prop where
  /-- Every world is what its publication made of the one before; maintenance changes nothing. -/
  sequential : Sequential values apply e.published
  current : ∃ purpose older, e.published = (purpose, e.current) :: older
  /-- A contribution publishes the next world exactly when it succeeds, unless it has no records. -/
  contribute : ∀ input, Answer values apply (.contribution input) e
    (e.contributeOrdinary ops input).2 (e.contributeOrdinary ops input).1
  /-- Service publishes exactly the layouts which it answers with, and changes no value, count or
  signature. -/
  advance : ∀ budget,
    (∀ world, (e.advance ops budget).1 = .ok (some world) →
      (e.advance ops budget).2.published = (.maintenance, world) :: e.published ∧
      world.world.logicalState values = e.current.world.logicalState values) ∧
    ((∀ world, (e.advance ops budget).1 ≠ .ok (some world)) →
      (e.advance ops budget).2.published = e.published)
  /-- A transaction over a published world is installed exactly when only maintenance was published
  since. -/
  install_iff : ∀ tx : PreparedTransaction R C I, tx.Prepared ops →
    tx.base ∈ e.published.map Prod.snd → e.isFailed ops = false →
    ((∃ world, (e.install ops tx).1 = .ok world) ↔ Sequential.Undisturbed e.published tx.base)
  /-- The installed world is that of the transaction. -/
  installed : ∀ tx : PreparedTransaction R C I, tx.Prepared ops →
    tx.base ∈ e.published.map Prod.snd → ∀ world, (e.install ops tx).1 = .ok world →
    Answer values apply (.transaction tx.edits) e (e.install ops tx).2 (e.install ops tx).1 ∧
    apply.all tx.edits (tx.base.world.logicalState values) =
      some (world.world.logicalState values) ∧
    (e.install ops tx).2.isFailed ops = false
  /-- A transaction which is too late changes nothing at all. -/
  conflict : ∀ tx : PreparedTransaction R C I, tx.Prepared ops →
    tx.base ∈ e.published.map Prod.snd → e.isFailed ops = false →
    ¬ Sequential.Undisturbed e.published tx.base → e.install ops tx = (.error .conflict, e)

theorem optimistic_engine {ops : CoreOps R C I X} {values : R → V} {apply : Applies I V}
    {schema : List UInt8} {valid : C → Prop} {sound : TypedWorld R → Prop}
    (contract : CoreContract ops values apply schema valid sound) (named : schema ≠ [])
    {e : PersistentEngine R C I} (reachable : e.Reachable ops sound) :
    OptimisticEngine ops values apply e := by
  have inv := reachable.inv named contract
  have installs := fun (tx : PreparedTransaction R C I) (prepared : tx.Prepared ops)
    (published : tx.base ∈ e.published.map Prod.snd) (active : e.isFailed ops = false) =>
      inv.install named contract prepared published active
  refine ⟨inv.records.sequential, inv.records.newest,
    fun input => (inv.contributeOrdinary named contract input).2, fun budget => ?_,
    fun tx prepared published active => ⟨?_, fun undisturbed => ?_⟩,
    fun tx prepared published world success => ?_,
    fun tx prepared published active => (installs tx prepared published active).1⟩
  · obtain ⟨-, layouts, nothing⟩ := inv.advance named contract budget
    exact ⟨fun world same => ⟨(layouts world same).1, (layouts world same).2.2⟩,
      fun none_given => (nothing none_given).1⟩
  · rintro ⟨world, success⟩
    by_contra disturbed
    rw [(installs tx prepared published active).1 disturbed] at success
    cases success
  · obtain ⟨world, success, -⟩ := (installs tx prepared published active).2 undisturbed
    exact ⟨world, success⟩
  · have active : e.isFailed ops = false := by
      by_contra inactive
      unfold PersistentEngine.install at success
      rw [if_pos (Bool.eq_true_of_not_eq_false inactive)] at success
      cases success
    by_cases undisturbed : Sequential.Undisturbed e.published tx.base
    · obtain ⟨other, same, -, healthy, answer, applied⟩ :=
        (installs tx prepared published active).2 undisturbed
      rw [success] at same
      cases same
      exact ⟨answer, applied, healthy⟩
    · rw [(installs tx prepared published active).1 undisturbed] at success
      cases success

/-- A core which keeps its records in a list. -/
def recordOps : CoreOps (List (Nat × Nat)) (TypedWorld (List (Nat × Nat))) (Option (Nat × Nat))
    Unit where
  snapshot := id
  pending _ := false
  failed _ := false
  contribute
    | core, none => (.ok core, core)
    | core, some record =>
        let next : TypedWorld (List (Nat × Nat)) := { core with runtime := record :: core.runtime }
        (.ok next, next)
  advance core _ := (.ok none, core)
  rebase _ world := .ok world
  fromSnapshot world := .ok world
  poison := id
  isEmpty := Option.isNone
  sameLayout := fun a b => a = b
  admissions := List.length
  mapped := id

/-- What the list says of a key. -/
def recordValues (runtime : List (Nat × Nat)) (key : Nat) : Option Nat := runtime.lookup key

/-- What a record does. -/
def recordApply : Applies (Option (Nat × Nat)) (Nat → Option Nat)
  | none, state => some state
  | some record, state =>
      some { state with values := fun key => if key = record.1 then some record.2
                                   else state.values key }

theorem recordContract : CoreContract recordOps recordValues recordApply [1]
    (fun core => core.metadata.schemaId = [1] ∧ core.metadata.liveCount = 0)
    (fun world => world.metadata.schemaId = [1] ∧ world.metadata.liveCount = 0) where
  sound_snapshot is_valid := is_valid
  sound_stored is_sound := is_sound
  schema_eq is_sound := is_sound.1
  counted is_sound := by
    rw [is_sound.2]
    exact Nat.zero_le _
  mapped_values _ := rfl
  contribute_ok := by
    rintro core _ (_ | record) _ is_valid - same
    · cases same
      exact ⟨is_valid, rfl, rfl, rfl⟩
    · cases same
      refine ⟨is_valid, rfl, rfl, ?_⟩
      simp only [recordApply, TypedWorld.logicalState, recordOps, id]
      congr 2
      funext key
      obtain ⟨changed, value⟩ := record
      by_cases here : key = changed
      · simp [here, recordValues, List.lookup_cons]
      · simp [here, recordValues, List.lookup_cons, beq_false_of_ne here]
  contribute_error := by
    rintro core _ (_ | record) _ _ - same <;> cases same
  empty := by
    rintro (_ | record) none_given state
    · rfl
    · cases none_given
  advance_none := by
    rintro core _ _ is_valid - same
    cases same
    exact ⟨is_valid, rfl, rfl⟩
  advance_some := by
    rintro core _ _ _ - - same
    cases same
  rebase_ok is_valid _ _ := ⟨_, rfl, is_valid, rfl, rfl⟩
  fromSnapshot_ok := by
    rintro world _ is_sound same
    cases same
    exact ⟨is_sound, rfl, rfl⟩

theorem optimistic_engine_record : OptimisticEngine recordOps recordValues recordApply
    ((PersistentEngine.connected ⟨⟨[], 0, 0, [1]⟩, ⟨7, [], []⟩, 0⟩
      ⟨[], 0, 0, [1]⟩).contributeOrdinary recordOps (some (3, 4))).2 :=
  optimistic_engine recordContract (by decide)
    ⟨⟨⟨[], 0, 0, [1]⟩, ⟨7, [], []⟩, 0⟩, ⟨[], 0, 0, [1]⟩, ⟨rfl, rfl⟩, rfl,
      .single (.contribute _ (some (3, 4)))⟩

end Everett

import Everett.Catalog.Effects
import Everett.Library.Numbered

/-!
# Histories of timelines

The generations of a name, in the order in which they were published.  A transaction leaves them as
they are, starts the history of a new name, or adds one generation behind the last one.
-/

namespace Everett.Catalog

open Outcome Tables

variable {C : Context} {disk : Disk} {t u : Tables}

namespace Tables

/-- The generations of a name. -/
def history (t : Tables) (name : Text) : List TimelineHead := t.generations.filter (·.name = name)

theorem mem_history {name : Text} {row : TimelineHead} :
    row ∈ t.history name ↔ row ∈ t.generations ∧ row.name = name := by
  rw [history, List.mem_filter, decide_eq_true_iff]

/-- A head which is registered and holds no more than one group. -/
def Prepared (t : Tables) (P : StoragePolicy) (head : BlobIdentity) : Prop :=
  ∃ row, t.pairs.find? (·.id = head) = some row ∧ row.virtualCount ≤ P.groupSize

theorem requirePrepared_eq_ok {P : StoragePolicy} {head : BlobIdentity} {message : String}
    {unit : Unit} : t.requirePrepared P head message = .ok unit ↔ t.Prepared P head := by
  rw [requirePrepared, bind_eq_ok]
  constructor
  · rintro ⟨row, found, small⟩
    exact ⟨row, demand_eq_ok.mp found, demands_eq_ok.mp small⟩
  · rintro ⟨row, found, small⟩
    exact ⟨row, demand_eq_ok.mpr found, demands_eq_ok.mpr small⟩

theorem Prepared.registered {P : StoragePolicy} {head : BlobIdentity}
    (prepared : t.Prepared P head) : t.Registered head := by
  obtain ⟨row, found, -⟩ := prepared
  have same := List.find?_some found
  cases of_decide_eq_true same
  exact List.mem_map_of_mem (List.mem_of_find?_eq_some found)

/-! ## What a transaction does to histories -/

/-- A generation which starts the history of a new name. -/
structure Begins (t : Tables) (row : TimelineHead) (source : Option (Text × UInt64)) : Prop where
  new : row.name ∉ t.timelines.map TimelineRow.name
  first : row.generation = 0
  owned : Owned row
  room : (t.withName row.name source).Room row

/-- A generation behind the last one of its name. -/
structure Continues (t : Tables) (row old : TimelineHead) : Prop where
  last : t.lastTimeline row.name = some old
  next : row.generation = old.generation + 1
  below : old.generation.toNat ≠ 2 ^ 63 - 1
  owned : Owned row
  room : t.Room row

/-- The histories are as they were, and so is all that their generations keep. -/
structure Quiet (t u : Tables) : Prop where
  timelines : u.timelines = t.timelines
  generations : u.generations = t.generations
  checkpoints : u.checkpoints = t.checkpoints
  owners : ∀ owner, (OwnerKind.timeline, owner) ∈ u.owners ↔ (OwnerKind.timeline, owner) ∈ t.owners
  roots : ∀ row : Text × BlobIdentity,
    (OwnerKind.timeline, row) ∈ u.ownerRoots ↔ (OwnerKind.timeline, row) ∈ t.ownerRoots
  objects : ∀ row : Text × ObjectId,
    (OwnerKind.timeline, row) ∈ u.ownerObjects ↔ (OwnerKind.timeline, row) ∈ t.ownerObjects
  rootsOf : ∀ owner, u.rootsOf .timeline owner = t.rootsOf .timeline owner
  objectsOf : ∀ owner, u.objectsOf .timeline owner = t.objectsOf .timeline owner

/-- Rows of owners of other kinds. -/
def Foreign {α : Type} (rows : List (OwnerKind × α)) : Prop :=
  ∀ row ∈ rows, row.1 ≠ OwnerKind.timeline

theorem mem_append_foreign {α : Type} {old rows : List (OwnerKind × α)} (foreign : Foreign rows)
    (a : α) : (OwnerKind.timeline, a) ∈ old ++ rows ↔ (OwnerKind.timeline, a) ∈ old := by
  rw [List.mem_append]
  exact or_iff_left fun member => foreign _ member rfl

theorem filterMap_foreign {α : Type} {rows : List (OwnerKind × Text × α)} (foreign : Foreign rows)
    (owner : Text) : (rows.filterMap fun row =>
      if row.1 = OwnerKind.timeline ∧ row.2.1 = owner then some row.2.2 else none) = [] :=
  List.filterMap_eq_nil_iff.mpr fun row member =>
    if_neg fun both => foreign row member both.1

/-- Rows of other owners leave the histories as they are. -/
theorem Quiet.of_rows {owners : List (OwnerKind × Text)}
    {roots : List (OwnerKind × Text × BlobIdentity)} {objects : List (OwnerKind × Text × ObjectId)}
    (timelines : u.timelines = t.timelines) (generations : u.generations = t.generations)
    (checkpoints : u.checkpoints = t.checkpoints) (owners_eq : u.owners = t.owners ++ owners)
    (roots_eq : u.ownerRoots = t.ownerRoots ++ roots)
    (objects_eq : u.ownerObjects = t.ownerObjects ++ objects)
    (others : Foreign owners ∧ Foreign roots ∧ Foreign objects) : Quiet t u where
  timelines := timelines
  generations := generations
  checkpoints := checkpoints
  owners := fun owner => by rw [owners_eq, mem_append_foreign others.1]
  roots := fun row => by rw [roots_eq, mem_append_foreign others.2.1]
  objects := fun row => by rw [objects_eq, mem_append_foreign others.2.2]
  rootsOf := fun owner => by
    unfold Tables.rootsOf
    rw [roots_eq, List.filterMap_append, filterMap_foreign others.2.1, List.append_nil]
  objectsOf := fun owner => by
    unfold Tables.objectsOf
    rw [objects_eq, List.filterMap_append, filterMap_foreign others.2.2, List.append_nil]

theorem foreign_nil {α : Type} : Foreign (α := α) [] := fun _ member => absurd member List.not_mem_nil

theorem foreign_singleton {α : Type} {kind : OwnerKind} {a : α} (other : kind ≠ .timeline) :
    Foreign [(kind, a)] := by
  intro row member
  cases List.mem_singleton.mp member
  exact other

theorem foreign_rootRows {kind : OwnerKind} {owner : Text} {roots : List BlobIdentity}
    (other : kind ≠ .timeline) : Foreign (rootRows kind owner roots) := by
  intro row member
  obtain ⟨root, -, rfl⟩ := List.mem_map.mp member
  exact other

theorem foreign_objectRows {kind : OwnerKind} {owner : Text} {objects : List ObjectId}
    (other : kind ≠ .timeline) : Foreign (objectRows kind owner objects) := by
  intro row member
  obtain ⟨object, -, rfl⟩ := List.mem_map.mp member
  exact other

/-- Tables which no owner is added to are quiet. -/
theorem Quiet.of_same (timelines : u.timelines = t.timelines)
    (generations : u.generations = t.generations) (checkpoints : u.checkpoints = t.checkpoints)
    (owners : u.owners = t.owners) (roots : u.ownerRoots = t.ownerRoots)
    (objects : u.ownerObjects = t.ownerObjects) : Quiet t u :=
  .of_rows timelines generations checkpoints (by rw [owners, List.append_nil])
    (by rw [roots, List.append_nil]) (by rw [objects, List.append_nil])
    ⟨foreign_nil, foreign_nil, foreign_nil⟩

end Tables

/-- The exact session generation which a head names. -/
def Tables.SessionAt (t : Tables) (value : SessionHead) : Prop :=
  t.timelineAt value.timeline.name value.timeline.generation = some value.timeline ∧
    t.attachCheckpoint value.timeline = .ok value

/-- The actions which read or write histories. -/
def Action.Lineal : Action → Prop
  | .createTimeline .. | .forkTimeline .. | .publishTimeline .. => True
  | .createSession .. | .publishSession .. | .forkSession .. => True
  | _ => False

/-- What an action does to the histories. -/
inductive Effect (C : Context) (disk : Disk) (t : Tables) : Action → Tables → List UInt8 → Prop
  | quiet (action : Action) (u : Tables) (outcome : List UInt8) (other : ¬ action.Lineal)
      (quiet : Quiet t u) (exact : ∀ name source, action = .saveSession name source →
        t.SessionAt source ∧ (name, source.timeline.head) ∈ u.saves ∧
          u.sessionSaves = t.sessionSaves ++
            [⟨name, source.timeline.name, source.timeline.generation⟩] ∧
          name ∉ t.sessionSaves.map SessionSaveRow.name) :
      Effect C disk t action u outcome
  | createTimeline (row : TimelineHead) (prepared : t.Prepared C.policy row.head)
      (begins : t.Begins row none) :
      Effect C disk t (.createTimeline row.name row.head)
        ((t.withName row.name none).withGeneration (plainGeneration row)) (timeline row)
  | forkTimeline (source row : TimelineHead)
      (exact : t.timelineAt source.name source.generation = some source)
      (prepared : t.Prepared C.policy source.head) (head : row.head = source.head)
      (begins : t.Begins row (some (source.name, source.generation))) :
      Effect C disk t (.forkTimeline row.name source)
        ((t.withName row.name (some (source.name, source.generation))).withGeneration
          (plainGeneration row)) (timeline row)
  | publishTimeline (expected row : TimelineHead) (name : row.name = expected.name)
      (prepared : t.Prepared C.policy row.head) (continues : t.Continues row expected) :
      Effect C disk t (.publishTimeline expected row.head)
        (t.withGeneration (plainGeneration row)) (publication timeline (true, row))
  | staleTimeline (expected current : TimelineHead) (candidate : BlobIdentity)
      (last : t.lastTimeline expected.name = some current) (stale : current ≠ expected) :
      Effect C disk t (.publishTimeline expected candidate) t (publication timeline (false, current))
  | createSession (value : SessionHead) (prepared : t.Prepared C.policy value.timeline.head)
      (begins : t.Begins value.timeline none) (pinnable : t.Pinnable C disk value.auxiliary) :
      Effect C disk t (.createSession value.timeline.name value.timeline.head value.checkpoint
          value.auxiliary)
        ((t.withName value.timeline.name none).withGeneration (sessionGeneration value))
        (session value)
  | forkSession (source value : SessionHead) (exact : t.SessionAt source)
      (prepared : t.Prepared C.policy source.timeline.head)
      (head : value.timeline.head = source.timeline.head)
      (checkpoint : value.checkpoint = source.checkpoint)
      (auxiliary : value.auxiliary = source.auxiliary)
      (begins : t.Begins value.timeline
        (some (source.timeline.name, source.timeline.generation))) :
      Effect C disk t (.forkSession value.timeline.name source)
        ((t.withName value.timeline.name
          (some (source.timeline.name, source.timeline.generation))).withGeneration
            (sessionGeneration value)) (session value)
  | publishSession (expected value : SessionHead)
      (name : value.timeline.name = expected.timeline.name)
      (current : t.attachCheckpoint expected.timeline = .ok expected)
      (prepared : t.Prepared C.policy value.timeline.head)
      (continues : t.Continues value.timeline expected.timeline)
      (pinnable : t.Pinnable C disk value.auxiliary) :
      Effect C disk t (.publishSession expected value.timeline.head value.checkpoint
          value.auxiliary)
        (t.withGeneration (sessionGeneration value)) (publication session (true, value))
  | staleSession (expected current : SessionHead) (candidate : BlobIdentity) (checkpoint : Text)
      (auxiliary : Auxiliary) (last : t.lastTimeline expected.timeline.name = some current.timeline)
      (attached : t.attachCheckpoint current.timeline = .ok current) (stale : current ≠ expected) :
      Effect C disk t (.publishSession expected candidate checkpoint auxiliary) t
        (publication session (false, current))

/-! ## Every transaction has such an effect -/

namespace Effect

theorem of_quiet {action : Action} {outcome : List UInt8} (quiet : Quiet t u)
    (other : ¬ action.Lineal) (plain : ∀ name source, action ≠ .saveSession name source) :
    Effect C disk t action u outcome :=
  .quiet action u outcome other quiet fun name source same => absurd same (plain name source)

theorem createTimeline_ok {name : Text} {head : BlobIdentity} {row : TimelineHead}
    (result : applyCreateTimeline C t name head = .ok (u, row)) :
    Effect C disk t (.createTimeline name head) u (Catalog.timeline row) := by
  obtain ⟨_, prepared, rest⟩ := bind_eq_ok.mp result
  obtain ⟨named, inserted, rest⟩ := bind_eq_ok.mp rest
  obtain ⟨new, -, rfl⟩ := Iff.mp insertTimeline_eq_ok inserted
  obtain ⟨⟨rfl, first, rfl⟩, owned, room, rfl⟩ := addGeneration_eq_ok.mp rest
  exact .createTimeline row (Iff.mp requirePrepared_eq_ok prepared) ⟨new, first, owned, room⟩

theorem forkTimeline_ok {name : Text} {source row : TimelineHead}
    (result : applyForkTimeline C t name source = .ok (u, row)) :
    Effect C disk t (.forkTimeline name source) u (Catalog.timeline row) := by
  obtain ⟨_, -, rest⟩ := bind_eq_ok.mp result
  obtain ⟨_, exact, rest⟩ := bind_eq_ok.mp rest
  obtain ⟨_, prepared, rest⟩ := bind_eq_ok.mp rest
  obtain ⟨named, inserted, rest⟩ := bind_eq_ok.mp rest
  obtain ⟨new, -, rfl⟩ := Iff.mp insertTimeline_eq_ok inserted
  obtain ⟨⟨rfl, first, head⟩, owned, room, rfl⟩ := addGeneration_eq_ok.mp rest
  exact .forkTimeline source row (demands_eq_ok.mp exact) (Iff.mp requirePrepared_eq_ok prepared) head
    ⟨new, first, owned, room⟩

theorem publishTimeline_ok {expected row : TimelineHead} {candidate : BlobIdentity}
    {published : Bool}
    (result : applyPublishTimeline C t expected candidate = .ok (u, published, row)) :
    Effect C disk t (.publishTimeline expected candidate) u
      (publication Catalog.timeline (published, row)) := by
  obtain ⟨current, last, rest⟩ := bind_eq_ok.mp result
  obtain ⟨_, -, rest⟩ := bind_eq_ok.mp rest
  have last := demand_eq_ok.mp last
  split at rest
  · rename_i same
    subst same
    obtain ⟨_, prepared, rest⟩ := bind_eq_ok.mp rest
    obtain ⟨_, below, rest⟩ := bind_eq_ok.mp rest
    obtain ⟨⟨grown, line⟩, added, rest⟩ := bind_eq_ok.mp rest
    cases rest
    obtain ⟨⟨name, next, rfl⟩, owned, room, rfl⟩ := addGeneration_eq_ok.mp added
    refine .publishTimeline current row name (Iff.mp requirePrepared_eq_ok prepared) ?_
    exact ⟨name ▸ last, next, demands_eq_ok.mp below, owned, room⟩
  · rename_i stale
    cases rest
    exact .staleTimeline expected row candidate last stale

theorem createSession_ok {name checkpoint : Text} {head : BlobIdentity} {roots : Auxiliary}
    {value : SessionHead}
    (result : applyCreateSession C disk t name head checkpoint roots = .ok (u, value)) :
    Effect C disk t (.createSession name head checkpoint roots) u (Catalog.session value) := by
  obtain ⟨_, prepared, rest⟩ := bind_eq_ok.mp result
  obtain ⟨named, inserted, rest⟩ := bind_eq_ok.mp rest
  obtain ⟨new, -, rfl⟩ := Iff.mp insertTimeline_eq_ok inserted
  obtain ⟨⟨rfl, first, rfl⟩, rfl, rfl, owned, room, pinnable, -, rfl⟩ :=
    addSessionGeneration_eq_ok rest
  exact .createSession value (Iff.mp requirePrepared_eq_ok prepared) ⟨new, first, owned, room⟩
    ⟨pinnable.pairs_nodup, pinnable.registered, pinnable.natives_nodup, pinnable.sealed⟩

theorem exactSession_eq_ok {source : SessionHead} {message : String}
    (result : exactSession t source message = .ok ()) : t.SessionAt source := by
  obtain ⟨_, -, rest⟩ := bind_eq_ok.mp result
  obtain ⟨found, there, rest⟩ := bind_eq_ok.mp rest
  obtain ⟨actual, attached, rest⟩ := bind_eq_ok.mp rest
  cases demands_eq_ok.mp rest
  obtain ⟨checkpoint, _, later⟩ := bind_eq_ok.mp attached
  obtain ⟨roots, _, later⟩ := bind_eq_ok.mp later
  cases later
  exact ⟨demand_eq_ok.mp there, attached⟩

theorem forkSession_ok {name : Text} {source value : SessionHead}
    (result : applyForkSession C disk t name source = .ok (u, value)) :
    Effect C disk t (.forkSession name source) u (Catalog.session value) := by
  obtain ⟨_, exact, rest⟩ := bind_eq_ok.mp result
  obtain ⟨_, prepared, rest⟩ := bind_eq_ok.mp rest
  obtain ⟨named, inserted, rest⟩ := bind_eq_ok.mp rest
  obtain ⟨new, -, rfl⟩ := Iff.mp insertTimeline_eq_ok inserted
  obtain ⟨⟨rfl, first, head⟩, checkpoint, auxiliary, owned, room, -, -, rfl⟩ :=
    addSessionGeneration_eq_ok rest
  exact .forkSession source value (exactSession_eq_ok exact) (Iff.mp requirePrepared_eq_ok prepared)
    head checkpoint auxiliary ⟨new, first, owned, room⟩

theorem attachCheckpoint_timeline {row : TimelineHead} {value : SessionHead}
    (attached : t.attachCheckpoint row = .ok value) : value.timeline = row := by
  obtain ⟨checkpoint, -, rest⟩ := bind_eq_ok.mp attached
  obtain ⟨roots, -, rest⟩ := bind_eq_ok.mp rest
  cases rest
  rfl

theorem publishSession_ok {expected value : SessionHead} {candidate : BlobIdentity}
    {checkpoint : Text} {roots : Auxiliary} {published : Bool}
    (result : applyPublishSession C disk t expected candidate checkpoint roots =
      .ok (u, published, value)) :
    Effect C disk t (.publishSession expected candidate checkpoint roots) u
      (publication Catalog.session (published, value)) := by
  obtain ⟨found, last, rest⟩ := bind_eq_ok.mp result
  obtain ⟨current, attached, later⟩ := bind_eq_ok.mp rest
  have last := demand_eq_ok.mp last
  have same := attachCheckpoint_timeline attached
  subst same
  split at later
  · rename_i same
    subst same
    obtain ⟨_, prepared, later⟩ := bind_eq_ok.mp later
    obtain ⟨_, below, later⟩ := bind_eq_ok.mp later
    obtain ⟨⟨grown, line⟩, added, later⟩ := bind_eq_ok.mp later
    cases later
    obtain ⟨⟨name, next, rfl⟩, rfl, rfl, owned, room, pinnable, -, rfl⟩ :=
      addSessionGeneration_eq_ok added
    refine .publishSession current value name attached (Iff.mp requirePrepared_eq_ok prepared) ?_
      pinnable
    exact ⟨name ▸ last, next, demands_eq_ok.mp below, owned, room⟩
  · rename_i stale
    cases later
    exact .staleSession expected value candidate checkpoint roots last attached stale

theorem saveSession_ok {name : Text} {source : SessionHead}
    (result : applySaveSession C disk t name source = .ok u) :
    Effect C disk t (.saveSession name source) u [] := by
  obtain ⟨_, exact, rest⟩ := bind_eq_ok.mp result
  obtain ⟨owned, added, rest⟩ := bind_eq_ok.mp rest
  obtain ⟨rooted, pinned, rest⟩ := bind_eq_ok.mp rest
  obtain ⟨extended, retained, rest⟩ := bind_eq_ok.mp rest
  obtain ⟨saved, kept, rest⟩ := bind_eq_ok.mp rest
  obtain ⟨-, rfl⟩ := addOwner_eq_ok.mp added
  obtain ⟨-, -, rfl⟩ := addRoot_eq_ok.mp pinned
  obtain ⟨-, -, rfl⟩ := addAuxiliary_eq_ok retained
  obtain ⟨-, -, rfl⟩ := insertSave_eq_ok.mp kept
  obtain ⟨new, -, rfl⟩ := insertSessionSave_eq_ok.mp rest
  refine .quiet _ _ _ not_false ?_ ?_
  · refine .of_rows rfl rfl rfl rfl (List.append_assoc _ _ _) rfl ⟨foreign_singleton (by decide), ?_,
      foreign_objectRows (by decide)⟩
    intro row member
    rcases List.mem_append.mp member with head | pair
    · exact foreign_singleton (by decide) row head
    · exact foreign_rootRows (by decide) row pair
  · intro _ _ same
    cases same
    exact ⟨exactSession_eq_ok exact, List.mem_append_right _ (List.mem_singleton_self _), rfl, new⟩

end Effect

/-- Inserted pairs leave the histories as they are. -/
theorem Tables.Quiet.pairs {rows : List PairRow} : Quiet t { t with pairs := rows } :=
  .of_same rfl rfl rfl rfl rfl rfl

theorem Tables.Quiet.insertColaRow {value : Descriptor} (result : t.insertColaRow value = .ok u) :
    Quiet t u := by
  obtain ⟨rows, rfl⟩ := insertColaRow_pairs result
  exact .pairs

/-- Every transaction has an effect on the histories. -/
theorem Work.effect {work : Work} {outcome : List UInt8}
    (applied : work.apply C disk t = .ok (u, outcome)) : Effect C disk t work.action u outcome := by
  obtain ⟨action, pinned⟩ := work
  cases action with
  | reserve attempt owner inputs outputs scope =>
      obtain ⟨v, done, rest⟩ := bind_eq_ok.mp applied
      cases rest
      obtain ⟨scopes, rfl⟩ := applyReserve_rows done
      refine .of_quiet ?_ not_false nofun
      exact .of_rows rfl rfl rfl rfl rfl rfl ⟨foreign_singleton (by decide),
        foreign_rootRows (by decide), foreign_objectRows (by decide)⟩
  | «seal» receipt =>
      obtain ⟨v, done, rest⟩ := bind_eq_ok.mp applied
      cases rest
      obtain ⟨row, -, -, rfl⟩ := recordSealedRow_rows done
      exact .of_quiet (.of_same rfl rfl rfl rfl rfl rfl) not_false nofun
  | rememberNativeMerge domain older newer receipt owner =>
      obtain ⟨⟨v, output⟩, done, rest⟩ := bind_eq_ok.mp applied
      cases rest
      obtain ⟨owners, objects, merges, readers, pins, rfl⟩ := applyRememberMerge_rows done
      refine .of_quiet ?_ not_false nofun
      refine .of_rows rfl rfl rfl rfl (List.append_nil _).symm rfl ⟨?_, foreign_nil, ?_⟩
      · intro row member same
        cases same.symm.trans (readers row member)
      · intro row member same
        cases same.symm.trans (pins row member)
  | acquireNativeMerge domain older newer owner =>
      obtain ⟨⟨v, output⟩, done, rest⟩ := bind_eq_ok.mp applied
      cases rest
      cases applyAcquireMerge_rows done
      refine .of_quiet ?_ not_false nofun
      exact .of_rows rfl rfl rfl rfl (List.append_nil _).symm rfl
        ⟨foreign_singleton (by decide), foreign_nil, foreign_objectRows (by decide)⟩
  | registerChain admission chain =>
      obtain ⟨v, done, rest⟩ := bind_eq_ok.mp applied
      cases rest
      obtain ⟨rows, rfl⟩ := registerLinearRows_pairs done
      exact .of_quiet .pairs not_false nofun
  | registerColaGraphs admission roots chain =>
      obtain ⟨v, done, rest⟩ := bind_eq_ok.mp applied
      cases rest
      obtain ⟨rows, rfl⟩ := registerRows_pairs done
      exact .of_quiet .pairs not_false nofun
  | registerColaPair descriptor =>
      obtain ⟨v, done, rest⟩ := bind_eq_ok.mp applied
      cases rest
      exact .of_quiet (.insertColaRow done) not_false nofun
  | sealColaPair receipt descriptor =>
      obtain ⟨v, recorded, rest⟩ := bind_eq_ok.mp applied
      obtain ⟨w, inserted, rest⟩ := bind_eq_ok.mp rest
      cases rest
      obtain ⟨row, -, -, rfl⟩ := recordSealedRow_rows recorded
      obtain ⟨rows, rfl⟩ := insertColaRow_pairs inserted
      exact .of_quiet (.of_same rfl rfl rfl rfl rfl rfl) not_false nofun
  | sealNativeColaPair native index descriptor =>
      obtain ⟨v, first, rest⟩ := bind_eq_ok.mp applied
      obtain ⟨w, second, rest⟩ := bind_eq_ok.mp rest
      obtain ⟨x, inserted, rest⟩ := bind_eq_ok.mp rest
      cases rest
      obtain ⟨_, -, -, -, rfl⟩ := recordPreparedSeal_rows first
      obtain ⟨_, -, -, -, rfl⟩ := recordPreparedSeal_rows second
      obtain ⟨rows, rfl⟩ := insertColaRow_pairs inserted
      exact .of_quiet (.of_same rfl rfl rfl rfl rfl rfl) not_false nofun
  | save name head =>
      obtain ⟨⟨v, saved⟩, done, rest⟩ := bind_eq_ok.mp applied
      cases rest
      obtain ⟨w, inserted, rest⟩ := bind_eq_ok.mp done
      cases rest
      cases applySave_rows inserted
      refine .of_quiet ?_ not_false nofun
      exact .of_rows rfl rfl rfl rfl rfl (List.append_nil _).symm
        ⟨foreign_singleton (by decide), foreign_rootRows (by decide), foreign_nil⟩
  | acquireSave name reader =>
      obtain ⟨⟨v, head⟩, done, rest⟩ := bind_eq_ok.mp applied
      cases rest
      obtain ⟨-, rfl⟩ := applyAcquireSave_rows done
      refine .of_quiet ?_ not_false nofun
      exact .of_rows rfl rfl rfl rfl rfl (List.append_nil _).symm
        ⟨foreign_singleton (by decide), foreign_rootRows (by decide), foreign_nil⟩
  | createTimeline name head =>
      obtain ⟨⟨v, row⟩, done, rest⟩ := bind_eq_ok.mp applied
      cases rest
      exact .createTimeline_ok done
  | forkTimeline name source =>
      obtain ⟨⟨v, row⟩, done, rest⟩ := bind_eq_ok.mp applied
      cases rest
      exact .forkTimeline_ok done
  | publishTimeline expected candidate =>
      obtain ⟨⟨v, published, row⟩, done, rest⟩ := bind_eq_ok.mp applied
      cases rest
      exact .publishTimeline_ok done
  | createSession name head checkpoint auxiliary =>
      obtain ⟨⟨v, value⟩, done, rest⟩ := bind_eq_ok.mp applied
      cases rest
      exact .createSession_ok done
  | publishSession expected candidate checkpoint auxiliary =>
      obtain ⟨⟨v, published, value⟩, done, rest⟩ := bind_eq_ok.mp applied
      cases rest
      exact .publishSession_ok done
  | forkSession name source =>
      obtain ⟨⟨v, value⟩, done, rest⟩ := bind_eq_ok.mp applied
      cases rest
      exact .forkSession_ok done
  | saveSession name source =>
      obtain ⟨v, done, rest⟩ := bind_eq_ok.mp applied
      cases rest
      exact .saveSession_ok done
  | privateBegin id =>
      obtain ⟨v, done, rest⟩ := bind_eq_ok.mp applied
      cases rest
      obtain ⟨scopes, rfl⟩ := applyPrivateBegin_rows done
      exact .of_quiet (.of_same rfl rfl rfl rfl rfl rfl) not_false nofun
  | privateRelease id =>
      obtain ⟨v, done, rest⟩ := bind_eq_ok.mp applied
      cases rest
      obtain ⟨scopes, rfl⟩ := applyPrivateRelease_rows done
      exact .of_quiet (.of_same rfl rfl rfl rfl rfl rfl) not_false nofun

/-! ## The invariant -/

/-- What holds of the histories in every catalog. -/
structure Histories (t : Tables) : Prop where
  linear : ∀ name, Numbered (fun row => row.generation.toNat) (t.history name)
  valid : ∀ row ∈ t.generations, row.Valid
  owned : ∀ row ∈ t.generations, Owned row
  named : ∀ row ∈ t.generations, row.name ∈ t.timelines.map TimelineRow.name
  started : ∀ name ∈ t.timelines.map TimelineRow.name, t.history name ≠ []
  held : ∀ row ∈ t.generations, (OwnerKind.timeline, row.owner) ∈ t.owners
  owners : ∀ owner, (OwnerKind.timeline, owner) ∈ t.owners → ∃ row ∈ t.generations, row.owner = owner
  roots : ∀ row : Text × BlobIdentity, (OwnerKind.timeline, row) ∈ t.ownerRoots →
    (OwnerKind.timeline, row.1) ∈ t.owners
  objects : ∀ row : Text × ObjectId, (OwnerKind.timeline, row) ∈ t.ownerObjects →
    (OwnerKind.timeline, row.1) ∈ t.owners
  checked : ∀ row ∈ t.checkpoints, (row.name, row.generation) ∈
    t.generations.map fun old => (old.name, old.generation)

namespace Histories

theorem empty : Histories .empty where
  linear := fun _ => Numbered.nil
  valid := fun _ member => absurd member List.not_mem_nil
  owned := fun _ member => absurd member List.not_mem_nil
  named := fun _ member => absurd member List.not_mem_nil
  started := fun _ member => absurd member List.not_mem_nil
  held := fun _ member => absurd member List.not_mem_nil
  owners := fun _ member => absurd member List.not_mem_nil
  roots := fun _ member => absurd member List.not_mem_nil
  objects := fun _ member => absurd member List.not_mem_nil
  checked := fun _ member => absurd member List.not_mem_nil

/-- The last generation of a name is the end of its history. -/
theorem lastTimeline (histories : Histories t) (name : Text) :
    t.lastTimeline name = (t.history name).getLast? := (histories.linear name).argmax

/-- The name and the number determine a generation. -/
theorem unique (histories : Histories t) {first second : TimelineHead}
    (one : first ∈ t.generations) (two : second ∈ t.generations)
    (names : first.name = second.name) (numbers : first.generation = second.generation) :
    first = second :=
  (histories.linear second.name).inj (mem_history.mpr ⟨one, names⟩) (mem_history.mpr ⟨two, rfl⟩)
    (congrArg UInt64.toNat numbers)

theorem timelineAt_eq_some (histories : Histories t) {row : TimelineHead} {name : Text}
    {generation : UInt64} : t.timelineAt name generation = some row ↔
      row ∈ t.generations ∧ row.name = name ∧ row.generation = generation := by
  constructor
  · intro found
    unfold Tables.timelineAt at found
    have same := List.find?_some found
    exact ⟨List.mem_of_find?_eq_some found, of_decide_eq_true same⟩
  · rintro ⟨member, rfl, rfl⟩
    cases found : t.timelineAt row.name row.generation with
    | none =>
        have missing := List.find?_eq_none.mp found row member
        exact absurd (decide_eq_true ⟨rfl, rfl⟩) missing
    | some other =>
        unfold Tables.timelineAt at found
        have same := List.find?_some found
        obtain ⟨names, numbers⟩ := of_decide_eq_true same
        rw [histories.unique (List.mem_of_find?_eq_some found) member names numbers]

/-- Equal owners are owners of one generation. -/
theorem owner_injective {first second : TimelineHead} (one : Owned first) (two : Owned second)
    (same : first.owner = second.owner) :
    first.name = second.name ∧ first.generation = second.generation := by
  have spelt : generationOwner first.name first.generation =
      generationOwner second.name second.generation := by
    rw [← one, ← two, same]
  obtain ⟨names, numbers⟩ := framed_field _ _ _ _ spelt
  exact ⟨names, framed_number.injective numbers⟩

theorem owner_nonempty {row : TimelineHead} (owned : Owned row) : row.owner.items ≠ [] := by
  intro none
  rw [owned] at none
  have long := congrArg List.length none
  rw [generationOwner, List.length_append, length_number, List.length_nil] at long
  omega

/-- What is quiet keeps the invariant. -/
theorem of_quiet (histories : Histories t) (quiet : Quiet t u) : Histories u where
  linear := by
    intro name
    rw [history, quiet.generations]
    exact histories.linear name
  valid := by
    rw [quiet.generations]
    exact histories.valid
  owned := by
    rw [quiet.generations]
    exact histories.owned
  named := by
    rw [quiet.generations, quiet.timelines]
    exact histories.named
  started := by
    intro name
    rw [history, quiet.generations, quiet.timelines]
    exact histories.started name
  held := by
    rw [quiet.generations]
    exact fun row member => (quiet.owners row.owner).mpr (histories.held row member)
  owners := by
    rw [quiet.generations]
    exact fun owner member => histories.owners owner ((quiet.owners owner).mp member)
  roots := fun row member =>
    (quiet.owners row.1).mpr (histories.roots row ((quiet.roots row).mp member))
  objects := fun row member =>
    (quiet.owners row.1).mpr (histories.objects row ((quiet.objects row).mp member))
  checked := by
    rw [quiet.generations, quiet.checkpoints]
    exact histories.checked

/-- A name whose first generation is still to come, and all other names as they were. -/
theorem history_withName {name : Text} {source : Option (Text × UInt64)} (other : Text) :
    (t.withName name source).history other = t.history other := rfl

theorem history_withGeneration (g : Generation) (name : Text) :
    (t.withGeneration g).history name =
      if g.row.name = name then t.history name ++ [g.row] else t.history name := by
  unfold history withGeneration
  rw [List.filter_append, List.filter_singleton]
  by_cases same : g.row.name = name
  · simp [same]
  · simp [same]

/-- One more generation of a name keeps the invariant when its number is next.  The names may
already list a new name. -/
theorem withGeneration (histories : Histories t) (g : Generation) {names : List TimelineRow}
    (owned : Owned g.row) (nonempty : g.row.name.items ≠ [])
    (counted : g.row.generation.toNat ≤ 2 ^ 63 - 1)
    (next : g.row.generation.toNat = (t.history g.row.name).length)
    (listed : ∀ name, name ∈ names.map TimelineRow.name ↔
      name ∈ t.timelines.map TimelineRow.name ∨ name = g.row.name) :
    Histories ({ t with timelines := names }.withGeneration g) where
  linear := by
    intro name
    have before := histories.linear name
    rw [history_withGeneration]
    split
    · rename_i same
      cases same
      exact Numbered.concat_iff.mpr ⟨before, next⟩
    · exact before
  valid := by
    intro row member
    rcases List.mem_append.mp member with old | new
    · exact histories.valid row old
    · cases List.mem_singleton.mp new
      exact ⟨nonempty, owner_nonempty owned, counted⟩
  owned := by
    intro row member
    rcases List.mem_append.mp member with old | new
    · exact histories.owned row old
    · cases List.mem_singleton.mp new
      exact owned
  named := by
    intro row member
    apply (listed row.name).mpr
    rcases List.mem_append.mp member with old | new
    · exact .inl (histories.named row old)
    · cases List.mem_singleton.mp new
      exact .inr rfl
  started := by
    intro name member
    rw [history_withGeneration]
    split
    · exact List.concat_ne_nil _ _
    · rename_i different
      rcases (listed name).mp member with old | new
      · exact histories.started name old
      · exact absurd new.symm different
  held := by
    intro row member
    rcases List.mem_append.mp member with old | new
    · exact List.mem_append_left _ (histories.held row old)
    · cases List.mem_singleton.mp new
      exact List.mem_append_right _ (List.mem_singleton_self _)
  owners := by
    intro owner member
    rcases List.mem_append.mp member with old | new
    · obtain ⟨row, there, same⟩ := histories.owners owner old
      exact ⟨row, List.mem_append_left _ there, same⟩
    · cases List.mem_singleton.mp new
      exact ⟨g.row, List.mem_append_right _ (List.mem_singleton_self _), rfl⟩
  roots := by
    intro row member
    rcases List.mem_append.mp member with old | new
    · exact List.mem_append_left _ (histories.roots row old)
    · obtain ⟨root, -, same⟩ := List.mem_map.mp new
      cases same
      exact List.mem_append_right _ (List.mem_singleton_self _)
  objects := by
    intro row member
    rcases List.mem_append.mp member with old | new
    · exact List.mem_append_left _ (histories.objects row old)
    · obtain ⟨object, -, same⟩ := List.mem_map.mp new
      cases same
      exact List.mem_append_right _ (List.mem_singleton_self _)
  checked := by
    intro row member
    rcases List.mem_append.mp member with old | new
    · obtain ⟨there, known, same⟩ := List.mem_map.mp (histories.checked row old)
      exact List.mem_map.mpr ⟨there, List.mem_append_left _ known, same⟩
    · obtain ⟨kept, -, rfl⟩ := Option.map_eq_some_iff.mp (Option.mem_toList.mp new)
      exact List.mem_map.mpr ⟨g.row, List.mem_append_right _ (List.mem_singleton_self _), rfl⟩

/-- A new name has no history. -/
theorem history_new (histories : Histories t) {name : Text}
    (new : name ∉ t.timelines.map TimelineRow.name) : t.history name = [] := by
  apply List.eq_nil_iff_forall_not_mem.mpr
  intro row member
  obtain ⟨there, rfl⟩ := mem_history.mp member
  exact new (histories.named row there)

theorem begins (histories : Histories t) {g : Generation} {source : Option (Text × UInt64)}
    (nonempty : g.row.name.items ≠ []) (begins : t.Begins g.row source) :
    Histories ((t.withName g.row.name source).withGeneration g) := by
  apply histories.withGeneration g begins.owned nonempty begins.room.counted
  · rw [begins.first, histories.history_new begins.new]
    rfl
  · intro name
    rw [List.map_append, List.mem_append]
    exact or_congr_right List.mem_singleton

/-- The last generation of a name is in its history. -/
theorem last_mem (histories : Histories t) {name : Text} {last : TimelineHead}
    (found : t.lastTimeline name = some last) : last ∈ t.generations ∧ last.name = name := by
  rw [histories.lastTimeline] at found
  exact mem_history.mp (List.mem_of_getLast? found)

theorem next_toNat {generation : UInt64} (counted : generation.toNat ≤ 2 ^ 63 - 1) :
    (generation + 1).toNat = generation.toNat + 1 := by
  rw [UInt64.toNat_add, UInt64.toNat_one, Nat.mod_eq_of_lt (by omega)]

/-- The generation behind the last one has the next number. -/
theorem next_length (histories : Histories t) {row last : TimelineHead}
    (continues : t.Continues row last) :
    row.generation.toNat = (t.history row.name).length := by
  obtain ⟨member, -⟩ := histories.last_mem continues.last
  have found := continues.last
  rw [histories.lastTimeline] at found
  rw [continues.next, next_toNat (histories.valid last member).2.2,
    (histories.linear row.name).getLast found]

theorem continues (histories : Histories t) {g : Generation} {last : TimelineHead}
    (continues : t.Continues g.row last) : Histories (t.withGeneration g) := by
  obtain ⟨member, name⟩ := histories.last_mem continues.last
  apply histories.withGeneration g continues.owned ?_ continues.room.counted
    (histories.next_length continues)
  · intro name
    refine (or_iff_left_of_imp ?_).symm
    rintro rfl
    exact continues.room.named
  · rw [← name]
    exact (histories.valid last member).1

end Histories

end Everett.Catalog

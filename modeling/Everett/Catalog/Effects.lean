import Everett.Catalog.Growth

/-!
# What the transactions leave

Each apply step as an equation between the tables before and after it, with the conditions under
which it succeeds.
-/

namespace Everett.Catalog

open Outcome

namespace Tables

variable {C : Context} {disk : Disk} {t u : Tables}

/-! ## Owners -/

/-- The rows of some roots of an owner. -/
def rootRows (kind : OwnerKind) (owner : Text) (roots : List BlobIdentity) :
    List (OwnerKind × Text × BlobIdentity) := roots.map fun root => (kind, owner, root)

/-- The rows of some objects of an owner. -/
def objectRows (kind : OwnerKind) (owner : Text) (objects : List ObjectId) :
    List (OwnerKind × Text × ObjectId) := objects.map fun object => (kind, owner, object)

theorem addRoots_eq_ok {kind : OwnerKind} {owner : Text} {roots : List BlobIdentity} :
    addRoots kind owner roots t = .ok u ↔
      (roots.Nodup ∧ ∀ root ∈ roots, (kind, owner, root) ∉ t.ownerRoots ∧
        (kind, owner) ∈ t.owners ∧ t.Registered root) ∧
      { t with ownerRoots := t.ownerRoots ++ rootRows kind owner roots } = u := by
  induction roots generalizing t with
  | nil => simp [addRoots, rootRows]
  | cons root roots induction =>
      rw [addRoots, bind_eq_ok]
      constructor
      · rintro ⟨middle, added, rest⟩
        obtain ⟨new, ⟨owned, registered⟩, rfl⟩ := addRoot_eq_ok.mp added
        obtain ⟨⟨nodup, each⟩, rfl⟩ := induction.mp rest
        refine ⟨⟨List.nodup_cons.mpr ⟨?_, nodup⟩, ?_⟩, ?_⟩
        · intro again
          exact (each root again).1 (List.mem_append_right _ (List.mem_singleton_self _))
        · rintro other (_ | ⟨_, member⟩)
          · exact ⟨new, owned, registered⟩
          · obtain ⟨absent, there, known⟩ := each other member
            exact ⟨fun old => absent (List.mem_append_left _ old), there, known⟩
        · simp [rootRows]
      · rintro ⟨⟨nodup, each⟩, rfl⟩
        obtain ⟨apart, nodup⟩ := List.nodup_cons.mp nodup
        obtain ⟨new, owned, registered⟩ := each root List.mem_cons_self
        refine ⟨_, addRoot_eq_ok.mpr ⟨new, ⟨owned, registered⟩, rfl⟩, ?_⟩
        refine induction.mpr ⟨⟨nodup, ?_⟩, by simp [rootRows]⟩
        intro other member
        obtain ⟨absent, there, known⟩ := each other (List.mem_cons_of_mem _ member)
        refine ⟨?_, there, known⟩
        intro old
        rcases List.mem_append.mp old with old | same
        · exact absent old
        · cases List.mem_singleton.mp same
          exact apart member

theorem addNatives_eq_ok {kind : OwnerKind} {owner : Text} {natives : List ObjectId} :
    addNatives C disk kind owner natives t = .ok u ↔
      (natives.Nodup ∧ ∀ native ∈ natives, requireSealed C disk t native .nativeBlob none = .ok () ∧
        (kind, owner, native) ∉ t.ownerObjects ∧ (kind, owner) ∈ t.owners ∧
        native ∈ t.objects.map ObjectRow.id) ∧
      { t with ownerObjects := t.ownerObjects ++ objectRows kind owner natives } = u := by
  induction natives generalizing t with
  | nil => simp [addNatives, objectRows]
  | cons native natives induction =>
      rw [addNatives, bind_eq_ok]
      constructor
      · rintro ⟨_, sealed, rest⟩
        obtain ⟨middle, added, rest⟩ := bind_eq_ok.mp rest
        obtain ⟨new, ⟨owned, known⟩, rfl⟩ := addObject_eq_ok.mp added
        obtain ⟨⟨nodup, each⟩, rfl⟩ := induction.mp rest
        refine ⟨⟨List.nodup_cons.mpr ⟨?_, nodup⟩, ?_⟩, ?_⟩
        · intro again
          exact (each native again).2.1 (List.mem_append_right _ (List.mem_singleton_self _))
        · rintro other (_ | ⟨_, member⟩)
          · exact ⟨sealed, new, owned, known⟩
          · obtain ⟨there, absent, rest⟩ := each other member
            exact ⟨there, fun old => absent (List.mem_append_left _ old), rest⟩
        · simp [objectRows]
      · rintro ⟨⟨nodup, each⟩, rfl⟩
        obtain ⟨apart, nodup⟩ := List.nodup_cons.mp nodup
        obtain ⟨sealed, new, owned, known⟩ := each native List.mem_cons_self
        refine ⟨(), sealed, bind_eq_ok.mpr ⟨_, addObject_eq_ok.mpr ⟨new, ⟨owned, known⟩, rfl⟩, ?_⟩⟩
        refine induction.mpr ⟨⟨nodup, ?_⟩, by simp [objectRows]⟩
        intro other member
        obtain ⟨there, absent, rest⟩ := each other (List.mem_cons_of_mem _ member)
        refine ⟨there, ?_, rest⟩
        intro old
        rcases List.mem_append.mp old with old | same
        · exact absent old
        · cases List.mem_singleton.mp same
          exact apart member

/-- The roots and the natives which an owner may pin besides its head. -/
structure Pinnable (C : Context) (disk : Disk) (t : Tables) (value : Auxiliary) : Prop where
  pairs_nodup : value.pairs.items.Nodup
  registered : ∀ root ∈ value.pairs.items, t.Registered root
  natives_nodup : value.natives.items.Nodup
  sealed : ∀ native ∈ value.natives.items, requireSealed C disk t native .nativeBlob none = .ok ()

/-- The tables with the roots and the natives of an owner. -/
def withAuxiliary (t : Tables) (kind : OwnerKind) (owner : Text) (value : Auxiliary) : Tables :=
  { t with
    ownerRoots := t.ownerRoots ++ rootRows kind owner value.pairs.items
    ownerObjects := t.ownerObjects ++ objectRows kind owner value.natives.items }

theorem addAuxiliary_eq_ok {kind : OwnerKind} {owner : Text} {value : Auxiliary}
    (result : t.addAuxiliary C disk kind owner value = .ok u) :
    t.Pinnable C disk value ∧ (∀ root ∈ value.pairs.items, (kind, owner, root) ∉ t.ownerRoots) ∧
      t.withAuxiliary kind owner value = u := by
  obtain ⟨middle, rooted, rest⟩ := bind_eq_ok.mp result
  rw [addRoots_eq_ok] at rooted
  obtain ⟨⟨pairs_nodup, roots⟩, rfl⟩ := rooted
  rw [addNatives_eq_ok] at rest
  obtain ⟨⟨natives_nodup, natives⟩, rfl⟩ := rest
  exact ⟨⟨pairs_nodup, fun root member => (roots root member).2.2, natives_nodup,
    fun native member => (natives native member).1⟩, fun root member => (roots root member).1, rfl⟩

/-- A sealed object has a row. -/
theorem requireSealed_known {id : ObjectId} {kind : FileKind} {evidence : Option (List UInt8)}
    {unit : Unit} (sealed : requireSealed C disk t id kind evidence = .ok unit) :
    id ∈ t.objects.map ObjectRow.id := by
  obtain ⟨found, there, -⟩ := bind_eq_ok.mp sealed
  have known := demand_eq_ok.mp there
  obtain ⟨row, looked, -⟩ := Option.bind_eq_some_iff.mp known
  rw [← objectRow_id looked]
  unfold objectRow at looked
  exact List.mem_map_of_mem (List.mem_of_find?_eq_some looked)

theorem addAuxiliary_ok {kind : OwnerKind} {owner : Text} {value : Auxiliary}
    (owned : (kind, owner) ∈ t.owners) (pinnable : t.Pinnable C disk value)
    (roots : ∀ root ∈ value.pairs.items, (kind, owner, root) ∉ t.ownerRoots)
    (natives : ∀ native ∈ value.natives.items, (kind, owner, native) ∉ t.ownerObjects) :
    t.addAuxiliary C disk kind owner value = .ok (t.withAuxiliary kind owner value) := by
  refine bind_eq_ok.mpr ⟨_, Iff.mpr addRoots_eq_ok ⟨⟨pinnable.pairs_nodup, ?_⟩, rfl⟩, ?_⟩
  · intro root member
    exact ⟨roots root member, owned, pinnable.registered root member⟩
  · refine Iff.mpr addNatives_eq_ok ⟨⟨pinnable.natives_nodup, ?_⟩, rfl⟩
    intro native member
    have sealed := pinnable.sealed native member
    have known := requireSealed_known sealed
    exact ⟨sealed, natives native member, owned, known⟩

/-! ## Generations -/

/-- A generation with the roots, the natives and the checkpoint which it keeps. -/
structure Generation where
  row : TimelineHead
  kept : Option (Text × Auxiliary)

/-- A generation of a timeline. -/
abbrev plainGeneration (row : TimelineHead) : Generation := ⟨row, none⟩

/-- A generation of a session. -/
abbrev sessionGeneration (value : SessionHead) : Generation :=
  ⟨value.timeline, some (value.checkpoint, value.auxiliary)⟩

namespace Generation

variable (g : Generation)

/-- The roots of a generation. -/
def roots : List BlobIdentity := g.row.head :: (g.kept.map fun kept => kept.2.pairs.items).getD []

/-- The natives of a generation. -/
def natives : List ObjectId := (g.kept.map fun kept => kept.2.natives.items).getD []

/-- The row of the checkpoint of a generation. -/
def checkpoints : List CheckpointRow :=
  (g.kept.map fun kept => ⟨g.row.name, g.row.generation, kept.1⟩).toList

end Generation

/-- The tables with one more name. -/
def withName (t : Tables) (name : Text) (source : Option (Text × UInt64)) : Tables :=
  { t with timelines := t.timelines ++ [⟨name, source⟩] }

/-- The tables with one more generation. -/
def withGeneration (t : Tables) (g : Generation) : Tables :=
  { t with
    owners := t.owners ++ [(.timeline, g.row.owner)]
    ownerRoots := t.ownerRoots ++ rootRows .timeline g.row.owner g.roots
    ownerObjects := t.ownerObjects ++ objectRows .timeline g.row.owner g.natives
    generations := t.generations ++ [g.row]
    checkpoints := t.checkpoints ++ g.checkpoints }

/-- The row of a generation spells its owner. -/
def Owned (row : TimelineHead) : Prop := row.owner.items = generationOwner row.name row.generation

/-- Room for one more generation. -/
structure Room (t : Tables) (row : TimelineHead) : Prop where
  unowned : (OwnerKind.timeline, row.owner) ∉ t.owners
  unrooted : (OwnerKind.timeline, row.owner, row.head) ∉ t.ownerRoots
  registered : t.Registered row.head
  counted : row.generation.toNat ≤ 2 ^ 63 - 1
  new : (row.name, row.generation) ∉ t.generations.map fun old => (old.name, old.generation)
  named : row.name ∈ t.timelines.map TimelineRow.name
  own : row.owner ∉ t.generations.map TimelineHead.owner

theorem integer_eq_ok {value : UInt64} {n : Nat} :
    integer value = .ok n ↔ value.toNat ≤ 2 ^ 63 - 1 ∧ value.toNat = n := by
  rw [integer, bind_eq_ok]
  constructor
  · rintro ⟨_, fits, rest⟩
    exact ⟨require_eq_ok.mp fits, Except.ok.inj rest⟩
  · rintro ⟨fits, rfl⟩
    exact ⟨(), require_true fits, rfl⟩

theorem sized_eq_ok {α : Type} {items : List α} {value : Sized α} :
    sized items = .ok value ↔ value.items = items := by
  unfold sized
  split
  · rename_i fits
    rw [Except.ok.injEq]
    constructor
    · rintro rfl
      rfl
    · rintro rfl
      rfl
  · rename_i long
    constructor
    · intro none
      cases none
    · rintro rfl
      exact absurd value.length_lt long

theorem addGeneration_eq_ok {name : Text} {generation : UInt64} {head : BlobIdentity}
    {row : TimelineHead} : t.addGeneration name generation head = .ok (u, row) ↔
      (row.name = name ∧ row.generation = generation ∧ row.head = head) ∧ Owned row ∧
        t.Room row ∧ t.withGeneration (plainGeneration row) = u := by
  constructor
  · intro result
    obtain ⟨owner, spelt, rest⟩ := bind_eq_ok.mp result
    obtain ⟨owned, added, rest⟩ := bind_eq_ok.mp rest
    obtain ⟨rooted, pinned, rest⟩ := bind_eq_ok.mp rest
    obtain ⟨_, fits, rest⟩ := bind_eq_ok.mp rest
    obtain ⟨last, inserted, rest⟩ := bind_eq_ok.mp rest
    cases rest
    obtain ⟨unowned, rfl⟩ := addOwner_eq_ok.mp added
    obtain ⟨unrooted, ⟨-, registered⟩, rfl⟩ := addRoot_eq_ok.mp pinned
    obtain ⟨new, ⟨named, -⟩, own, rfl⟩ := insertGeneration_eq_ok.mp inserted
    refine ⟨⟨rfl, rfl, rfl⟩, Iff.mp sized_eq_ok spelt, ?_, ?_⟩
    · exact ⟨unowned, unrooted, registered, (Iff.mp integer_eq_ok fits).1, new, named, own⟩
    · simp [withGeneration, Generation.roots, Generation.natives, Generation.checkpoints, rootRows,
        objectRows]
  · rintro ⟨⟨rfl, rfl, rfl⟩, owned, room, rfl⟩
    refine bind_eq_ok.mpr ⟨row.owner, Iff.mpr sized_eq_ok owned, ?_⟩
    refine bind_eq_ok.mpr ⟨_, addOwner_eq_ok.mpr ⟨room.unowned, rfl⟩, ?_⟩
    have listed : (OwnerKind.timeline, row.owner) ∈ t.owners ++ [(.timeline, row.owner)] :=
      List.mem_append_right _ (List.mem_singleton_self _)
    refine bind_eq_ok.mpr
      ⟨_, addRoot_eq_ok.mpr ⟨room.unrooted, ⟨listed, room.registered⟩, rfl⟩, ?_⟩
    refine bind_eq_ok.mpr ⟨_, Iff.mpr integer_eq_ok ⟨room.counted, rfl⟩, ?_⟩
    refine bind_eq_ok.mpr ⟨_, insertGeneration_eq_ok.mpr ⟨room.new, ⟨room.named, ?_⟩, room.own, rfl⟩,
      ?_⟩
    · exact List.mem_append_right _ (List.mem_singleton_self _)
    · simp [withGeneration, Generation.roots, Generation.natives, Generation.checkpoints, rootRows,
        objectRows]

theorem withGeneration_session (t : Tables) (row : TimelineHead) (checkpoint : Text)
    (value : Auxiliary) :
    { (t.withGeneration (plainGeneration row)).withAuxiliary .timeline row.owner value with
      checkpoints := (t.withGeneration (plainGeneration row)).checkpoints ++
        [⟨row.name, row.generation, checkpoint⟩] } =
      t.withGeneration (sessionGeneration ⟨row, checkpoint, value⟩) := by
  simp [withGeneration, withAuxiliary, Generation.roots, Generation.natives,
    Generation.checkpoints, rootRows, objectRows]

theorem addSessionGeneration_eq_ok {name : Text} {generation : UInt64} {head : BlobIdentity}
    {checkpoint : Text} {value : Auxiliary} {session : SessionHead}
    (result : t.addSessionGeneration C disk name generation head checkpoint value =
      .ok (u, session)) :
    (session.timeline.name = name ∧ session.timeline.generation = generation ∧
      session.timeline.head = head) ∧ session.checkpoint = checkpoint ∧ session.auxiliary = value ∧
    Owned session.timeline ∧ t.Room session.timeline ∧ t.Pinnable C disk value ∧
    head ∉ value.pairs.items ∧ t.withGeneration (sessionGeneration session) = u := by
  obtain ⟨⟨grown, row⟩, added, rest⟩ := bind_eq_ok.mp result
  obtain ⟨pinned, retained, rest⟩ := bind_eq_ok.mp rest
  obtain ⟨_, -, rest⟩ := bind_eq_ok.mp rest
  obtain ⟨last, inserted, rest⟩ := bind_eq_ok.mp rest
  cases rest
  rw [addGeneration_eq_ok] at added
  obtain ⟨⟨rfl, rfl, rfl⟩, owned, room, rfl⟩ := added
  obtain ⟨pinnable, apart, rfl⟩ := addAuxiliary_eq_ok retained
  obtain ⟨-, -, rfl⟩ := insertCheckpoint_eq_ok.mp inserted
  refine ⟨⟨rfl, rfl, rfl⟩, rfl, rfl, owned, room, ?_, ?_, ?_⟩
  · exact ⟨pinnable.pairs_nodup, pinnable.registered, pinnable.natives_nodup, pinnable.sealed⟩
  · intro member
    exact apart row.head member (List.mem_append_right _ List.mem_cons_self)
  · exact (withGeneration_session t row checkpoint value).symm

/-- A generation of a session is added when its owner is new, its roots are registered and its
natives are sealed. -/
theorem addSessionGeneration_ok {row : TimelineHead} {checkpoint : Text} {value : Auxiliary}
    (owned : Owned row) (room : t.Room row) (pinnable : t.Pinnable C disk value)
    (apart : row.head ∉ value.pairs.items)
    (unrooted : ∀ root, (OwnerKind.timeline, row.owner, root) ∉ t.ownerRoots)
    (unpinned : ∀ object, (OwnerKind.timeline, row.owner, object) ∉ t.ownerObjects)
    (unchecked : (row.name, row.generation) ∉
      t.checkpoints.map fun old => (old.name, old.generation)) :
    t.addSessionGeneration C disk row.name row.generation row.head checkpoint value =
      .ok (t.withGeneration (sessionGeneration ⟨row, checkpoint, value⟩), ⟨row, checkpoint, value⟩) := by
  have added : t.addGeneration row.name row.generation row.head =
      .ok (t.withGeneration (plainGeneration row), row) :=
    Iff.mpr addGeneration_eq_ok ⟨⟨rfl, rfl, rfl⟩, owned, room, rfl⟩
  refine bind_eq_ok.mpr ⟨_, added, ?_⟩
  refine bind_eq_ok.mpr ⟨_, addAuxiliary_ok ?_ ?_ ?_ ?_, ?_⟩
  · exact List.mem_append_right _ (List.mem_singleton_self _)
  · exact ⟨pinnable.pairs_nodup, pinnable.registered, pinnable.natives_nodup, pinnable.sealed⟩
  · intro root member old
    rcases List.mem_append.mp old with old | new
    · exact unrooted root old
    · cases List.mem_singleton.mp new
      exact apart member
  · intro object _ old
    rcases List.mem_append.mp old with old | new
    · exact unpinned object old
    · cases new
  · refine bind_eq_ok.mpr ⟨_, Iff.mpr integer_eq_ok ⟨room.counted, rfl⟩, ?_⟩
    refine bind_eq_ok.mpr ⟨_, insertCheckpoint_eq_ok.mpr ⟨?_, ?_, rfl⟩, ?_⟩
    · simpa [withAuxiliary, withGeneration, Generation.checkpoints] using unchecked
    · refine List.mem_map.mpr ⟨row, ?_, rfl⟩
      exact List.mem_append_right _ (List.mem_singleton_self _)
    · rw [← withGeneration_session]
      rfl

/-! ## Other transactions -/

theorem addNativePin_rows {owner : Text} {native : ObjectId}
    (result : t.addNativePin owner native = .ok u) :
    (OwnerKind.reader, owner) ∉ t.owners ∧
      { t with
        owners := t.owners ++ [(.reader, owner)]
        ownerObjects := t.ownerObjects ++ objectRows .reader owner [native] } = u := by
  obtain ⟨middle, owned, rest⟩ := bind_eq_ok.mp result
  obtain ⟨new, rfl⟩ := addOwner_eq_ok.mp owned
  obtain ⟨-, -, rfl⟩ := addObject_eq_ok.mp rest
  exact ⟨new, rfl⟩

theorem recordSealedRow_rows {receipt : Receipt} {evidence : Option (List UInt8)}
    (result : t.recordSealedRow C disk receipt evidence = .ok u) :
    ∃ row, t.objectRow receipt.object = some row ∧ row.sealed = none ∧
      { t with objects := t.sealedObjects receipt } = u := by
  obtain ⟨row, reserved, rest⟩ := bind_eq_ok.mp result
  obtain ⟨_, -, rest⟩ := bind_eq_ok.mp rest
  obtain ⟨_, -, rest⟩ := bind_eq_ok.mp rest
  obtain ⟨_, -, rest⟩ := bind_eq_ok.mp rest
  obtain ⟨found, -, unsealed⟩ := reservationOf_eq_ok reserved
  exact ⟨row, found, unsealed, writeSeal_eq_ok rest⟩

theorem recordPreparedSeal_rows {receipt : Receipt} {expected : FileKind}
    (result : t.recordPreparedSeal receipt expected = .ok u) :
    ∃ row, t.objectRow receipt.object = some row ∧ row.sealed = none ∧ row.kind = expected ∧
      { t with objects := t.sealedObjects receipt } = u := by
  obtain ⟨row, reserved, rest⟩ := bind_eq_ok.mp result
  obtain ⟨_, kind, rest⟩ := bind_eq_ok.mp rest
  obtain ⟨found, -, unsealed⟩ := reservationOf_eq_ok reserved
  exact ⟨row, found, unsealed, demands_eq_ok.mp kind, writeSeal_eq_ok rest⟩

/-- A pair is there already, or it is inserted. -/
theorem intern_rows {row : PairRow} {message : String} (result : t.intern row message = .ok u) :
    (t.pairRow row.id.index = some row ∧ t = u) ∨
      (t.pairRow row.id.index = none ∧ t.Insertable row ∧
        { t with pairs := t.pairs ++ [row] } = u) := by
  unfold intern at result
  split at result
  · rename_i old found
    obtain ⟨_, same, rest⟩ := bind_eq_ok.mp result
    cases demands_eq_ok.mp same
    cases rest
    exact .inl ⟨found, rfl⟩
  · rename_i absent
    exact .inr ⟨absent, insertPair_eq_ok result⟩

theorem insertColaRow_pairs {value : Descriptor} (result : t.insertColaRow value = .ok u) :
    ∃ rows, { t with pairs := t.pairs ++ rows } = u := by
  obtain ⟨row, -, rest⟩ := bind_eq_ok.mp result
  rcases intern_rows rest with ⟨-, rfl⟩ | ⟨-, -, rfl⟩
  · exact ⟨[], by rw [List.append_nil]⟩
  · exact ⟨[row], rfl⟩

theorem registerRows_pairs {chain : List Descriptor}
    (result : registerRows C disk chain t = .ok u) :
    ∃ rows, { t with pairs := t.pairs ++ rows } = u := by
  induction chain generalizing t with
  | nil =>
      cases result
      exact ⟨[], by rw [List.append_nil]⟩
  | cons value chain induction =>
      obtain ⟨middle, registered, rest⟩ := bind_eq_ok.mp result
      obtain ⟨_, -, registered⟩ := bind_eq_ok.mp registered
      obtain ⟨_, -, registered⟩ := bind_eq_ok.mp registered
      obtain ⟨_, -, registered⟩ := bind_eq_ok.mp registered
      obtain ⟨first, rfl⟩ := insertColaRow_pairs registered
      obtain ⟨later, rfl⟩ := induction rest
      exact ⟨first ++ later, by simp⟩

theorem registerLinearRows_pairs {chain : List LinearEntry}
    (result : registerLinearRows C disk chain t = .ok u) :
    ∃ rows, { t with pairs := t.pairs ++ rows } = u := by
  induction chain generalizing u with
  | nil =>
      cases result
      exact ⟨[], by rw [List.append_nil]⟩
  | cons entry chain induction =>
      obtain ⟨middle, registered, rest⟩ := bind_eq_ok.mp result
      obtain ⟨rows, rfl⟩ := induction registered
      obtain ⟨_, -, rest⟩ := bind_eq_ok.mp rest
      obtain ⟨_, -, rest⟩ := bind_eq_ok.mp rest
      obtain ⟨row, -, rest⟩ := bind_eq_ok.mp rest
      rcases intern_rows rest with ⟨-, rfl⟩ | ⟨-, -, rfl⟩
      · exact ⟨rows, rfl⟩
      · exact ⟨rows ++ [row], by simp⟩

end Tables

open Tables

variable {C : Context} {disk : Disk} {t u : Tables}

/-- The scopes of attempts are the only table which entering a scope changes. -/
theorem enterScope_rows {attempt : ObjectId} {scope : Option ObjectId}
    (result : enterScope t attempt scope = .ok u) :
    ∃ scopes, { t with privateScopes := scopes } = u := by
  cases scope with
  | none =>
      cases result
      exact ⟨t.privateScopes, rfl⟩
  | some id =>
      obtain ⟨tables, -, rest⟩ := bind_eq_ok.mp result
      obtain ⟨-, rest⟩ := constrain_bind_eq_ok.mp rest
      obtain ⟨-, rest⟩ := constrain_bind_eq_ok.mp rest
      cases rest
      exact ⟨_, rfl⟩

/-- The unsealed objects of some reservations. -/
def reservedRows (attempt : ObjectId) (outputs : List Reservation) : List ObjectRow :=
  outputs.map fun output => ⟨output.object, output.kind, attempt, none⟩

theorem reserveObjects_rows {attempt : ObjectId} {owner : Text} {outputs : List Reservation}
    (result : reserveObjects attempt owner outputs t = .ok u) :
    { t with
      objects := t.objects ++ reservedRows attempt outputs
      ownerObjects := t.ownerObjects ++
        objectRows .attempt owner (outputs.map Reservation.object) } = u := by
  induction outputs generalizing t with
  | nil =>
      cases result
      simp [reservedRows, objectRows]
  | cons output outputs induction =>
      obtain ⟨middle, reserved, rest⟩ := bind_eq_ok.mp result
      obtain ⟨pinned, added, rest⟩ := bind_eq_ok.mp rest
      obtain ⟨-, -, rfl⟩ := insertObject_eq_ok.mp reserved
      obtain ⟨-, -, rfl⟩ := addObject_eq_ok.mp added
      have later := induction rest
      simpa [reservedRows, objectRows] using later

/-- A reservation: the objects, the inputs and the outputs of an attempt. -/
theorem applyReserve_rows {attempt : ObjectId} {owner : Text} {inputs : List BlobIdentity}
    {outputs : List Reservation} {scope : Option ObjectId}
    (result : applyReserve t attempt owner inputs outputs scope = .ok u) :
    ∃ scopes, { t with
      owners := t.owners ++ [(.attempt, owner)]
      attempts := t.attempts ++ [(attempt, owner)]
      privateScopes := scopes
      ownerRoots := t.ownerRoots ++ rootRows .attempt owner inputs
      objects := t.objects ++ reservedRows attempt outputs
      ownerObjects := t.ownerObjects ++
        objectRows .attempt owner (outputs.map Reservation.object) } = u := by
  obtain ⟨_, -, rest⟩ := bind_eq_ok.mp result
  obtain ⟨owned, added, rest⟩ := bind_eq_ok.mp rest
  obtain ⟨job, noted, rest⟩ := bind_eq_ok.mp rest
  obtain ⟨entered, inside, rest⟩ := bind_eq_ok.mp rest
  obtain ⟨rooted, pinned, rest⟩ := bind_eq_ok.mp rest
  obtain ⟨-, rfl⟩ := addOwner_eq_ok.mp added
  obtain ⟨-, -, rfl⟩ := insertAttempt_eq_ok.mp noted
  obtain ⟨scopes, rfl⟩ := enterScope_rows inside
  rw [addRoots_eq_ok] at pinned
  obtain ⟨-, rfl⟩ := pinned
  exact ⟨scopes, reserveObjects_rows rest⟩

theorem applyRememberMerge_rows {domain : Text} {older newer output : ObjectId} {receipt : Receipt}
    {owner : Text}
    (result : applyRememberMerge C disk t domain older newer receipt owner = .ok (u, output)) :
    ∃ owners objects merges, (∀ row ∈ owners, row.1 = OwnerKind.reader) ∧
      (∀ row ∈ objects, row.1 = OwnerKind.reader) ∧
      { t with
        owners := t.owners ++ owners
        ownerObjects := t.ownerObjects ++ objects
        nativeMerges := merges } = u := by
  obtain ⟨_, -, rest⟩ := bind_eq_ok.mp result
  obtain ⟨_, -, rest⟩ := bind_eq_ok.mp rest
  obtain ⟨_, -, rest⟩ := bind_eq_ok.mp rest
  dsimp only at rest
  split at rest
  · obtain ⟨_, -, rest⟩ := bind_eq_ok.mp rest
    cases rest
    refine ⟨[], [], some (t.nativeMerges.getD []), ?_, ?_, ?_⟩
    · exact fun row member => absurd member List.not_mem_nil
    · exact fun row member => absurd member List.not_mem_nil
    · simp only [List.append_nil]
  · obtain ⟨pinned, added, rest⟩ := bind_eq_ok.mp rest
    obtain ⟨last, inserted, rest⟩ := bind_eq_ok.mp rest
    cases rest
    obtain ⟨-, rfl⟩ := addNativePin_rows added
    obtain ⟨-, -, -, rfl⟩ := insertMerge_eq_ok.mp inserted
    exact ⟨_, _, _, by simp, by simp [objectRows], rfl⟩

theorem applyAcquireMerge_rows {domain : Text} {older newer output : ObjectId} {owner : Text}
    (result : applyAcquireMerge C disk t domain older newer owner = .ok (u, output)) :
    { t with
      owners := t.owners ++ [(.reader, owner)]
      ownerObjects := t.ownerObjects ++ objectRows .reader owner [output] } = u := by
  obtain ⟨found, -, rest⟩ := bind_eq_ok.mp result
  obtain ⟨_, -, rest⟩ := bind_eq_ok.mp rest
  obtain ⟨pinned, added, rest⟩ := bind_eq_ok.mp rest
  cases rest
  exact (addNativePin_rows added).2

theorem applySave_rows {name : Text} {head : BlobIdentity}
    (result : applySave C t name head = .ok u) :
    { t with
      owners := t.owners ++ [(.save, name)]
      ownerRoots := t.ownerRoots ++ rootRows .save name [head]
      saves := t.saves ++ [(name, head)] } = u := by
  obtain ⟨_, -, rest⟩ := bind_eq_ok.mp result
  obtain ⟨owned, added, rest⟩ := bind_eq_ok.mp rest
  obtain ⟨rooted, pinned, rest⟩ := bind_eq_ok.mp rest
  obtain ⟨-, rfl⟩ := addOwner_eq_ok.mp added
  obtain ⟨-, -, rfl⟩ := addRoot_eq_ok.mp pinned
  obtain ⟨-, -, rfl⟩ := insertSave_eq_ok.mp rest
  rfl

theorem applyAcquireSave_rows {name reader : Text} {head : BlobIdentity}
    (result : applyAcquireSave t name reader = .ok (u, head)) :
    t.findSave name = some head ∧
      { t with
        owners := t.owners ++ [(.reader, reader)]
        ownerRoots := t.ownerRoots ++ rootRows .reader reader [head] } = u := by
  obtain ⟨found, there, rest⟩ := bind_eq_ok.mp result
  obtain ⟨owned, added, rest⟩ := bind_eq_ok.mp rest
  obtain ⟨rooted, pinned, rest⟩ := bind_eq_ok.mp rest
  cases rest
  obtain ⟨-, rfl⟩ := addOwner_eq_ok.mp added
  obtain ⟨-, -, rfl⟩ := addRoot_eq_ok.mp pinned
  exact ⟨demand_eq_ok.mp there, rfl⟩

theorem applyPrivateBegin_rows {id : ObjectId} (result : applyPrivateBegin t id = .ok u) :
    ∃ scopes, { t with privateScopes := scopes } = u := by
  obtain ⟨-, rest⟩ := constrain_bind_eq_ok.mp result
  cases rest
  exact ⟨_, rfl⟩

theorem applyPrivateRelease_rows {id : ObjectId} (result : applyPrivateRelease t id = .ok u) :
    ∃ scopes, { t with privateScopes := scopes } = u := by
  obtain ⟨tables, -, rest⟩ := bind_eq_ok.mp result
  obtain ⟨_, -, rest⟩ := bind_eq_ok.mp rest
  cases rest
  exact ⟨_, rfl⟩

end Everett.Catalog

import Everett.Catalog.Run

/-!
# The tables only grow

No transaction removes or changes a row, apart from the seal of an unsealed object.  What an
acknowledged call found or made therefore stays.
-/

namespace Everett.Catalog

open Outcome

/-! ## Inversion of the insertions -/

namespace Tables

variable {t u : Tables}

theorem constrain_eq_ok {condition : Prop} [Decidable condition] {constraint : Constraint}
    {unit : Unit} : constrain condition constraint = .ok unit ↔ condition := require_eq_ok

theorem constrain_bind_eq_ok {α : Type} {condition : Prop} [Decidable condition]
    {constraint : Constraint} {rest : Unit → Answer α} {a : α} :
    (constrain condition constraint >>= rest) = .ok a ↔ condition ∧ rest () = .ok a := by
  rw [bind_eq_ok]
  constructor
  · rintro ⟨_, holds, result⟩
    exact ⟨Iff.mp constrain_eq_ok holds, result⟩
  · rintro ⟨holds, result⟩
    exact ⟨(), Iff.mpr constrain_eq_ok holds, result⟩

theorem demands_eq_ok {condition : Prop} [Decidable condition] {message : String} {unit : Unit} :
    demands condition message = .ok unit ↔ condition := require_eq_ok

theorem addOwner_eq_ok {kind : OwnerKind} {owner : Text} : t.addOwner kind owner = .ok u ↔
    (kind, owner) ∉ t.owners ∧ { t with owners := t.owners ++ [(kind, owner)] } = u := by
  simp only [addOwner, constrain_bind_eq_ok, Except.ok.injEq]

theorem addRoot_eq_ok {kind : OwnerKind} {owner : Text} {root : BlobIdentity} :
    t.addRoot kind owner root = .ok u ↔ (kind, owner, root) ∉ t.ownerRoots ∧
      ((kind, owner) ∈ t.owners ∧ t.Registered root) ∧
      { t with ownerRoots := t.ownerRoots ++ [(kind, owner, root)] } = u := by
  simp only [addRoot, constrain_bind_eq_ok, Except.ok.injEq]

theorem addObject_eq_ok {kind : OwnerKind} {owner : Text} {object : ObjectId} :
    t.addObject kind owner object = .ok u ↔ (kind, owner, object) ∉ t.ownerObjects ∧
      ((kind, owner) ∈ t.owners ∧ object ∈ t.objects.map ObjectRow.id) ∧
      { t with ownerObjects := t.ownerObjects ++ [(kind, owner, object)] } = u := by
  simp only [addObject, constrain_bind_eq_ok, Except.ok.injEq]

theorem insertAttempt_eq_ok {attempt : ObjectId} {owner : Text} :
    t.insertAttempt attempt owner = .ok u ↔ attempt ∉ t.attempts.map Prod.fst ∧
      owner ∉ t.attempts.map Prod.snd ∧
      { t with attempts := t.attempts ++ [(attempt, owner)] } = u := by
  simp only [insertAttempt, constrain_bind_eq_ok, Except.ok.injEq]

theorem insertObject_eq_ok {id attempt : ObjectId} {kind : FileKind} :
    t.insertObject id kind attempt = .ok u ↔ id ∉ t.objects.map ObjectRow.id ∧
      attempt ∈ t.attempts.map Prod.fst ∧
      { t with objects := t.objects ++ [⟨id, kind, attempt, none⟩] } = u := by
  simp only [insertObject, constrain_bind_eq_ok, Except.ok.injEq]

/-- What a new row of `pairs` satisfies. -/
structure Insertable (t : Tables) (row : PairRow) : Prop where
  fresh : row.id.index ∉ t.pairs.map fun old => old.id.index
  index : row.id.index ∈ t.objects.map ObjectRow.id
  native : row.id.native ∈ t.objects.map ObjectRow.id
  target : ∀ target ∈ row.target, t.Registered target
  secondary : ∀ secondary ∈ row.secondary, secondary ∈ t.objects.map ObjectRow.id
  counts : row.virtualCount = row.nativeCount + row.borrowedCount + row.secondaryBorrowedCount
  lone : row.secondary = none → row.secondaryNativeCount = 0 ∧ row.secondaryBorrowedCount = 0
  linear : row.layout = .linear →
    row.secondary = none ∧ row.secondaryNativeCount = 0 ∧ row.secondaryBorrowedCount = 0

theorem insertPair_eq_ok {row : PairRow} (inserted : t.insertPair row = .ok u) :
    t.Insertable row ∧ { t with pairs := t.pairs ++ [row] } = u := by
  obtain ⟨_, fresh, rest⟩ := bind_eq_ok.mp inserted
  obtain ⟨_, known, rest⟩ := bind_eq_ok.mp rest
  obtain ⟨_, counts, rest⟩ := bind_eq_ok.mp rest
  obtain ⟨_, lone, rest⟩ := bind_eq_ok.mp rest
  obtain ⟨_, linear, rest⟩ := bind_eq_ok.mp rest
  cases rest
  obtain ⟨index, native, target, secondary⟩ := Iff.mp constrain_eq_ok known
  obtain ⟨native_le, secondary_le, borrowed⟩ := Iff.mp constrain_eq_ok counts
  refine ⟨⟨Iff.mp constrain_eq_ok fresh, index, native, target, secondary, by omega, ?_, ?_⟩, rfl⟩
  · intro none
    rcases Iff.mp constrain_eq_ok lone with some | zero
    · rw [none] at some
      cases some
    · exact zero
  · intro layout
    rcases Iff.mp constrain_eq_ok linear with cola | lone
    · cases layout.symm.trans cola
    · exact lone

theorem insertSave_eq_ok {name : Text} {head : BlobIdentity} : t.insertSave name head = .ok u ↔
    name ∉ t.saves.map Prod.fst ∧ t.Registered head ∧
      { t with saves := t.saves ++ [(name, head)] } = u := by
  simp only [insertSave, constrain_bind_eq_ok, Except.ok.injEq]

theorem insertTimeline_eq_ok {name : Text} {source : Option (Text × UInt64)} :
    t.insertTimeline name source = .ok u ↔ name ∉ t.timelines.map TimelineRow.name ∧
      (∀ origin ∈ source, origin ∈ t.generations.map fun row => (row.name, row.generation)) ∧
      { t with timelines := t.timelines ++ [⟨name, source⟩] } = u := by
  simp only [insertTimeline, constrain_bind_eq_ok, Except.ok.injEq]

theorem insertGeneration_eq_ok {row : TimelineHead} : t.insertGeneration row = .ok u ↔
    (row.name, row.generation) ∉ t.generations.map (fun old => (old.name, old.generation)) ∧
      (row.name ∈ t.timelines.map TimelineRow.name ∧
        (OwnerKind.timeline, row.owner, row.head) ∈ t.ownerRoots) ∧
      row.owner ∉ t.generations.map TimelineHead.owner ∧
      { t with generations := t.generations ++ [row] } = u := by
  simp only [insertGeneration, constrain_bind_eq_ok, Except.ok.injEq]

theorem insertCheckpoint_eq_ok {row : CheckpointRow} : t.insertCheckpoint row = .ok u ↔
    (row.name, row.generation) ∉ t.checkpoints.map (fun old => (old.name, old.generation)) ∧
      (row.name, row.generation) ∈ t.generations.map (fun old => (old.name, old.generation)) ∧
      { t with checkpoints := t.checkpoints ++ [row] } = u := by
  simp only [insertCheckpoint, constrain_bind_eq_ok, Except.ok.injEq]

theorem insertSessionSave_eq_ok {row : SessionSaveRow} : t.insertSessionSave row = .ok u ↔
    row.name ∉ t.sessionSaves.map SessionSaveRow.name ∧
      (row.name ∈ t.saves.map Prod.fst ∧ (row.sessionName, row.generation) ∈
        t.checkpoints.map (fun old => (old.name, old.generation))) ∧
      { t with sessionSaves := t.sessionSaves ++ [row] } = u := by
  simp only [insertSessionSave, constrain_bind_eq_ok, Except.ok.injEq]

theorem insertMerge_eq_ok {rows : List MergeRow} {row : MergeRow} :
    t.insertMerge rows row = .ok u ↔
      (row.domain, row.older, row.newer) ∉ rows.map (fun old => (old.domain, old.older, old.newer)) ∧
      (row.older ∈ t.objects.map ObjectRow.id ∧ row.newer ∈ t.objects.map ObjectRow.id ∧
        row.output ∈ t.objects.map ObjectRow.id ∧
        (OwnerKind.reader, row.owner, row.output) ∈ t.ownerObjects) ∧
      row.owner ∉ rows.map MergeRow.owner ∧
      { t with nativeMerges := some (rows ++ [row]) } = u := by
  simp only [insertMerge, constrain_bind_eq_ok, Except.ok.injEq]

/-- The objects with the seal of a receipt. -/
def sealedObjects (t : Tables) (receipt : Receipt) : List ObjectRow :=
  t.objects.map fun row =>
    if row.id = receipt.object then
      { row with sealed := some ⟨receipt.bytes, receipt.bodyCrc32c, receipt.barrier⟩ }
    else row

theorem writeSeal_eq_ok {receipt : Receipt} (written : t.writeSeal receipt = .ok u) :
    { t with objects := t.sealedObjects receipt } = u := by
  obtain ⟨bytes, -, rest⟩ := bind_eq_ok.mp written
  obtain ⟨_, -, rest⟩ := bind_eq_ok.mp rest
  cases rest
  rfl

theorem reservationOf_eq_ok {receipt : Receipt} {row : ObjectRow}
    (reserved : t.reservationOf receipt = .ok row) :
    t.objectRow receipt.object = some row ∧ row.attempt = receipt.attempt ∧ row.sealed = none := by
  obtain ⟨found, looked, rest⟩ := bind_eq_ok.mp reserved
  obtain ⟨_, own, rest⟩ := bind_eq_ok.mp rest
  cases rest
  exact ⟨demand_eq_ok.mp looked, Iff.mp demands_eq_ok own⟩

end Tables

/-! ## Elementary changes -/

/-- One statement which writes. -/
inductive Change : Tables → Tables → Prop
  | owner {t : Tables} {kind : OwnerKind} {owner : Text} (new : (kind, owner) ∉ t.owners) :
      Change t { t with owners := t.owners ++ [(kind, owner)] }
  | root {t : Tables} {kind : OwnerKind} {owner : Text} {root : BlobIdentity}
      (new : (kind, owner, root) ∉ t.ownerRoots) (owned : (kind, owner) ∈ t.owners)
      (registered : t.Registered root) :
      Change t { t with ownerRoots := t.ownerRoots ++ [(kind, owner, root)] }
  | object {t : Tables} {kind : OwnerKind} {owner : Text} {object : ObjectId}
      (new : (kind, owner, object) ∉ t.ownerObjects) (owned : (kind, owner) ∈ t.owners)
      (known : object ∈ t.objects.map ObjectRow.id) :
      Change t { t with ownerObjects := t.ownerObjects ++ [(kind, owner, object)] }
  | attempt {t : Tables} {attempt : ObjectId} {owner : Text}
      (new : attempt ∉ t.attempts.map Prod.fst) (own : owner ∉ t.attempts.map Prod.snd) :
      Change t { t with attempts := t.attempts ++ [(attempt, owner)] }
  | reserve {t : Tables} {id attempt : ObjectId} {kind : FileKind}
      (new : id ∉ t.objects.map ObjectRow.id) (known : attempt ∈ t.attempts.map Prod.fst) :
      Change t { t with objects := t.objects ++ [⟨id, kind, attempt, none⟩] }
  | sealed {t : Tables} {receipt : Receipt} {row : ObjectRow}
      (found : t.objectRow receipt.object = some row) (unsealed : row.sealed = none) :
      Change t { t with objects := t.sealedObjects receipt }
  | pair {t : Tables} {row : PairRow} (insertable : t.Insertable row) :
      Change t { t with pairs := t.pairs ++ [row] }
  | save {t : Tables} {name : Text} {head : BlobIdentity} (new : name ∉ t.saves.map Prod.fst)
      (registered : t.Registered head) :
      Change t { t with saves := t.saves ++ [(name, head)] }
  | timeline {t : Tables} {name : Text} {source : Option (Text × UInt64)}
      (new : name ∉ t.timelines.map TimelineRow.name)
      (known : ∀ origin ∈ source,
        origin ∈ t.generations.map fun row => (row.name, row.generation)) :
      Change t { t with timelines := t.timelines ++ [⟨name, source⟩] }
  | generation {t : Tables} {row : TimelineHead}
      (new : (row.name, row.generation) ∉
        t.generations.map fun old => (old.name, old.generation))
      (named : row.name ∈ t.timelines.map TimelineRow.name)
      (rooted : (OwnerKind.timeline, row.owner, row.head) ∈ t.ownerRoots)
      (own : row.owner ∉ t.generations.map TimelineHead.owner) :
      Change t { t with generations := t.generations ++ [row] }
  | checkpoint {t : Tables} {row : CheckpointRow}
      (new : (row.name, row.generation) ∉
        t.checkpoints.map fun old => (old.name, old.generation))
      (known : (row.name, row.generation) ∈
        t.generations.map fun old => (old.name, old.generation)) :
      Change t { t with checkpoints := t.checkpoints ++ [row] }
  | sessionSave {t : Tables} {row : SessionSaveRow}
      (new : row.name ∉ t.sessionSaves.map SessionSaveRow.name)
      (saved : row.name ∈ t.saves.map Prod.fst)
      (known : (row.sessionName, row.generation) ∈
        t.checkpoints.map fun old => (old.name, old.generation)) :
      Change t { t with sessionSaves := t.sessionSaves ++ [row] }
  | merge {t : Tables} {row : MergeRow}
      (new : (row.domain, row.older, row.newer) ∉
        (t.nativeMerges.getD []).map fun old => (old.domain, old.older, old.newer))
      (pinned : (OwnerKind.reader, row.owner, row.output) ∈ t.ownerObjects) :
      Change t { t with nativeMerges := some (t.nativeMerges.getD [] ++ [row]) }
  | merges {t : Tables} : Change t { t with nativeMerges := some (t.nativeMerges.getD []) }
  | scopes {t : Tables} {next : PrivateScopes}
      (scopes : (ensurePrivateScopes t).scopes <+: next.scopes)
      (attempts : (ensurePrivateScopes t).attempts <+: next.attempts)
      (released : (ensurePrivateScopes t).released <+: next.released) :
      Change t { t with privateScopes := some next }

/-- Some statements one after the other. -/
abbrev Changes : Tables → Tables → Prop := Relation.ReflTransGen Change

namespace Changes

variable {t u : Tables}

open Tables

theorem addOwner {kind : OwnerKind} {owner : Text} (result : t.addOwner kind owner = .ok u) :
    Changes t u := by
  obtain ⟨new, rfl⟩ := Iff.mp addOwner_eq_ok result
  exact .single (.owner new)

theorem addRoot {kind : OwnerKind} {owner : Text} {root : BlobIdentity}
    (result : t.addRoot kind owner root = .ok u) : Changes t u := by
  obtain ⟨new, ⟨owned, registered⟩, rfl⟩ := Iff.mp addRoot_eq_ok result
  exact .single (.root new owned registered)

theorem addObject {kind : OwnerKind} {owner : Text} {object : ObjectId}
    (result : t.addObject kind owner object = .ok u) : Changes t u := by
  obtain ⟨new, ⟨owned, known⟩, rfl⟩ := Iff.mp addObject_eq_ok result
  exact .single (.object new owned known)

theorem addRoots {kind : OwnerKind} {owner : Text} {roots : List BlobIdentity}
    (result : Tables.addRoots kind owner roots t = .ok u) : Changes t u := by
  induction roots generalizing t with
  | nil =>
      cases result
      exact .refl
  | cons root roots induction =>
      obtain ⟨middle, added, rest⟩ := bind_eq_ok.mp result
      exact (addRoot added).trans (induction rest)

theorem addNatives {C : Context} {disk : Disk} {kind : OwnerKind} {owner : Text}
    {natives : List ObjectId} (result : Tables.addNatives C disk kind owner natives t = .ok u) :
    Changes t u := by
  induction natives generalizing t with
  | nil =>
      cases result
      exact .refl
  | cons native natives induction =>
      obtain ⟨_, -, rest⟩ := bind_eq_ok.mp result
      obtain ⟨middle, added, rest⟩ := bind_eq_ok.mp rest
      exact (addObject added).trans (induction rest)

theorem addAuxiliary {C : Context} {disk : Disk} {kind : OwnerKind} {owner : Text}
    {value : Auxiliary} (result : t.addAuxiliary C disk kind owner value = .ok u) :
    Changes t u := by
  obtain ⟨middle, rooted, rest⟩ := bind_eq_ok.mp result
  exact (addRoots rooted).trans (addNatives rest)

theorem insertTimeline {name : Text} {source : Option (Text × UInt64)}
    (result : t.insertTimeline name source = .ok u) : Changes t u := by
  obtain ⟨new, known, rfl⟩ := Iff.mp insertTimeline_eq_ok result
  exact .single (.timeline new known)

theorem addGeneration {name : Text} {generation : UInt64} {head : BlobIdentity}
    {row : TimelineHead} (result : t.addGeneration name generation head = .ok (u, row)) :
    Changes t u := by
  obtain ⟨owner, -, rest⟩ := bind_eq_ok.mp result
  obtain ⟨owned, added, rest⟩ := bind_eq_ok.mp rest
  obtain ⟨rooted, pinned, rest⟩ := bind_eq_ok.mp rest
  obtain ⟨_, -, rest⟩ := bind_eq_ok.mp rest
  obtain ⟨last, inserted, rest⟩ := bind_eq_ok.mp rest
  cases rest
  obtain ⟨new, ⟨named, root⟩, own, rfl⟩ := insertGeneration_eq_ok.mp inserted
  exact ((addOwner added).trans (addRoot pinned)).tail (.generation new named root own)

theorem addSessionGeneration {C : Context} {disk : Disk} {name : Text} {generation : UInt64}
    {head : BlobIdentity} {checkpoint : Text} {value : Auxiliary} {row : SessionHead}
    (result : t.addSessionGeneration C disk name generation head checkpoint value = .ok (u, row)) :
    Changes t u := by
  obtain ⟨⟨grown, line⟩, added, rest⟩ := bind_eq_ok.mp result
  obtain ⟨pinned, extended, rest⟩ := bind_eq_ok.mp rest
  obtain ⟨_, -, rest⟩ := bind_eq_ok.mp rest
  obtain ⟨last, inserted, rest⟩ := bind_eq_ok.mp rest
  cases rest
  obtain ⟨new, known, rfl⟩ := insertCheckpoint_eq_ok.mp inserted
  exact ((addGeneration added).trans (addAuxiliary extended)).tail (.checkpoint new known)

theorem addNativePin {owner : Text} {native : ObjectId}
    (result : t.addNativePin owner native = .ok u) : Changes t u := by
  obtain ⟨middle, owned, rest⟩ := bind_eq_ok.mp result
  exact (addOwner owned).trans (addObject rest)

theorem recordSealedRow {C : Context} {disk : Disk} {receipt : Receipt}
    {evidence : Option (List UInt8)} (result : t.recordSealedRow C disk receipt evidence = .ok u) :
    Changes t u := by
  obtain ⟨row, reserved, rest⟩ := bind_eq_ok.mp result
  obtain ⟨_, -, rest⟩ := bind_eq_ok.mp rest
  obtain ⟨bytes, -, rest⟩ := bind_eq_ok.mp rest
  obtain ⟨_, -, rest⟩ := bind_eq_ok.mp rest
  cases writeSeal_eq_ok rest
  obtain ⟨found, -, unsealed⟩ := reservationOf_eq_ok reserved
  exact .single (.sealed found unsealed)

theorem recordPreparedSeal {receipt : Receipt} {expected : FileKind}
    (result : t.recordPreparedSeal receipt expected = .ok u) : Changes t u := by
  obtain ⟨row, reserved, rest⟩ := bind_eq_ok.mp result
  obtain ⟨_, -, rest⟩ := bind_eq_ok.mp rest
  cases writeSeal_eq_ok rest
  obtain ⟨found, -, unsealed⟩ := reservationOf_eq_ok reserved
  exact .single (.sealed found unsealed)

theorem intern {row : PairRow} {message : String} (result : t.intern row message = .ok u) :
    Changes t u := by
  unfold Tables.intern at result
  split at result
  · obtain ⟨_, -, rest⟩ := bind_eq_ok.mp result
    cases rest
    exact .refl
  · obtain ⟨insertable, rfl⟩ := insertPair_eq_ok result
    exact .single (.pair insertable)

theorem insertColaRow {value : Descriptor} (result : t.insertColaRow value = .ok u) :
    Changes t u := by
  obtain ⟨row, -, rest⟩ := bind_eq_ok.mp result
  exact intern rest

theorem registerRows {C : Context} {disk : Disk} {chain : List Descriptor}
    (result : Tables.registerRows C disk chain t = .ok u) : Changes t u := by
  induction chain generalizing t with
  | nil =>
      cases result
      exact .refl
  | cons value chain induction =>
      obtain ⟨middle, registered, rest⟩ := bind_eq_ok.mp result
      obtain ⟨_, -, registered⟩ := bind_eq_ok.mp registered
      obtain ⟨_, -, registered⟩ := bind_eq_ok.mp registered
      obtain ⟨_, -, registered⟩ := bind_eq_ok.mp registered
      exact (insertColaRow registered).trans (induction rest)

theorem registerLinearRows {C : Context} {disk : Disk} {chain : List LinearEntry}
    (result : Tables.registerLinearRows C disk chain t = .ok u) : Changes t u := by
  induction chain generalizing u with
  | nil =>
      cases result
      exact .refl
  | cons entry chain induction =>
      obtain ⟨middle, rest, registered⟩ := bind_eq_ok.mp result
      obtain ⟨_, -, registered⟩ := bind_eq_ok.mp registered
      obtain ⟨_, -, registered⟩ := bind_eq_ok.mp registered
      obtain ⟨row, -, registered⟩ := bind_eq_ok.mp registered
      exact (induction rest).trans (intern registered)

theorem reserveObjects {attempt : ObjectId} {owner : Text} {outputs : List Reservation}
    (result : Catalog.reserveObjects attempt owner outputs t = .ok u) : Changes t u := by
  induction outputs generalizing t with
  | nil =>
      cases result
      exact .refl
  | cons output outputs induction =>
      obtain ⟨reserved, inserted, rest⟩ := bind_eq_ok.mp result
      obtain ⟨pinned, added, later⟩ := bind_eq_ok.mp rest
      obtain ⟨new, known, rfl⟩ := insertObject_eq_ok.mp inserted
      exact ((Relation.ReflTransGen.single (.reserve new known)).trans (addObject added)).trans
        (induction later)

theorem enterScope {attempt : ObjectId} {scope : Option ObjectId}
    (result : Catalog.enterScope t attempt scope = .ok u) : Changes t u := by
  cases scope with
  | none =>
      cases result
      exact .refl
  | some id =>
      obtain ⟨tables, found, rest⟩ := bind_eq_ok.mp result
      obtain ⟨_, -, rest⟩ := bind_eq_ok.mp rest
      obtain ⟨_, -, rest⟩ := bind_eq_ok.mp rest
      cases rest
      have here : ensurePrivateScopes t = tables := by
        rw [ensurePrivateScopes, demand_eq_ok.mp found]
        rfl
      refine .single (.scopes ?_ ?_ ?_)
      · rw [here]
      · rw [here]
        exact List.prefix_append _ _
      · rw [here]

/-! ## Transactions are made of statements -/

theorem applyReserve {attempt : ObjectId} {owner : Text} {inputs : List BlobIdentity}
    {outputs : List Reservation} {scope : Option ObjectId}
    (result : Catalog.applyReserve t attempt owner inputs outputs scope = .ok u) :
    Changes t u := by
  obtain ⟨_, -, rest⟩ := bind_eq_ok.mp result
  obtain ⟨owned, added, rest⟩ := bind_eq_ok.mp rest
  obtain ⟨job, inserted, rest⟩ := bind_eq_ok.mp rest
  obtain ⟨entered, inside, rest⟩ := bind_eq_ok.mp rest
  obtain ⟨rooted, pinned, later⟩ := bind_eq_ok.mp rest
  obtain ⟨new, own, rfl⟩ := insertAttempt_eq_ok.mp inserted
  exact ((((addOwner added).tail (.attempt new own)).trans (enterScope inside)).trans
    (addRoots pinned)).trans (reserveObjects later)

theorem applyRememberMerge {C : Context} {disk : Disk} {domain : Text} {older newer : ObjectId}
    {receipt : Receipt} {owner : Text} {output : ObjectId}
    (result : Catalog.applyRememberMerge C disk t domain older newer receipt owner =
      .ok (u, output)) : Changes t u := by
  obtain ⟨_, -, rest⟩ := bind_eq_ok.mp result
  obtain ⟨_, -, rest⟩ := bind_eq_ok.mp rest
  obtain ⟨_, -, rest⟩ := bind_eq_ok.mp rest
  dsimp only at rest
  split at rest
  · obtain ⟨_, -, rest⟩ := bind_eq_ok.mp rest
    cases rest
    exact .single .merges
  · obtain ⟨pinned, added, rest⟩ := bind_eq_ok.mp rest
    obtain ⟨last, inserted, rest⟩ := bind_eq_ok.mp rest
    cases rest
    have rows : t.nativeMerges = pinned.nativeMerges := by
      obtain ⟨middle, owned, later⟩ := bind_eq_ok.mp added
      obtain ⟨-, rfl⟩ := Iff.mp addOwner_eq_ok owned
      obtain ⟨-, -, rfl⟩ := Iff.mp addObject_eq_ok later
      rfl
    rw [rows] at inserted
    obtain ⟨new, ⟨-, -, -, root⟩, -, rfl⟩ := insertMerge_eq_ok.mp inserted
    exact (addNativePin added).tail (.merge new root)

theorem applyAcquireMerge {C : Context} {disk : Disk} {domain : Text} {older newer : ObjectId}
    {owner : Text} {output : ObjectId}
    (result : Catalog.applyAcquireMerge C disk t domain older newer owner = .ok (u, output)) :
    Changes t u := by
  obtain ⟨found, -, rest⟩ := bind_eq_ok.mp result
  obtain ⟨_, -, rest⟩ := bind_eq_ok.mp rest
  obtain ⟨pinned, added, rest⟩ := bind_eq_ok.mp rest
  cases rest
  exact addNativePin added

theorem insertSave {name : Text} {head : BlobIdentity}
    (result : t.insertSave name head = .ok u) : Changes t u := by
  obtain ⟨new, registered, rfl⟩ := insertSave_eq_ok.mp result
  exact .single (.save new registered)

theorem applySave {C : Context} {name : Text} {head : BlobIdentity}
    (result : Catalog.applySave C t name head = .ok u) : Changes t u := by
  obtain ⟨_, -, rest⟩ := bind_eq_ok.mp result
  obtain ⟨owned, added, rest⟩ := bind_eq_ok.mp rest
  obtain ⟨rooted, pinned, rest⟩ := bind_eq_ok.mp rest
  exact ((addOwner added).trans (addRoot pinned)).trans (insertSave rest)

theorem applyAcquireSave {name reader : Text} {head : BlobIdentity}
    (result : Catalog.applyAcquireSave t name reader = .ok (u, head)) : Changes t u := by
  obtain ⟨found, -, rest⟩ := bind_eq_ok.mp result
  obtain ⟨owned, added, rest⟩ := bind_eq_ok.mp rest
  obtain ⟨rooted, pinned, rest⟩ := bind_eq_ok.mp rest
  cases rest
  exact (addOwner added).trans (addRoot pinned)

theorem applyCreateTimeline {C : Context} {name : Text} {head : BlobIdentity} {row : TimelineHead}
    (result : Catalog.applyCreateTimeline C t name head = .ok (u, row)) : Changes t u := by
  obtain ⟨_, -, rest⟩ := bind_eq_ok.mp result
  obtain ⟨named, inserted, rest⟩ := bind_eq_ok.mp rest
  exact (insertTimeline inserted).trans (addGeneration rest)

theorem applyForkTimeline {C : Context} {name : Text} {source row : TimelineHead}
    (result : Catalog.applyForkTimeline C t name source = .ok (u, row)) : Changes t u := by
  obtain ⟨_, -, rest⟩ := bind_eq_ok.mp result
  obtain ⟨_, -, rest⟩ := bind_eq_ok.mp rest
  obtain ⟨_, -, rest⟩ := bind_eq_ok.mp rest
  obtain ⟨named, inserted, rest⟩ := bind_eq_ok.mp rest
  exact (insertTimeline inserted).trans (addGeneration rest)

theorem applyPublishTimeline {C : Context} {expected : TimelineHead} {candidate : BlobIdentity}
    {published : Bool} {row : TimelineHead}
    (result : Catalog.applyPublishTimeline C t expected candidate = .ok (u, published, row)) :
    Changes t u := by
  obtain ⟨current, -, rest⟩ := bind_eq_ok.mp result
  obtain ⟨_, -, rest⟩ := bind_eq_ok.mp rest
  split at rest
  · obtain ⟨_, -, rest⟩ := bind_eq_ok.mp rest
    obtain ⟨_, -, rest⟩ := bind_eq_ok.mp rest
    obtain ⟨⟨grown, line⟩, added, rest⟩ := bind_eq_ok.mp rest
    cases rest
    exact addGeneration added
  · cases rest
    exact .refl

theorem applyCreateSession {C : Context} {disk : Disk} {name : Text} {head : BlobIdentity}
    {checkpoint : Text} {roots : Auxiliary} {row : SessionHead}
    (result : Catalog.applyCreateSession C disk t name head checkpoint roots = .ok (u, row)) :
    Changes t u := by
  obtain ⟨_, -, rest⟩ := bind_eq_ok.mp result
  obtain ⟨named, inserted, rest⟩ := bind_eq_ok.mp rest
  exact (insertTimeline inserted).trans (addSessionGeneration rest)

theorem applyPublishSession {C : Context} {disk : Disk} {expected row : SessionHead}
    {candidate : BlobIdentity} {checkpoint : Text} {roots : Auxiliary} {published : Bool}
    (result : Catalog.applyPublishSession C disk t expected candidate checkpoint roots =
      .ok (u, published, row)) : Changes t u := by
  obtain ⟨found, -, rest⟩ := bind_eq_ok.mp result
  obtain ⟨current, -, rest⟩ := bind_eq_ok.mp rest
  split at rest
  · obtain ⟨_, -, rest⟩ := bind_eq_ok.mp rest
    obtain ⟨_, -, rest⟩ := bind_eq_ok.mp rest
    obtain ⟨⟨grown, line⟩, added, rest⟩ := bind_eq_ok.mp rest
    cases rest
    exact addSessionGeneration added
  · cases rest
    exact .refl

theorem applyForkSession {C : Context} {disk : Disk} {name : Text} {source row : SessionHead}
    (result : Catalog.applyForkSession C disk t name source = .ok (u, row)) : Changes t u := by
  obtain ⟨_, -, rest⟩ := bind_eq_ok.mp result
  obtain ⟨_, -, rest⟩ := bind_eq_ok.mp rest
  obtain ⟨named, inserted, rest⟩ := bind_eq_ok.mp rest
  exact (insertTimeline inserted).trans (addSessionGeneration rest)

theorem applySaveSession {C : Context} {disk : Disk} {name : Text} {source : SessionHead}
    (result : Catalog.applySaveSession C disk t name source = .ok u) : Changes t u := by
  obtain ⟨_, -, rest⟩ := bind_eq_ok.mp result
  obtain ⟨owned, added, rest⟩ := bind_eq_ok.mp rest
  obtain ⟨rooted, pinned, rest⟩ := bind_eq_ok.mp rest
  obtain ⟨extended, retained, rest⟩ := bind_eq_ok.mp rest
  obtain ⟨saved, kept, rest⟩ := bind_eq_ok.mp rest
  obtain ⟨new, ⟨there, known⟩, rfl⟩ := insertSessionSave_eq_ok.mp rest
  exact ((((addOwner added).trans (addRoot pinned)).trans (addAuxiliary retained)).trans
    (insertSave kept)).tail (.sessionSave new there known)

theorem applyPrivateBegin {id : ObjectId} (result : Catalog.applyPrivateBegin t id = .ok u) :
    Changes t u := by
  obtain ⟨-, rest⟩ := constrain_bind_eq_ok.mp result
  cases rest
  exact .single (.scopes (List.prefix_append _ _) List.prefix_rfl List.prefix_rfl)

theorem applyPrivateRelease {id : ObjectId} (result : Catalog.applyPrivateRelease t id = .ok u) :
    Changes t u := by
  obtain ⟨tables, found, rest⟩ := bind_eq_ok.mp result
  obtain ⟨_, -, rest⟩ := bind_eq_ok.mp rest
  cases rest
  have here : ensurePrivateScopes t = tables := by
    rw [ensurePrivateScopes, demand_eq_ok.mp found]
    rfl
  refine .single (.scopes ?_ ?_ ?_)
  · rw [here]
  · rw [here]
  · rw [here]
    dsimp only
    split
    · exact List.prefix_rfl
    · exact List.prefix_append _ _

/-- A silent transaction. -/
theorem of_silent {result : Answer Tables} {outcome : List UInt8}
    (changes : ∀ v, result = .ok v → Changes t v) (applied : silent result = .ok (u, outcome)) :
    Changes t u := by
  obtain ⟨v, done, rest⟩ := bind_eq_ok.mp applied
  cases rest
  exact changes u done

/-- A transaction with an encoded outcome. -/
theorem of_encoded {α : Type} {encode : α → List UInt8} {result : Answer (Tables × α)}
    {outcome : List UInt8} (changes : ∀ v a, result = .ok (v, a) → Changes t v)
    (applied : encoded encode result = .ok (u, outcome)) : Changes t u := by
  obtain ⟨⟨v, a⟩, done, rest⟩ := bind_eq_ok.mp applied
  cases rest
  exact changes u a done

end Changes

/-- Every transaction is some statements one after the other. -/
theorem Work.changes {C : Context} {disk : Disk} {work : Work} {t u : Tables}
    {outcome : List UInt8} (applied : work.apply C disk t = .ok (u, outcome)) : Changes t u := by
  unfold Work.apply at applied
  split at applied
  case h_1 => exact Changes.of_silent (fun _ => Changes.applyReserve) applied
  case h_2 => exact Changes.of_silent (fun _ => Changes.recordSealedRow) applied
  case h_3 => exact Changes.of_encoded (fun _ _ => Changes.applyRememberMerge) applied
  case h_4 => exact Changes.of_encoded (fun _ _ => Changes.applyAcquireMerge) applied
  case h_5 =>
    obtain ⟨grown, registered, rest⟩ := bind_eq_ok.mp applied
    cases rest
    exact Changes.registerLinearRows registered
  case h_6 =>
    obtain ⟨grown, registered, rest⟩ := bind_eq_ok.mp applied
    cases rest
    exact Changes.registerRows registered
  case h_7 =>
    obtain ⟨grown, inserted, rest⟩ := bind_eq_ok.mp applied
    cases rest
    exact Changes.insertColaRow inserted
  case h_8 =>
    obtain ⟨recorded, noted, rest⟩ := bind_eq_ok.mp applied
    obtain ⟨grown, inserted, rest⟩ := bind_eq_ok.mp rest
    cases rest
    exact (Changes.recordSealedRow noted).trans (Changes.insertColaRow inserted)
  case h_9 =>
    obtain ⟨recorded, noted, rest⟩ := bind_eq_ok.mp applied
    obtain ⟨both, also, rest⟩ := bind_eq_ok.mp rest
    obtain ⟨grown, inserted, rest⟩ := bind_eq_ok.mp rest
    cases rest
    exact ((Changes.recordPreparedSeal noted).trans (Changes.recordPreparedSeal also)).trans
      (Changes.insertColaRow inserted)
  case h_10 =>
    apply Changes.of_encoded _ applied
    intro v a done
    obtain ⟨saved, kept, rest⟩ := bind_eq_ok.mp done
    cases rest
    exact Changes.applySave kept
  case h_11 => exact Changes.of_encoded (fun _ _ => Changes.applyAcquireSave) applied
  case h_12 => exact Changes.of_encoded (fun _ _ => Changes.applyCreateTimeline) applied
  case h_13 => exact Changes.of_encoded (fun _ _ => Changes.applyForkTimeline) applied
  case h_14 =>
    apply Changes.of_encoded _ applied
    rintro v ⟨published, row⟩ done
    exact Changes.applyPublishTimeline done
  case h_15 => exact Changes.of_encoded (fun _ _ => Changes.applyCreateSession) applied
  case h_16 =>
    apply Changes.of_encoded _ applied
    rintro v ⟨published, row⟩ done
    exact Changes.applyPublishSession done
  case h_17 => exact Changes.of_encoded (fun _ _ => Changes.applyForkSession) applied
  case h_18 => exact Changes.of_silent (fun _ => Changes.applySaveSession) applied
  case h_19 => exact Changes.of_silent (fun _ => Changes.applyPrivateBegin) applied
  case h_20 => exact Changes.of_silent (fun _ => Changes.applyPrivateRelease) applied

/-! ## Growth -/

/-- Rows stay, and so do seals. -/
structure Grows (t u : Tables) : Prop where
  owners : t.owners <+: u.owners
  attempts : t.attempts <+: u.attempts
  objects : ∀ {id : ObjectId} {row : ObjectRow}, t.objectRow id = some row →
    ∃ row', u.objectRow id = some row' ∧ row'.kind = row.kind ∧ row'.attempt = row.attempt ∧
      ∀ found, row.sealed = some found → row'.sealed = some found
  pairs : t.pairs <+: u.pairs
  ownerObjects : t.ownerObjects <+: u.ownerObjects
  ownerRoots : t.ownerRoots <+: u.ownerRoots
  saves : t.saves <+: u.saves
  timelines : t.timelines <+: u.timelines
  generations : t.generations <+: u.generations
  checkpoints : t.checkpoints <+: u.checkpoints
  sessionSaves : t.sessionSaves <+: u.sessionSaves
  nativeMerges : t.nativeMerges.getD [] <+: u.nativeMerges.getD []
  scopes : (ensurePrivateScopes t).scopes <+: (ensurePrivateScopes u).scopes
  scopeAttempts : (ensurePrivateScopes t).attempts <+: (ensurePrivateScopes u).attempts
  released : (ensurePrivateScopes t).released <+: (ensurePrivateScopes u).released

/-- A row which is found is found in every longer table. -/
theorem find?_longer {α : Type} {p : α → Bool} {first second : List α} {a : α}
    (longer : first <+: second) (found : first.find? p = some a) : second.find? p = some a := by
  obtain ⟨rest, rfl⟩ := longer
  rw [List.find?_append, found, Option.some_or]

theorem objectRow_sealed {t : Tables} {receipt : Receipt} {id : ObjectId} :
    Tables.objectRow { t with objects := t.sealedObjects receipt } id =
      (t.objectRow id).map fun row => if row.id = receipt.object then
        { row with sealed := some ⟨receipt.bytes, receipt.bodyCrc32c, receipt.barrier⟩ }
      else row := by
  unfold Tables.objectRow Tables.sealedObjects
  dsimp only
  rw [List.find?_map]
  congr 2
  funext row
  dsimp only [Function.comp]
  split <;> rfl

theorem objectRow_id {t : Tables} {id : ObjectId} {row : ObjectRow}
    (found : t.objectRow id = some row) : row.id = id := by
  unfold Tables.objectRow at found
  have same := List.find?_some found
  exact of_decide_eq_true same

namespace Grows

variable {t u v : Tables}

theorem refl : Grows t t where
  owners := List.prefix_rfl
  attempts := List.prefix_rfl
  objects := fun found => ⟨_, found, rfl, rfl, fun _ same => same⟩
  pairs := List.prefix_rfl
  ownerObjects := List.prefix_rfl
  ownerRoots := List.prefix_rfl
  saves := List.prefix_rfl
  timelines := List.prefix_rfl
  generations := List.prefix_rfl
  checkpoints := List.prefix_rfl
  sessionSaves := List.prefix_rfl
  nativeMerges := List.prefix_rfl
  scopes := List.prefix_rfl
  scopeAttempts := List.prefix_rfl
  released := List.prefix_rfl

theorem trans (first : Grows t u) (second : Grows u v) : Grows t v where
  owners := first.owners.trans second.owners
  attempts := first.attempts.trans second.attempts
  objects := by
    intro id row found
    obtain ⟨middle, there, kind, attempt, sealed⟩ := first.objects found
    obtain ⟨last, here, kind', attempt', sealed'⟩ := second.objects there
    exact ⟨last, here, kind'.trans kind, attempt'.trans attempt,
      fun mark same => sealed' mark (sealed mark same)⟩
  pairs := first.pairs.trans second.pairs
  ownerObjects := first.ownerObjects.trans second.ownerObjects
  ownerRoots := first.ownerRoots.trans second.ownerRoots
  saves := first.saves.trans second.saves
  timelines := first.timelines.trans second.timelines
  generations := first.generations.trans second.generations
  checkpoints := first.checkpoints.trans second.checkpoints
  sessionSaves := first.sessionSaves.trans second.sessionSaves
  nativeMerges := first.nativeMerges.trans second.nativeMerges
  scopes := first.scopes.trans second.scopes
  scopeAttempts := first.scopeAttempts.trans second.scopeAttempts
  released := first.released.trans second.released

end Grows

/-- A statement only adds a row, or seals an unsealed object. -/
theorem Change.grows {t u : Tables} (change : Change t u) : Grows t u := by
  have same : Grows t t := .refl
  cases change with
  | owner new => exact { same with owners := List.prefix_append _ _ }
  | root new owned registered => exact { same with ownerRoots := List.prefix_append _ _ }
  | object new owned known => exact { same with ownerObjects := List.prefix_append _ _ }
  | attempt new own => exact { same with attempts := List.prefix_append _ _ }
  | reserve new known =>
      refine { same with objects := fun found => ?_ }
      exact ⟨_, find?_longer (List.prefix_append _ _) found, rfl, rfl, fun _ same => same⟩
  | sealed found unsealed =>
      rename_i receipt row
      refine { same with objects := fun {id} {old} there => ?_ }
      rw [objectRow_sealed, there, Option.map_some]
      refine ⟨_, rfl, ?_⟩
      by_cases here : old.id = receipt.object
      · rw [if_pos here]
        refine ⟨rfl, rfl, fun mark held => ?_⟩
        have id := objectRow_id there
        rw [here] at id
        rw [← id] at there
        cases found.symm.trans there
        cases unsealed.symm.trans held
      · rw [if_neg here]
        exact ⟨rfl, rfl, fun _ held => held⟩
  | pair insertable => exact { same with pairs := List.prefix_append _ _ }
  | save new registered => exact { same with saves := List.prefix_append _ _ }
  | timeline new known => exact { same with timelines := List.prefix_append _ _ }
  | generation new named rooted own => exact { same with generations := List.prefix_append _ _ }
  | checkpoint new known => exact { same with checkpoints := List.prefix_append _ _ }
  | sessionSave new saved known => exact { same with sessionSaves := List.prefix_append _ _ }
  | merge new pinned => exact { same with nativeMerges := List.prefix_append _ _ }
  | merges => exact { same with nativeMerges := List.prefix_rfl }
  | scopes scopes attempts released =>
      exact { same with scopes := scopes, scopeAttempts := attempts, released := released }

theorem Changes.grows {t u : Tables} (changes : Changes t u) : Grows t u := by
  induction changes with
  | refl => exact .refl
  | tail _ change induction => exact induction.trans change.grows

/-! ## Invariants over runs -/

/-- What every statement preserves holds of every catalog which calls lead to. -/
theorem perform_invariant {C : Context} (holds : Tables → Prop)
    (step : ∀ {t u}, Change t u → holds t → holds u) {calls : List (Disk × Call)} {c d : Database}
    (performed : perform C calls c = .ok d) (start : holds c.tables) : holds d.tables := by
  induction calls generalizing c with
  | nil =>
      cases performed
      exact start
  | cons call calls induction =>
      obtain ⟨disk, call⟩ := call
      obtain ⟨⟨tables, outcome⟩, applied, rest⟩ := bind_eq_ok.mp performed
      refine induction rest ?_
      have changes := Work.changes applied
      clear applied rest
      induction changes with
      | refl => exact start
      | tail _ change kept => exact step change kept

/-- The tables of a step grow. -/
theorem System.grows_step {C : Context} {s : System} {event : Event} :
    Grows s.catalog.tables (s.step C event).1.catalog.tables := by
  rcases step_catalog C s event with same | ⟨handle, disk, answers, call, -, -, changed⟩
  · rw [same]
    exact .refl
  · rw [changed]
    have outcomes := outcomes_transaction C s.catalog disk answers call
    generalize transaction C disk answers s.catalog call = settled at outcomes ⊢
    cases outcomes with
    | failed begun failure same =>
        rw [settleFailure_catalog]
        exact .refl
    | replayed outcome found => exact .refl
    | applied tables outcome absent result =>
        rcases settleCommit_catalog s.catalog (s.catalog.commit call tables outcome)
          answers.commit outcome with unchanged | committed
        · rw [unchanged]
          exact .refl
        · rw [committed]
          exact (Work.changes result).grows

end Everett.Catalog

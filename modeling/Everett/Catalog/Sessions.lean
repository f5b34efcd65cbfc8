import Everett.Catalog.Histories
import Everett.Catalog.Sound

/-!
# Sessions

What a generation keeps besides its head: the bytes of a checkpoint and the roots beside the head.
They are read back as they were published, and no transaction changes them.
-/

namespace Everett.Catalog

open Outcome Tables

variable {C : Context} {disk : Disk} {t u : Tables}

/-! ## Canonical roots -/

/-- Roots in the order in which the tables list them. -/
structure Auxiliary.Canonical (value : Auxiliary) (primary : BlobIdentity) : Prop where
  pairs : value.pairs.items.Pairwise (· ≤ ·)
  apart : primary ∉ value.pairs.items
  natives : value.natives.items.Pairwise (· ≤ ·)

theorem mem_unique {α : Type} [DecidableEq α] {items : List α} {a : α} (member : a ∈ unique items) :
    a ∈ items := by
  fun_induction unique items with
  | case1 => exact member
  | case2 b => exact member
  | case3 b rest induction => exact List.mem_cons_of_mem _ (induction member)
  | case4 b c rest different induction =>
      rcases List.mem_cons.mp member with rfl | later
      · exact List.mem_cons_self
      · exact List.mem_cons_of_mem _ (induction later)

theorem pairwise_unique {α : Type} [LinearOrder α] {items : List α}
    (sorted : items.Pairwise (· ≤ ·)) : (unique items).Pairwise (· < ·) := by
  fun_induction unique items with
  | case1 => exact .nil
  | case2 a => exact List.pairwise_singleton _ _
  | case3 a rest induction => exact induction sorted.of_cons
  | case4 a b rest different induction =>
      obtain ⟨first, later⟩ := List.pairwise_cons.mp sorted
      refine List.pairwise_cons.mpr ⟨?_, induction later⟩
      intro c member
      have below : a < b := lt_of_le_of_ne (first b List.mem_cons_self) different
      rcases List.mem_cons.mp (mem_unique member) with rfl | rest_mem
      · exact below
      · exact below.trans_le ((List.pairwise_cons.mp later).1 c rest_mem)

/-- `canonical_auxiliary` makes roots canonical. -/
theorem canonical_canonicalAuxiliary (value : Auxiliary) (primary : BlobIdentity) :
    (canonicalAuxiliary value primary).Canonical primary where
  pairs := ((pairwise_unique (pairwise_mergeSort_le _)).filter _).imp le_of_lt
  apart := fun member => of_decide_eq_true (List.mem_filter.mp member).2 rfl
  natives := (pairwise_unique (pairwise_mergeSort_le _)).imp le_of_lt

/-- `canonical_auxiliary` leaves no root twice. -/
theorem nodup_canonicalAuxiliary (value : Auxiliary) (primary : BlobIdentity) :
    (canonicalAuxiliary value primary).pairs.items.Nodup ∧
      (canonicalAuxiliary value primary).natives.items.Nodup :=
  ⟨((pairwise_unique (pairwise_mergeSort_le _)).filter _).imp ne_of_lt,
    (pairwise_unique (pairwise_mergeSort_le _)).imp ne_of_lt⟩

/-! ## Reading back -/

theorem attachCheckpoint_congr {row : TimelineHead}
    (checkpoints : u.checkpointAt row.name row.generation = t.checkpointAt row.name row.generation)
    (roots : u.rootsOf .timeline row.owner = t.rootsOf .timeline row.owner)
    (objects : u.objectsOf .timeline row.owner = t.objectsOf .timeline row.owner) :
    u.attachCheckpoint row = t.attachCheckpoint row := by
  unfold Tables.attachCheckpoint Tables.auxiliaryAt
  rw [checkpoints, roots, objects]

/-- The roots which an owner has in the rows of a generation. -/
theorem filterMap_rows {α : Type} (owner other : Text) (items : List α) :
    (items.map fun item => (OwnerKind.timeline, owner, item)).filterMap (fun row =>
      if row.1 = OwnerKind.timeline ∧ row.2.1 = other then some row.2.2 else none) =
      if owner = other then items else [] := by
  rw [List.filterMap_map]
  by_cases same : owner = other
  · subst same
    simp [Function.comp_def]
  · simp [Function.comp_def, same]

theorem rootsOf_withGeneration (g : Generation) (owner : Text) :
    (t.withGeneration g).rootsOf .timeline owner =
      t.rootsOf .timeline owner ++ if g.row.owner = owner then g.roots else [] := by
  unfold Tables.rootsOf
  rw [withGeneration, List.filterMap_append, rootRows, filterMap_rows]

theorem objectsOf_withGeneration (g : Generation) (owner : Text) :
    (t.withGeneration g).objectsOf .timeline owner =
      t.objectsOf .timeline owner ++ if g.row.owner = owner then g.natives else [] := by
  unfold Tables.objectsOf
  rw [withGeneration, List.filterMap_append, objectRows, filterMap_rows]

/-- Tables which list nothing of an owner. -/
structure Bare (t : Tables) (row : TimelineHead) : Prop where
  roots : t.rootsOf .timeline row.owner = []
  objects : t.objectsOf .timeline row.owner = []
  unchecked : t.checkpointAt row.name row.generation = none

theorem Histories.bare (histories : Histories t) {row : TimelineHead}
    (unowned : (OwnerKind.timeline, row.owner) ∉ t.owners)
    (new : (row.name, row.generation) ∉ t.generations.map fun old => (old.name, old.generation)) :
    Bare t row where
  roots := List.filterMap_eq_nil_iff.mpr fun other member => if_neg fun both => by
    obtain ⟨kind, owner, root⟩ := other
    obtain ⟨rfl, rfl⟩ := both
    exact unowned (histories.roots _ member)
  objects := List.filterMap_eq_nil_iff.mpr fun other member => if_neg fun both => by
    obtain ⟨kind, owner, object⟩ := other
    obtain ⟨rfl, rfl⟩ := both
    exact unowned (histories.objects _ member)
  unchecked := by
    unfold Tables.checkpointAt
    rw [Option.map_eq_none_iff, List.find?_eq_none]
    intro other member both
    obtain ⟨names, numbers⟩ := of_decide_eq_true both
    apply new
    rw [← names, ← numbers]
    exact histories.checked other member

/-- A session generation is read back as it was published. -/
theorem attachCheckpoint_published {value : SessionHead} (bare : Bare t value.timeline)
    (canonical : value.auxiliary.Canonical value.timeline.head) :
    (t.withGeneration (sessionGeneration value)).attachCheckpoint value.timeline = .ok value := by
  have checkpoint : (t.withGeneration (sessionGeneration value)).checkpointAt value.timeline.name
      value.timeline.generation = some value.checkpoint := by
    have none := bare.unchecked
    unfold Tables.checkpointAt at none ⊢
    rw [withGeneration, List.find?_append, Option.map_eq_none_iff.mp none, Option.none_or]
    simp [Generation.checkpoints]
  have roots : (t.withGeneration (sessionGeneration value)).rootsOf .timeline value.timeline.owner =
      value.timeline.head :: value.auxiliary.pairs.items := by
    rw [rootsOf_withGeneration, bare.roots, if_pos rfl]
    rfl
  have natives : (t.withGeneration (sessionGeneration value)).objectsOf .timeline
      value.timeline.owner = value.auxiliary.natives.items := by
    rw [objectsOf_withGeneration, bare.objects, if_pos rfl]
    rfl
  refine bind_eq_ok.mpr ⟨value.checkpoint, demand_eq_ok.mpr checkpoint, ?_⟩
  refine bind_eq_ok.mpr ⟨value.auxiliary, ?_, rfl⟩
  refine bind_eq_ok.mpr ⟨value.auxiliary.pairs, sized_eq_ok.mpr ?_, ?_⟩
  · rw [roots]
    exact (filter_mergeSort_cons canonical.pairs canonical.apart).symm
  · refine bind_eq_ok.mpr ⟨value.auxiliary.natives, sized_eq_ok.mpr ?_, rfl⟩
    rw [natives]
    exact (mergeSort_of_sorted canonical.natives).symm

/-- Roots which were read are in their order. -/
theorem canonical_attached {value : SessionHead}
    (attached : t.attachCheckpoint value.timeline = .ok value) :
    value.auxiliary.Canonical value.timeline.head := by
  obtain ⟨checkpoint, -, rest⟩ := bind_eq_ok.mp attached
  obtain ⟨roots, read, rest⟩ := bind_eq_ok.mp rest
  have same := congrArg SessionHead.auxiliary (Except.ok.inj rest)
  obtain ⟨pairs, listed, read⟩ := bind_eq_ok.mp read
  obtain ⟨natives, pinned, read⟩ := bind_eq_ok.mp read
  cases read
  rw [← same]
  refine ⟨?_, ?_, ?_⟩
  · rw [sized_eq_ok.mp listed]
    exact (pairwise_mergeSort_le _).filter _
  · rw [sized_eq_ok.mp listed]
    exact fun member => of_decide_eq_true (List.mem_filter.mp member).2 rfl
  · rw [sized_eq_ok.mp pinned]
    exact pairwise_mergeSort_le _

/-! ## What was published stays -/

/-- The tables grow, and the generations keep what they have. -/
structure Later (t u : Tables) : Prop where
  grows : Grows t u
  attached : ∀ row ∈ t.generations, u.attachCheckpoint row = t.attachCheckpoint row

namespace Later

theorem refl : Later t t := ⟨.refl, fun _ _ => rfl⟩

theorem trans {v : Tables} (first : Later t u) (second : Later u v) : Later t v where
  grows := first.grows.trans second.grows
  attached := fun row member =>
    (second.attached row (first.grows.generations.subset member)).trans (first.attached row member)

theorem of_quiet (grows : Grows t u) (quiet : Quiet t u) : Later t u where
  grows := grows
  attached := fun row _ => by
    refine attachCheckpoint_congr ?_ (quiet.rootsOf row.owner) (quiet.objectsOf row.owner)
    unfold Tables.checkpointAt
    rw [quiet.checkpoints]

theorem withGeneration (histories : Histories t) {g : Generation} {names : List TimelineRow}
    (grows : Grows t ({ t with timelines := names }.withGeneration g))
    (unowned : (OwnerKind.timeline, g.row.owner) ∉ t.owners)
    (new : (g.row.name, g.row.generation) ∉
      t.generations.map fun old => (old.name, old.generation)) :
    Later t ({ t with timelines := names }.withGeneration g) where
  grows := grows
  attached := fun row member => by
    have other : g.row.owner ≠ row.owner := by
      intro same
      apply unowned
      rw [same]
      exact histories.held row member
    refine attachCheckpoint_congr ?_ ?_ ?_
    · have apart : ∀ kept ∈ g.checkpoints,
          ¬ (kept.name = row.name ∧ kept.generation = row.generation) := by
        rintro kept listed ⟨names, numbers⟩
        obtain ⟨value, -, rfl⟩ := Option.map_eq_some_iff.mp (Option.mem_toList.mp listed)
        apply new
        dsimp only at names numbers
        rw [names, numbers]
        exact List.mem_map_of_mem member
      have missing : g.checkpoints.find? (fun kept =>
          kept.name = row.name ∧ kept.generation = row.generation) = none :=
        List.find?_eq_none.mpr fun kept listed both => apart kept listed (of_decide_eq_true both)
      unfold Tables.checkpointAt Tables.withGeneration
      rw [List.find?_append, missing, Option.or_none]
    · rw [rootsOf_withGeneration, if_neg other, List.append_nil]
      rfl
    · rw [objectsOf_withGeneration, if_neg other, List.append_nil]
      rfl

end Later

/-- A transaction changes nothing of the generations before it. -/
theorem Effect.later {action : Action} {outcome : List UInt8} (histories : Histories t)
    (effect : Effect C disk t action u outcome) (grows : Grows t u) : Later t u := by
  cases effect with
  | quiet _ _ _ other unchanged exact => exact .of_quiet grows unchanged
  | createTimeline row prepared begins =>
      exact .withGeneration histories grows begins.room.unowned begins.room.new
  | forkTimeline source row exact prepared head begins =>
      exact .withGeneration histories grows begins.room.unowned begins.room.new
  | publishTimeline expected row name prepared continues =>
      exact .withGeneration histories grows continues.room.unowned continues.room.new
  | createSession value prepared begins pinnable =>
      exact .withGeneration histories grows begins.room.unowned begins.room.new
  | forkSession source value exact prepared head checkpoint auxiliary begins =>
      exact .withGeneration histories grows begins.room.unowned begins.room.new
  | publishSession expected value name current prepared continues pinnable =>
      exact .withGeneration histories grows continues.room.unowned continues.room.new
  | staleTimeline => exact .refl
  | staleSession => exact .refl

/-! ## Checks before the transaction -/

/-- What a call checks of a new name and of the roots beside a head. -/
def Action.Spelt : Action → Prop
  | .createTimeline name _ | .forkTimeline name _ | .forkSession name _ => name.items ≠ []
  | .createSession name head _ roots =>
      name.items ≠ [] ∧ roots.Canonical head ∧ roots.pairs.items.Nodup ∧ roots.natives.items.Nodup
  | .publishSession _ candidate _ roots =>
      roots.Canonical candidate ∧ roots.pairs.items.Nodup ∧ roots.natives.items.Nodup
  | _ => True

theorem name_eq_ok {value : Text} : name value = .ok () ↔ value.items ≠ [] := demands_eq_ok

theorem prepare_spelt {c : Database} {scope : Option ObjectId} {id : Text} {operation : Operation}
    {work : Work} (prepared : prepare C disk c scope id operation = .ok (some work)) :
    work.action.Spelt := by
  cases operation <;>
    simp only [prepare, plain, bind_eq_ok, Except.ok.injEq, Option.some.injEq] at prepared
  case createTimeline =>
    obtain ⟨_, -, _, -, _, named, rfl⟩ := prepared
    exact Iff.mp name_eq_ok named
  case forkTimeline =>
    obtain ⟨_, -, _, -, _, named, _, -, rfl⟩ := prepared
    exact Iff.mp name_eq_ok named
  case createSession =>
    obtain ⟨_, -, _, -, _, named, rfl⟩ := prepared
    exact ⟨Iff.mp name_eq_ok named, canonical_canonicalAuxiliary _ _, nodup_canonicalAuxiliary _ _⟩
  case publishSession =>
    obtain ⟨_, -, _, -, _, -, rfl⟩ := prepared
    exact ⟨canonical_canonicalAuxiliary _ _, nodup_canonicalAuxiliary _ _⟩
  case forkSession =>
    obtain ⟨_, -, _, -, _, named, _, -, rfl⟩ := prepared
    exact Iff.mp name_eq_ok named
  case acquireNativeMerge =>
    obtain ⟨_, -, _, -, _, -, domain, -, prepared⟩ := prepared
    split at prepared
    · cases prepared
      trivial
    · cases prepared
  case registerPair =>
    obtain ⟨_, -, _, -, rfl⟩ := prepared
    trivial
  -- The other calls name no generation.
  all_goals grind [Action.Spelt]

/-! ## What an acknowledgement says of generations -/

/-- A session generation of the tables. -/
def Tables.Holds (t : Tables) (value : SessionHead) : Prop :=
  value.timeline ∈ t.generations ∧ t.attachCheckpoint value.timeline = .ok value

/-- A fork lists the exact generation which it starts from. -/
def Tables.Forked (t : Tables) (name : Text) (source : TimelineHead) : Prop :=
  source ∈ t.generations ∧ ⟨name, some (source.name, source.generation)⟩ ∈ t.timelines

/-- The head of a generation which was published behind an expected one. -/
def TimelineHead.Follows (row expected : TimelineHead) (candidate : BlobIdentity) : Prop :=
  row.generation.toNat = expected.generation.toNat + 1 ∧ row.head = candidate

/-- What an outcome says of the generations for good. -/
def LineKept (t : Tables) : Action → List UInt8 → Prop
  | .createTimeline name head, outcome => ∃ row ∈ t.generations,
      outcome = timeline row ∧ row.name = name ∧ row.generation = 0 ∧ row.head = head
  | .forkTimeline name source, outcome => t.Forked name source ∧ ∃ row ∈ t.generations,
      outcome = timeline row ∧ row.name = name ∧ row.generation = 0 ∧ row.head = source.head
  | .publishTimeline expected candidate, outcome => ∃ published, ∃ row ∈ t.generations,
      outcome = publication timeline (published, row) ∧ row.name = expected.name ∧
        (published = true → expected ∈ t.generations ∧ row.Follows expected candidate)
  | .createSession name head checkpoint roots, outcome => ∃ value, t.Holds value ∧
      outcome = session value ∧ value.timeline.name = name ∧ value.timeline.generation = 0 ∧
        value.timeline.head = head ∧ value.checkpoint = checkpoint ∧ value.auxiliary = roots
  | .forkSession name source, outcome => t.Forked name source.timeline ∧ t.Holds source ∧
      ∃ value, t.Holds value ∧ outcome = session value ∧ value.timeline.name = name ∧
        value.timeline.generation = 0 ∧ value.timeline.head = source.timeline.head ∧
        value.checkpoint = source.checkpoint ∧ value.auxiliary = source.auxiliary
  | .publishSession expected candidate checkpoint roots, outcome => ∃ published value,
      t.Holds value ∧ outcome = publication session (published, value) ∧
        value.timeline.name = expected.timeline.name ∧
        (published = true → t.Holds expected ∧ value.timeline.Follows expected.timeline candidate ∧
          value.checkpoint = checkpoint ∧ value.auxiliary = roots)
  | .save name head, _ => t.findSave name = some head
  | .saveSession name source, _ => t.Holds source ∧ t.findSavedSession name = .ok (some source)
  | _, _ => True

namespace Later

theorem holds {value : SessionHead} (later : Later t u) (holds : t.Holds value) : u.Holds value :=
  ⟨later.grows.generations.subset holds.1, (later.attached _ holds.1).trans holds.2⟩

theorem forked {name : Text} {source : TimelineHead} (later : Later t u)
    (forked : t.Forked name source) : u.Forked name source :=
  ⟨later.grows.generations.subset forked.1, later.grows.timelines.subset forked.2⟩

theorem findSave {name : Text} {head : BlobIdentity} (later : Later t u)
    (found : t.findSave name = some head) : u.findSave name = some head := by
  obtain ⟨row, listed, rfl⟩ := Option.map_eq_some_iff.mp found
  unfold Tables.findSave
  rw [find?_longer later.grows.saves listed, Option.map_some]

theorem findSavedSession {name : Text} {source : SessionHead} (later : Later t u)
    (found : t.findSavedSession name = .ok (some source)) :
    u.findSavedSession name = .ok (some source) := by
  unfold Tables.findSavedSession at found ⊢
  split at found
  · cases found
  · rename_i row listed
    obtain ⟨head, there, rest⟩ := bind_eq_ok.mp found
    obtain ⟨value, attached, rest⟩ := bind_eq_ok.mp rest
    cases rest
    have here := demand_eq_ok.mp there
    unfold Tables.timelineAt at here
    have member := List.mem_of_find?_eq_some here
    rw [find?_longer later.grows.sessionSaves listed]
    refine bind_eq_ok.mpr ⟨head, demand_eq_ok.mpr ?_, ?_⟩
    · exact find?_longer later.grows.generations here
    · exact bind_eq_ok.mpr ⟨source, (later.attached head member).trans attached, rfl⟩

/-- What an outcome says stays. -/
theorem lineKept {action : Action} {outcome : List UInt8} (later : Later t u)
    (kept : LineKept t action outcome) : LineKept u action outcome := by
  have stay : ∀ {row : TimelineHead}, row ∈ t.generations → row ∈ u.generations :=
    fun member => later.grows.generations.subset member
  cases action with
  | createTimeline name head =>
      obtain ⟨row, member, rest⟩ := kept
      exact ⟨row, stay member, rest⟩
  | forkTimeline name source =>
      obtain ⟨forked, row, member, rest⟩ := kept
      exact ⟨later.forked forked, row, stay member, rest⟩
  | publishTimeline expected candidate =>
      obtain ⟨published, row, member, encoded, name, next⟩ := kept
      refine ⟨published, row, stay member, encoded, name, fun success => ?_⟩
      exact ⟨stay (next success).1, (next success).2⟩
  | createSession name head checkpoint roots =>
      obtain ⟨value, holds, rest⟩ := kept
      exact ⟨value, later.holds holds, rest⟩
  | forkSession name source =>
      obtain ⟨forked, exact, value, holds, rest⟩ := kept
      exact ⟨later.forked forked, later.holds exact, value, later.holds holds, rest⟩
  | publishSession expected candidate checkpoint roots =>
      obtain ⟨published, value, holds, encoded, name, next⟩ := kept
      refine ⟨published, value, later.holds holds, encoded, name, fun success => ?_⟩
      exact ⟨later.holds (next success).1, (next success).2⟩
  | save name head => exact later.findSave kept
  | saveSession name source =>
      exact ⟨later.holds kept.1, later.findSavedSession kept.2⟩
  | _ => trivial

end Later

/-! ## Making the promise -/

/-- The histories after a transaction. -/
theorem Effect.histories {action : Action} {outcome : List UInt8} (histories : Histories t)
    (spelt : action.Spelt) (effect : Effect C disk t action u outcome) : Histories u := by
  cases effect with
  | quiet _ _ _ other unchanged exact => exact histories.of_quiet unchanged
  | createTimeline row prepared begins =>
      exact histories.begins (g := plainGeneration row) spelt begins
  | forkTimeline source row exact prepared head begins =>
      exact histories.begins (g := plainGeneration row) spelt begins
  | publishTimeline expected row name prepared continues =>
      exact histories.continues (g := plainGeneration row) continues
  | createSession value prepared begins pinnable =>
      exact histories.begins (g := sessionGeneration value) spelt.1 begins
  | forkSession source value exact prepared head checkpoint auxiliary begins =>
      exact histories.begins (g := sessionGeneration value) spelt begins
  | publishSession expected value name current prepared continues pinnable =>
      exact histories.continues (g := sessionGeneration value) continues
  | staleTimeline => exact histories
  | staleSession => exact histories

theorem mem_withGeneration (g : Generation) : g.row ∈ (t.withGeneration g).generations :=
  List.mem_append_right _ (List.mem_singleton_self _)

theorem Tables.Begins.holds (histories : Histories t) {value : SessionHead}
    {source : Option (Text × UInt64)} (begins : t.Begins value.timeline source)
    (canonical : value.auxiliary.Canonical value.timeline.head) :
    ((t.withName value.timeline.name source).withGeneration (sessionGeneration value)).Holds
      value := by
  have bare : Bare t value.timeline := histories.bare begins.room.unowned begins.room.new
  refine ⟨mem_withGeneration (sessionGeneration value), attachCheckpoint_published ?_ canonical⟩
  exact ⟨bare.roots, bare.objects, bare.unchecked⟩

theorem Tables.Continues.holds (histories : Histories t) {value : SessionHead}
    {last : TimelineHead} (continues : t.Continues value.timeline last)
    (canonical : value.auxiliary.Canonical value.timeline.head) :
    (t.withGeneration (sessionGeneration value)).Holds value :=
  ⟨mem_withGeneration (sessionGeneration value), attachCheckpoint_published
    (histories.bare continues.room.unowned continues.room.new) canonical⟩

/-- A generation behind the last one follows it. -/
theorem Tables.Continues.follows (histories : Histories t) {row last : TimelineHead}
    (continues : t.Continues row last) : row.Follows last row.head := by
  obtain ⟨member, -⟩ := histories.last_mem continues.last
  refine ⟨?_, rfl⟩
  rw [continues.next, Histories.next_toNat (histories.valid last member).2.2]

/-- A session generation which was found is in the tables. -/
theorem Tables.SessionAt.holds {value : SessionHead} (exact : t.SessionAt value) : t.Holds value := by
  obtain ⟨found, attached⟩ := exact
  unfold Tables.timelineAt at found
  exact ⟨List.mem_of_find?_eq_some found, attached⟩

theorem Tables.withName_timelines (name : Text) (source : Option (Text × UInt64)) (g : Generation) :
    ⟨name, source⟩ ∈ ((t.withName name source).withGeneration g).timelines :=
  List.mem_append_right _ (List.mem_singleton_self _)

theorem Effect.lineKept {action : Action} {outcome : List UInt8} (histories : Histories t)
    (spelt : action.Spelt) (other : ∀ name head, action ≠ .save name head)
    (effect : Effect C disk t action u outcome) (later : Later t u) :
    LineKept u action outcome := by
  cases effect with
  | quiet _ _ _ unlineal unchanged exact =>
      cases action with
      | save name head => exact absurd rfl (other name head)
      | saveSession name source =>
          obtain ⟨found, -, listed, new⟩ := exact name source rfl
          have holds := later.holds found.holds
          refine ⟨holds, ?_⟩
          have fresh : t.sessionSaves.find? (·.name = name) = none :=
            List.find?_eq_none.mpr fun row member same =>
              new (of_decide_eq_true same ▸ List.mem_map_of_mem member)
          unfold Tables.findSavedSession
          rw [listed, List.find?_append, fresh, Option.none_or, List.find?_singleton,
            if_pos (decide_eq_true rfl)]
          refine bind_eq_ok.mpr ⟨source.timeline, demand_eq_ok.mpr ?_, ?_⟩
          · exact find?_longer later.grows.generations found.1
          · exact bind_eq_ok.mpr ⟨source, holds.2, rfl⟩
      | createTimeline | forkTimeline | publishTimeline => exact absurd trivial unlineal
      | createSession | forkSession | publishSession => exact absurd trivial unlineal
      | _ => trivial
  | createTimeline row prepared begins =>
      exact ⟨row, mem_withGeneration (plainGeneration row), rfl, rfl, begins.first, rfl⟩
  | forkTimeline source row exact prepared head begins =>
      have found := (histories.timelineAt_eq_some.mp exact).1
      refine ⟨⟨later.grows.generations.subset found, withName_timelines _ _ _⟩, row,
        mem_withGeneration (plainGeneration row), rfl, rfl, begins.first, head⟩
  | publishTimeline expected row name prepared continues =>
      refine ⟨true, row, mem_withGeneration (plainGeneration row), rfl, name, fun _ => ⟨?_, ?_⟩⟩
      · exact later.grows.generations.subset (histories.last_mem continues.last).1
      · exact continues.follows histories
  | staleTimeline expected current candidate last stale =>
      obtain ⟨member, name⟩ := histories.last_mem last
      exact ⟨false, current, member, rfl, name, fun none => nomatch none⟩
  | createSession value prepared begins pinnable =>
      exact ⟨value, begins.holds histories spelt.2.1, rfl, rfl, begins.first, rfl, rfl, rfl⟩
  | forkSession source value exact prepared head checkpoint auxiliary begins =>
      have held := later.holds exact.holds
      have canonical := canonical_attached exact.2
      rw [← auxiliary, ← head] at canonical
      exact ⟨⟨held.1, withName_timelines _ _ _⟩, held, value, begins.holds histories canonical, rfl,
        rfl, begins.first, head, checkpoint, auxiliary⟩
  | publishSession expected value name current prepared continues pinnable =>
      refine ⟨true, value, continues.holds histories spelt.1, rfl, name, fun _ => ⟨?_, ?_, rfl, rfl⟩⟩
      · exact later.holds ⟨(histories.last_mem continues.last).1, current⟩
      · exact continues.follows histories
  | staleSession expected current candidate checkpoint auxiliary last attached stale =>
      obtain ⟨member, name⟩ := histories.last_mem last
      exact ⟨false, current, ⟨member, attached⟩, rfl, name, fun none => nomatch none⟩

theorem Work.lineKept {work : Work} {outcome : List UInt8} (histories : Histories t)
    (spelt : work.action.Spelt) (applied : work.apply C disk t = .ok (u, outcome)) :
    LineKept u work.action outcome := by
  have effect := Work.effect applied
  have later := effect.later histories (Work.changes applied).grows
  by_cases saving : ∃ name head, work.action = .save name head
  · obtain ⟨name, head, same⟩ := saving
    obtain ⟨action, pinned⟩ := work
    cases same
    obtain ⟨⟨v, saved⟩, done, rest⟩ := bind_eq_ok.mp applied
    cases rest
    obtain ⟨w, inserted, rest⟩ := bind_eq_ok.mp done
    cases rest
    obtain ⟨_, -, rest⟩ := bind_eq_ok.mp inserted
    obtain ⟨_, -, rest⟩ := bind_eq_ok.mp rest
    obtain ⟨rooted, -, rest⟩ := bind_eq_ok.mp rest
    obtain ⟨new, -, rfl⟩ := insertSave_eq_ok.mp rest
    have fresh : rooted.saves.find? (·.1 = name) = none :=
      List.find?_eq_none.mpr fun row member same =>
        new (of_decide_eq_true same ▸ List.mem_map_of_mem member)
    change Tables.findSave _ name = some head
    unfold Tables.findSave
    rw [List.find?_append, fresh, Option.none_or, List.find?_singleton,
      if_pos (decide_eq_true rfl), Option.map_some]
  · exact effect.lineKept histories spelt (fun name head same => saving ⟨name, head, same⟩) later

/-! ## Competing publications -/

/-- The head which a publication expects. -/
def Action.expects : Action → Option TimelineHead
  | .publishTimeline expected _ => some expected
  | .publishSession expected _ _ _ => some expected.timeline
  | _ => none

/-- An outcome of a publication which succeeded. -/
def Action.Published : Action → List UInt8 → Prop
  | .publishTimeline .., outcome => ∃ row, outcome = publication timeline (true, row)
  | .publishSession .., outcome => ∃ value, outcome = publication session (true, value)
  | _, _ => False

theorem publication_injective {α β : Type} {first : α → List UInt8} {second : β → List UInt8}
    {a : Bool × α} {b : Bool × β} (same : publication first a = publication second b) :
    a.1 = b.1 := (framed_flag _ _ _ _ same).1

/-- A publication which succeeded left a generation behind the one it expected. -/
theorem LineKept.published {action : Action} {outcome : List UInt8} {expected : TimelineHead}
    (kept : LineKept t action outcome) (published : action.Published outcome)
    (expects : action.expects = some expected) :
    ∃ row ∈ t.generations, row.name = expected.name ∧
      row.generation.toNat = expected.generation.toNat + 1 := by
  cases action with
  | publishTimeline wanted candidate =>
      cases expects
      obtain ⟨success, row, member, encoded, name, next⟩ := kept
      obtain ⟨other, same⟩ := published
      cases publication_injective (encoded.symm.trans same)
      exact ⟨row, member, name, (next rfl).2.1⟩
  | publishSession wanted candidate checkpoint roots =>
      cases expects
      obtain ⟨success, value, holds, encoded, name, next⟩ := kept
      obtain ⟨other, same⟩ := published
      cases publication_injective (encoded.symm.trans same)
      exact ⟨value.timeline, holds.1, name, (next rfl).2.1.1⟩
  | _ => cases expects

/-- The head which a publication expects is the current one. -/
def Action.Current (t : Tables) : Action → Prop
  | .publishTimeline expected _ => t.lastTimeline expected.name = some expected
  | .publishSession expected _ _ _ =>
      t.findSession expected.timeline.name = .ok (some expected)
  | _ => False

theorem findSession_eq_ok {name : Text} {value : SessionHead} :
    t.findSession name = .ok (some value) ↔
      t.lastTimeline name = some value.timeline ∧ t.attachCheckpoint value.timeline = .ok value := by
  unfold Tables.findSession
  constructor
  · intro found
    split at found
    · cases found
    · rename_i head last
      obtain ⟨session, attached, rest⟩ := bind_eq_ok.mp found
      cases rest
      cases Effect.attachCheckpoint_timeline attached
      exact ⟨last, attached⟩
  · rintro ⟨last, attached⟩
    rw [last]
    exact bind_eq_ok.mpr ⟨value, attached, rfl⟩

/-- A publication succeeds exactly when it expects the current head. -/
theorem Effect.published_iff {action : Action} {outcome : List UInt8}
    (effect : Effect C disk t action u outcome) :
    action.Published outcome ↔ action.Current t := by
  cases effect with
  | quiet _ _ _ unlineal unchanged exact =>
      cases action with
      | publishTimeline | publishSession => exact absurd trivial unlineal
      | _ => exact Iff.rfl
  | publishTimeline expected row name prepared continues =>
      have last : t.lastTimeline expected.name = some expected := name ▸ continues.last
      exact iff_of_true ⟨row, rfl⟩ last
  | staleTimeline expected current candidate last stale =>
      refine iff_of_false ?_ ?_
      · rintro ⟨row, same⟩
        cases publication_injective same
      · intro found
        exact stale (Option.some.inj (last.symm.trans found))
  | publishSession expected value name current prepared continues pinnable =>
      exact iff_of_true ⟨value, rfl⟩ (Iff.mpr findSession_eq_ok ⟨name ▸ continues.last, current⟩)
  | staleSession expected current candidate checkpoint auxiliary last attached stale =>
      refine iff_of_false ?_ ?_
      · rintro ⟨value, same⟩
        cases publication_injective same
      · intro found
        obtain ⟨other, read⟩ := Iff.mp findSession_eq_ok found
        have same := Option.some.inj (last.symm.trans other)
        rw [same] at attached
        exact stale (Except.ok.inj (attached.symm.trans read))
  | _ => exact Iff.rfl

/-- The current head has no generation behind it. -/
theorem Histories.current_last (histories : Histories t) {action : Action}
    {expected : TimelineHead} (current : action.Current t)
    (expects : action.expects = some expected) {row : TimelineHead} (member : row ∈ t.generations)
    (name : row.name = expected.name) :
    row.generation.toNat ≠ expected.generation.toNat + 1 := by
  have last : t.lastTimeline expected.name = some expected := by
    cases action with
    | publishTimeline =>
        cases expects
        exact current
    | publishSession =>
        cases expects
        exact (Iff.mp findSession_eq_ok current).1
    | _ => cases expects
  rw [histories.lastTimeline] at last
  have top := (histories.linear expected.name).getLast last
  have below := (histories.linear expected.name).lt_length (mem_history.mpr ⟨member, name⟩)
  omega

/-- Two entries of publications which succeeded over one expected head. -/
def Rivals (first second : Entry) : Prop :=
  ∃ one two : Action, (one.kind = first.kind ∧ one.request = first.request) ∧
    (two.kind = second.kind ∧ two.request = second.request) ∧ one.Published first.outcome ∧
    two.Published second.outcome ∧ one.expects = two.expects

theorem Rivals.symm {first second : Entry} (rivals : Rivals first second) :
    Rivals second first := by
  obtain ⟨one, two, same, other, published, succeeded, expects⟩ := rivals
  exact ⟨two, one, other, same, succeeded, published, expects.symm⟩

/-- What holds of every catalog. -/
structure Linear (c : Database) : Prop where
  histories : Histories c.tables
  keeps : Keeps LineKept c
  single : c.journal.Pairwise fun first second => ¬ Rivals first second

/-- A publication which succeeded expected some head. -/
theorem Action.Published.expects {action : Action} {outcome : List UInt8}
    (published : action.Published outcome) : ∃ expected, action.expects = some expected := by
  cases action with
  | publishTimeline expected candidate => exact ⟨expected, rfl⟩
  | publishSession expected candidate checkpoint roots => exact ⟨expected.timeline, rfl⟩
  | _ => cases published

theorem Linear.commit {c : Database} {call : Call} {outcome : List UInt8} (linear : Linear c)
    (spelt : call.work.action.Spelt)
    (applied : call.work.apply C disk c.tables = .ok (u, outcome)) :
    Linear (c.commit call u outcome) := by
  have effect := Work.effect applied
  have later := effect.later linear.histories (Work.changes applied).grows
  refine ⟨effect.histories linear.histories spelt, ?_, ?_⟩
  · intro entry member action kinds requests
    rcases List.mem_append.mp member with old | new
    · exact later.lineKept (linear.keeps entry old action kinds requests)
    · cases List.mem_singleton.mp new
      cases Action.request_injective kinds requests
      exact Work.lineKept linear.histories spelt applied
  · refine List.pairwise_append.mpr ⟨linear.single, List.pairwise_singleton _ _, ?_⟩
    intro old member entry last rivals
    cases List.mem_singleton.mp last
    obtain ⟨one, two, ⟨kinds, requests⟩, ⟨kind, request⟩, published, succeeded, expects⟩ := rivals
    cases Action.request_injective kind request
    obtain ⟨expected, named⟩ := published.expects
    have kept := linear.keeps old member one kinds requests
    obtain ⟨row, there, name, next⟩ := kept.published published named
    exact linear.histories.current_last (effect.published_iff.mp succeeded)
      (expects.symm.trans named) there name next

end Everett.Catalog

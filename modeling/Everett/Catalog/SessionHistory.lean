import Everett.Catalog.Sessions
import Everett.Catalog.ExactlyOnce

/-!
# Publication is a compare-and-swap

A publication which expects the current head of its name succeeds, and no other does.  What a call
returns is what is read back, and it is read back for good.
-/

namespace Everett.Catalog

open Outcome Tables

variable {C : Context} {disk : Disk} {t u : Tables}

/-! ## Room behind the last generation -/

theorem length_generationOwner (name : Text) (one two : UInt64) :
    (generationOwner name one).length = (generationOwner name two).length := by
  rw [generationOwner, generationOwner, List.length_append, List.length_append, length_number,
    length_number]

/-- The generation behind the last one of a name. -/
theorem Histories.exists_next (histories : Histories t) {last : TimelineHead}
    (member : last ∈ t.generations) (candidate : BlobIdentity) :
    ∃ row : TimelineHead, row.name = last.name ∧ row.generation = last.generation + 1 ∧
      row.head = candidate ∧ Owned row := by
  have short : (generationOwner last.name (last.generation + 1)).length < 2 ^ 64 := by
    rw [length_generationOwner last.name _ last.generation, ← histories.owned last member]
    exact last.owner.length_lt
  exact ⟨⟨last.name, last.generation + 1, candidate, ⟨_, short⟩⟩, rfl, rfl, rfl, rfl⟩

/-- No generation is behind the last one. -/
theorem Histories.next_new (histories : Histories t) {last row : TimelineHead}
    (found : t.lastTimeline last.name = some last) (name : row.name = last.name)
    (next : row.generation = last.generation + 1) {other : TimelineHead}
    (member : other ∈ t.generations) : ¬ (other.name = row.name ∧ other.generation = row.generation) := by
  rintro ⟨names, numbers⟩
  have there := (histories.last_mem found).1
  have counted := (histories.valid last there).2.2
  rw [histories.lastTimeline] at found
  have top := (histories.linear last.name).getLast found
  have below := (histories.linear last.name).lt_length
    (mem_history.mpr ⟨member, names.trans name⟩)
  rw [numbers, next, next_toNat counted] at below
  omega

theorem Histories.continues_ok (histories : Histories t) {last row : TimelineHead}
    (found : t.lastTimeline last.name = some last) (below : last.generation.toNat ≠ 2 ^ 63 - 1)
    (name : row.name = last.name) (next : row.generation = last.generation + 1)
    (owned : Owned row) (registered : t.Registered row.head) : t.Continues row last := by
  have there := (histories.last_mem found).1
  have counted := (histories.valid last there).2.2
  have fresh : ∀ other ∈ t.generations, other.owner ≠ row.owner := by
    intro other member same
    exact histories.next_new found name next member
      (owner_injective (histories.owned other member) owned same)
  have unowned : (OwnerKind.timeline, row.owner) ∉ t.owners := by
    intro listed
    obtain ⟨other, member, same⟩ := histories.owners row.owner listed
    exact fresh other member same
  refine ⟨name ▸ found, next, below, owned, ?_⟩
  refine ⟨unowned, ?_, registered, ?_, ?_, ?_, ?_⟩
  · exact fun listed => unowned (histories.roots (row.owner, row.head) listed)
  · rw [next, next_toNat counted]
    omega
  · intro listed
    obtain ⟨other, member, same⟩ := List.mem_map.mp listed
    exact histories.next_new found name next member (Prod.mk.inj same)
  · rw [name]
    exact histories.named last there
  · intro listed
    obtain ⟨other, member, same⟩ := List.mem_map.mp listed
    exact fresh other member same

/-! ## Publications which are carried out -/

/-- What a publication needs besides the current head: a registered prepared candidate, numbers left
for one more generation, a timeline which is no session, and roots which are registered and
sealed. -/
def Action.Admissible (C : Context) (disk : Disk) (t : Tables) : Action → Prop
  | .publishTimeline expected candidate =>
      t.Prepared C.policy candidate ∧ expected.generation.toNat ≠ 2 ^ 63 - 1 ∧
        ¬ (4 ≤ C.version ∧ (t.checkpointAt expected.name expected.generation).isSome)
  | .publishSession expected candidate _ roots =>
      t.Prepared C.policy candidate ∧ expected.timeline.generation.toNat ≠ 2 ^ 63 - 1 ∧
        (∀ root ∈ roots.pairs.items, t.Registered root) ∧
        ∀ native ∈ roots.natives.items, requireSealed C disk t native .nativeBlob none = .ok ()
  | _ => False

theorem applyPublishTimeline_ok {expected : TimelineHead} {candidate : BlobIdentity}
    (histories : Histories t) (current : t.lastTimeline expected.name = some expected)
    (prepared : t.Prepared C.policy candidate) (below : expected.generation.toNat ≠ 2 ^ 63 - 1)
    (plain : ¬ (4 ≤ C.version ∧ (t.checkpointAt expected.name expected.generation).isSome)) :
    ∃ u row, applyPublishTimeline C t expected candidate = .ok (u, true, row) := by
  obtain ⟨row, name, next, rfl, owned⟩ :=
    histories.exists_next (histories.last_mem current).1 candidate
  have continues := histories.continues_ok current below name next owned prepared.registered
  have added : t.addGeneration expected.name (expected.generation + 1) row.head =
      .ok (t.withGeneration (plainGeneration row), row) :=
    addGeneration_eq_ok.mpr ⟨⟨name, next, rfl⟩, owned, continues.room, rfl⟩
  refine ⟨t.withGeneration (plainGeneration row), row,
    bind_eq_ok.mpr ⟨expected, demand_eq_ok.mpr current, ?_⟩⟩
  refine bind_eq_ok.mpr ⟨(), demands_eq_ok.mpr plain, ?_⟩
  rw [if_pos rfl]
  refine bind_eq_ok.mpr ⟨(), requirePrepared_eq_ok.mpr prepared, ?_⟩
  refine bind_eq_ok.mpr ⟨(), demands_eq_ok.mpr below, ?_⟩
  exact bind_eq_ok.mpr ⟨_, added, rfl⟩

theorem applyPublishSession_ok {expected : SessionHead} {candidate : BlobIdentity}
    {checkpoint : Text} {roots : Auxiliary} (histories : Histories t)
    (current : t.findSession expected.timeline.name = .ok (some expected))
    (canonical : roots.Canonical candidate) (pinnable : t.Pinnable C disk roots)
    (prepared : t.Prepared C.policy candidate)
    (below : expected.timeline.generation.toNat ≠ 2 ^ 63 - 1) :
    ∃ u value, applyPublishSession C disk t expected candidate checkpoint roots =
      .ok (u, true, value) := by
  obtain ⟨last, attached⟩ := findSession_eq_ok.mp current
  obtain ⟨row, name, next, rfl, owned⟩ :=
    histories.exists_next (histories.last_mem last).1 candidate
  have continues := histories.continues_ok last below name next owned prepared.registered
  have unowned := continues.room.unowned
  have added : t.addSessionGeneration C disk expected.timeline.name
      (expected.timeline.generation + 1) row.head checkpoint roots =
      .ok (t.withGeneration (sessionGeneration ⟨row, checkpoint, roots⟩), ⟨row, checkpoint, roots⟩) := by
    rw [← name, ← next]
    apply addSessionGeneration_ok owned continues.room pinnable canonical.apart
    · exact fun root listed => unowned (histories.roots (row.owner, root) listed)
    · exact fun object listed => unowned (histories.objects (row.owner, object) listed)
    · intro listed
      obtain ⟨kept, member, same⟩ := List.mem_map.mp listed
      apply continues.room.new
      rw [← same]
      exact histories.checked kept member
  refine ⟨t.withGeneration (sessionGeneration ⟨row, checkpoint, roots⟩), ⟨row, checkpoint, roots⟩,
    bind_eq_ok.mpr ⟨_, demand_eq_ok.mpr last, ?_⟩⟩
  refine bind_eq_ok.mpr ⟨expected, attached, ?_⟩
  rw [if_pos rfl]
  refine bind_eq_ok.mpr ⟨(), requirePrepared_eq_ok.mpr prepared, ?_⟩
  refine bind_eq_ok.mpr ⟨(), demands_eq_ok.mpr below, ?_⟩
  exact bind_eq_ok.mpr ⟨_, added, rfl⟩

/-- A publication of the current head is carried out. -/
theorem apply_publication_ok {work : Work} (histories : Histories t) (spelt : work.action.Spelt)
    (current : work.action.Current t) (admissible : work.action.Admissible C disk t) :
    ∃ u outcome, work.apply C disk t = .ok (u, outcome) := by
  obtain ⟨action, pinned⟩ := work
  cases action with
  | publishTimeline expected candidate =>
      obtain ⟨prepared, below, plain⟩ := admissible
      obtain ⟨u, row, applied⟩ := applyPublishTimeline_ok histories current prepared below plain
      exact ⟨u, _, bind_eq_ok.mpr ⟨_, applied, rfl⟩⟩
  | publishSession expected candidate checkpoint roots =>
      obtain ⟨prepared, below, registered, sealed⟩ := admissible
      obtain ⟨canonical, pairs_nodup, natives_nodup⟩ := spelt
      obtain ⟨u, value, applied⟩ := applyPublishSession_ok histories current canonical
        ⟨pairs_nodup, registered, natives_nodup, sealed⟩ prepared below
      exact ⟨u, _, bind_eq_ok.mpr ⟨_, applied, rfl⟩⟩
  | _ => cases current

/-- The head which is current where a publication expects another one. -/
def Action.Stale (C : Context) (t : Tables) : Action → Prop
  | .publishTimeline expected _ => ∃ current, t.lastTimeline expected.name = some current ∧
      current ≠ expected ∧
      ¬ (4 ≤ C.version ∧ (t.checkpointAt current.name current.generation).isSome)
  | .publishSession expected .. => ∃ current,
      t.findSession expected.timeline.name = .ok (some current) ∧ current ≠ expected
  | _ => False

theorem Action.Stale.not_current {action : Action} (stale : action.Stale C t) :
    ¬ action.Current t := by
  intro current
  cases action with
  | publishTimeline expected candidate =>
      obtain ⟨head, last, differs, -⟩ := stale
      exact differs (Option.some.inj (last.symm.trans current))
  | publishSession expected candidate checkpoint roots =>
      obtain ⟨head, found, differs⟩ := stale
      exact differs (Option.some.inj (Except.ok.inj (found.symm.trans current)))
  | _ => cases current

/-- A stale publication reports the current head and leaves the tables as they are. -/
theorem apply_stale {work : Work} (disk : Disk) (stale : work.action.Stale C t) :
    ∃ outcome, work.apply C disk t = .ok (t, outcome) := by
  obtain ⟨action, pinned⟩ := work
  cases action with
  | publishTimeline expected candidate =>
      obtain ⟨current, last, differs, plain⟩ := stale
      refine ⟨publication timeline (false, current), bind_eq_ok.mpr ⟨(t, false, current), ?_, rfl⟩⟩
      refine bind_eq_ok.mpr ⟨current, demand_eq_ok.mpr last, ?_⟩
      refine bind_eq_ok.mpr ⟨(), demands_eq_ok.mpr plain, ?_⟩
      rw [if_neg differs]
  | publishSession expected candidate checkpoint roots =>
      obtain ⟨current, found, differs⟩ := stale
      obtain ⟨last, attached⟩ := findSession_eq_ok.mp found
      refine ⟨publication session (false, current), bind_eq_ok.mpr ⟨(t, false, current), ?_, rfl⟩⟩
      refine bind_eq_ok.mpr ⟨_, demand_eq_ok.mpr last, ?_⟩
      refine bind_eq_ok.mpr ⟨current, attached, ?_⟩
      rw [if_neg differs]
  | _ => cases stale

/-! ## Reading back -/

/-- What a call which wrote a history returns is what is read right after it. -/
def ReadBack (C : Context) (u : Tables) (action : Action) (outcome : List UInt8) : Prop :=
  match action with
  | .createTimeline name _ | .forkTimeline name _ => ∃ head,
      (∀ disk t, finish C disk t outcome action = .ok (.timeline head)) ∧
        u.lastTimeline name = some head
  | .publishTimeline expected _ => ∃ published head,
      (∀ disk t, finish C disk t outcome action = .ok (.timelinePublication published head)) ∧
        u.lastTimeline expected.name = some head
  | .createSession name .. | .forkSession name _ => ∃ head,
      (∀ disk t, finish C disk t outcome action = .ok (.session head)) ∧
        u.findSession name = .ok (some head)
  | .publishSession expected .. => ∃ published head,
      (∀ disk t, finish C disk t outcome action = .ok (.sessionPublication published head)) ∧
        u.findSession expected.timeline.name = .ok (some head)
  | _ => True

theorem readPublication_append {α : Type} {read : Reader α} {encode : α → List UInt8}
    (published : Bool) {value : α} (reads : read (encode value ++ []) = .ok (value, [])) :
    readAll (readPublication read) (publication encode (published, value)) =
      .ok (published, value) := by
  apply readAll_eq
  rw [publication, List.append_assoc]
  cases published with
  | false =>
      refine bind_eq_ok.mpr ⟨_, readNumber_append 0 _, ?_⟩
      refine bind_eq_ok.mpr ⟨(), require_true (by decide), ?_⟩
      exact bind_eq_ok.mpr ⟨_, reads, rfl⟩
  | true =>
      refine bind_eq_ok.mpr ⟨_, readNumber_append 1 _, ?_⟩
      refine bind_eq_ok.mpr ⟨(), require_true (by decide), ?_⟩
      exact bind_eq_ok.mpr ⟨_, reads, rfl⟩

/-- The generation which was just added is the last one of its name. -/
theorem lastTimeline_withGeneration {g : Generation}
    (histories : Histories (t.withGeneration g)) :
    (t.withGeneration g).lastTimeline g.row.name = some g.row := by
  rw [histories.lastTimeline, Histories.history_withGeneration, if_pos rfl, List.getLast?_concat]

theorem Effect.readBack {action : Action} {outcome : List UInt8} (histories : Histories t)
    (spelt : action.Spelt) (effect : Effect C disk t action u outcome) :
    ReadBack C u action outcome := by
  have after := effect.histories histories spelt
  cases effect with
  | quiet _ _ _ unlineal unchanged exact =>
      cases action with
      | createTimeline | forkTimeline | publishTimeline => exact absurd trivial unlineal
      | createSession | forkSession | publishSession => exact absurd trivial unlineal
      | _ => trivial
  | createTimeline row prepared begins =>
      have valid := after.valid row (mem_withGeneration (plainGeneration row))
      have read := readAll_eq (readTimeline_append valid [])
      refine ⟨row, fun disk t => bind_eq_ok.mpr ⟨row, read, rfl⟩, ?_⟩
      exact lastTimeline_withGeneration (g := plainGeneration row) after
  | forkTimeline source row exact prepared head begins =>
      have valid := after.valid row (mem_withGeneration (plainGeneration row))
      have read := readAll_eq (readTimeline_append valid [])
      refine ⟨row, fun disk t => bind_eq_ok.mpr ⟨row, read, rfl⟩, ?_⟩
      exact lastTimeline_withGeneration (g := plainGeneration row) after
  | publishTimeline expected row name prepared continues =>
      have valid := after.valid row (mem_withGeneration (plainGeneration row))
      have read := readPublication_append true (readTimeline_append valid [])
      refine ⟨true, row, fun disk t => bind_eq_ok.mpr ⟨_, read, rfl⟩, ?_⟩
      rw [← name]
      exact lastTimeline_withGeneration (g := plainGeneration row) after
  | staleTimeline expected current candidate last stale =>
      have valid := histories.valid current (histories.last_mem last).1
      have read := readPublication_append false (readTimeline_append valid [])
      exact ⟨false, current, fun disk t => bind_eq_ok.mpr ⟨_, read, rfl⟩, last⟩
  | createSession value prepared begins pinnable =>
      have valid := after.valid value.timeline (mem_withGeneration (sessionGeneration value))
      have read := readAll_eq (readSession_append valid [])
      refine ⟨value, fun disk t => bind_eq_ok.mpr ⟨value, read, rfl⟩, findSession_eq_ok.mpr ⟨?_, ?_⟩⟩
      · exact lastTimeline_withGeneration (g := sessionGeneration value) after
      · exact (begins.holds histories spelt.2.1).2
  | forkSession source value exact prepared head checkpoint auxiliary begins =>
      have valid := after.valid value.timeline (mem_withGeneration (sessionGeneration value))
      have read := readAll_eq (readSession_append valid [])
      have canonical := canonical_attached exact.2
      rw [← auxiliary, ← head] at canonical
      refine ⟨value, fun disk t => bind_eq_ok.mpr ⟨value, read, rfl⟩, findSession_eq_ok.mpr ⟨?_, ?_⟩⟩
      · exact lastTimeline_withGeneration (g := sessionGeneration value) after
      · exact (begins.holds histories canonical).2
  | publishSession expected value name current prepared continues pinnable =>
      have valid := after.valid value.timeline (mem_withGeneration (sessionGeneration value))
      have read := readPublication_append true (readSession_append valid [])
      refine ⟨true, value, fun disk t => bind_eq_ok.mpr ⟨_, read, rfl⟩,
        findSession_eq_ok.mpr ⟨?_, ?_⟩⟩
      · rw [← name]
        exact lastTimeline_withGeneration (g := sessionGeneration value) after
      · exact (continues.holds histories spelt.1).2
  | staleSession expected current candidate checkpoint auxiliary last attached stale =>
      have valid := histories.valid current.timeline (histories.last_mem last).1
      have read := readPublication_append false (readSession_append valid [])
      exact ⟨false, current, fun disk t => bind_eq_ok.mpr ⟨_, read, rfl⟩,
        findSession_eq_ok.mpr ⟨last, attached⟩⟩

/-! ## Runs -/

namespace System

variable {s : System} {event : Event}

/-- Every call which waits for its transaction was checked, and the histories are linear. -/
abbrev Spelt (s : System) : Prop := s.Sound (fun _ work => work.action.Spelt) Linear

theorem spelt_step (spelt : s.Spelt) : (s.step C event).1.Spelt :=
  sound_step (fun _ => prepare_spelt) (fun _ checked => checked)
    (fun linear checked _ applied => linear.commit checked applied) spelt

theorem spelt_run (events : List Event) : (System.created.run C events).1.Spelt :=
  sound_run (fun _ work => work.action.Spelt) Linear
    ⟨.empty, fun _ member => absurd member List.not_mem_nil, .nil⟩ (fun _ => prepare_spelt)
    (fun _ checked => checked) (fun linear checked _ applied => linear.commit checked applied) events

/-- A step changes nothing of the generations before it. -/
theorem later_step (spelt : s.Spelt) : Later s.catalog.tables (s.step C event).1.catalog.tables := by
  rcases step_catalog C s event with same | ⟨handle, disk, answers, call, rfl, ready, -⟩
  · rw [same]
    exact .refl
  · cases found : s.catalog.lookupOperation call.id with
    | none =>
        have fresh := transact_fresh (C := C) disk answers ready found
        rcases fresh with ⟨same, -⟩ | ⟨tables, outcome, applied, committed, -⟩
        · rw [same]
          exact .refl
        · rw [committed]
          exact (Work.effect applied).later spelt.holds.histories (Work.changes applied).grows
    | some old =>
        have recorded : (transaction C disk answers s.catalog call).catalog = s.catalog :=
          transaction_found found
        rw [step_transact ready, settle_catalog, recorded]
        exact .refl

theorem later_run (spelt : s.Spelt) (more : List Event) :
    Later s.catalog.tables (s.run C more).1.catalog.tables := by
  have both := run_invariant (C := C)
    (fun next => next.Spelt ∧ Later s.catalog.tables next.catalog.tables)
    (fun next event kept => ⟨spelt_step kept.1, kept.2.trans (later_step kept.1)⟩)
    ⟨spelt, .refl⟩ more
  exact both.2

end System

/-- Over every run: the generations of a name are numbered without gaps; a transaction of a new call
does nothing or has one effect, in which a publication succeeds exactly when it expects the current
head, and what it returns is what is read back; a publication of the current head is carried out, and
a stale one leaves the tables as they are; no two publications succeed over one head; and what was
recorded or acknowledged stays. -/
theorem session_history (C : Context) (events : List Event) :
    let s := (System.created.run C events).1
    let t := s.catalog.tables
    (∀ name, Numbered (fun row => row.generation.toNat) (t.history name) ∧
      (name ∈ t.timelines.map TimelineRow.name ↔ t.history name ≠ [])) ∧
    (∀ handle call, s.Ready handle call → s.catalog.lookupOperation call.id = none →
      ∀ disk answers, let next := s.step C (.transact handle disk answers)
        (next.1.catalog = s.catalog ∧ ∃ failure, next.2 = .refused failure) ∨
        ∃ u outcome, Effect C disk t call.work.action u outcome ∧
          next.1.catalog = s.catalog.commit call u outcome ∧
          (call.work.action.Published outcome ↔ call.work.action.Current t) ∧
          ReadBack C u call.work.action outcome ∧
          (next.2 = .acknowledged call outcome ∨ ∃ failure, next.2 = .refused failure)) ∧
    (∀ handle call, s.Ready handle call → s.catalog.lookupOperation call.id = none → ∀ disk,
      let next := s.step C (.transact handle disk .clean)
      (call.work.action.Current t → call.work.action.Admissible C disk t →
        ∃ outcome, next.2 = .acknowledged call outcome ∧ call.work.action.Published outcome) ∧
      (call.work.action.Stale C t → ∃ outcome, next.2 = .acknowledged call outcome ∧
        ¬ call.work.action.Published outcome ∧ next.1.catalog = s.catalog.commit call t outcome)) ∧
    (∀ one two first second, .acknowledged one first ∈ (System.created.run C events).2 →
      .acknowledged two second ∈ (System.created.run C events).2 →
      one.work.action.Published first → two.work.action.Published second →
      one.work.action.expects = two.work.action.expects → one.id = two.id) ∧
    ∀ more, let v := (s.run C more).1.catalog.tables
      (∀ row ∈ t.generations, v.timelineAt row.name row.generation = some row ∧
        v.attachCheckpoint row = t.attachCheckpoint row) ∧
      ∀ call outcome, .acknowledged call outcome ∈ (System.created.run C events).2 →
        LineKept v call.work.action outcome := by
  intro s t
  have spelt : s.Spelt := System.spelt_run events
  have linear : Linear s.catalog := spelt.holds
  have histories : Histories t := linear.histories
  refine ⟨?_, ?_, ?_, ?_, ?_⟩
  · intro name
    refine ⟨histories.linear name, histories.started name, fun some_row => ?_⟩
    obtain ⟨row, member⟩ := List.exists_mem_of_ne_nil _ some_row
    obtain ⟨there, rfl⟩ := mem_history.mp member
    exact histories.named row there
  · intro handle call ready absent disk answers next
    have checked := spelt.good handle call ready.2
    rcases System.transact_fresh (C := C) disk answers ready absent with
      nothing | ⟨u, outcome, applied, committed, answer⟩
    · exact .inl nothing
    · have effect := Work.effect applied
      exact .inr ⟨u, outcome, effect, committed, effect.published_iff,
        effect.readBack histories checked, answer⟩
  · intro handle call ready absent disk next
    have checked := spelt.good handle call ready.2
    have clean := transact_new (C := C) disk ready absent
    refine ⟨fun current admissible => ?_, fun stale => ?_⟩
    · obtain ⟨u, outcome, applied⟩ := apply_publication_ok histories checked current admissible
      rw [applied] at clean
      exact ⟨outcome, clean.2, (Work.effect applied).published_iff.mpr current⟩
    · obtain ⟨outcome, applied⟩ := apply_stale disk stale
      rw [applied] at clean
      refine ⟨outcome, clean.2, fun published => ?_, clean.1⟩
      exact Action.Stale.not_current stale ((Work.effect applied).published_iff.mp published)
  · intro one two first second acked acknowledged published succeeded same
    by_contra different
    have one_mem := System.acknowledged_run events acked
    have two_mem := System.acknowledged_run events acknowledged
    have apart : one.entry first ≠ two.entry second := fun equal => different (congrArg Entry.id equal)
    have symmetric : Std.Symm fun first second => ¬ Rivals first second :=
      ⟨fun _ _ peaceful rivals => peaceful rivals.symm⟩
    exact linear.single.forall one_mem two_mem apart
      ⟨one.work.action, two.work.action, ⟨rfl, rfl⟩, ⟨rfl, rfl⟩, published, succeeded, same⟩
  · intro more v
    have later := System.later_run (C := C) spelt more
    refine ⟨fun row member => ⟨?_, later.attached row member⟩, fun call outcome member => ?_⟩
    · apply find?_longer later.grows.generations
      exact histories.timelineAt_eq_some.mpr ⟨member, rfl, rfl⟩
    · apply later.lineKept
      exact linear.keeps _ (System.acknowledged_run events member) _ rfl rfl

end Everett.Catalog

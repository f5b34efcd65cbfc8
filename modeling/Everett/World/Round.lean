import Everett.World.Reference
import Mathlib.Data.String.Basic

/-!
# Partitioned rounds

A round collects batches of edits of one base world.  Batches claim their keys, so accepted batches
never touch the same key, and the world which they lead to depends on which batches were accepted
only, not on the order in which they arrived.
-/

namespace Everett

open Outcome

variable {K V E : Type}

/-- `world_batch`. -/
structure WorldBatch (K V E : Type) where
  roundId : String
  batchId : String
  owner : UInt64
  baseSignature : E
  /-- Advertised contribution of all edits. -/
  delta : E
  edits : List (WorldEdit K V)
  deriving DecidableEq

/-- `world_apply_result`. -/
inductive WorldApplyResult
  | applied
  | replay
  deriving DecidableEq, Repr

/-- `partition_round`. -/
structure PartitionRound (K V E : Type) where
  base : World K V E
  current : World K V E
  roundId : String
  partition : K → UInt64
  /-- Accepted batches by identity. -/
  accepted : List (String × WorldBatch K V E)
  /-- Identity of the batch which edits a key. -/
  claimed : List (K × String)
  /-- Next name of a run. -/
  sequence : Nat

namespace PartitionRound

/-- Open a round on a world. -/
def start (base : World K V E) (roundId : String) (partition : K → UInt64) (sequence : Nat) :
    Except String (PartitionRound K V E) := do
  require (roundId ≠ "") "empty world round identity"
  .ok ⟨base, base, roundId, partition, [], [], sequence⟩

variable [LinearOrder K] [DecidableEq V] [Ring E] [DecidableEq E] (hash : TableHash K V E)

/-- The loop of `make_batch`. -/
def makeEdits (round : PartitionRound K V E) (owner : UInt64) :
    Option K → List (WorldRecord K V) → E → Except String (E × List (WorldEdit K V))
  | _, [], delta => .ok (delta, [])
  | previous, entry :: rest, delta => do
      require (previous ≠ some entry.key) "duplicate world write key"
      require (round.partition entry.key = owner) "world write outside assigned partition"
      let old := round.base.get entry.key
      require (¬ (old = none ∧ entry.value = none)) "deleting absent world key"
      let (delta, edits) ← makeEdits round owner (some entry.key) rest
        (delta + hash.delta entry.key old entry.value)
      .ok (delta, ⟨entry.key, old, entry.value⟩ :: edits)

/-- `make_batch`. -/
def makeBatch (round : PartitionRound K V E) (batchId : String) (owner : UInt64)
    (writes : List (WorldRecord K V)) : Except String (WorldBatch K V E) := do
  require (batchId ≠ "") "empty world batch identity"
  let writes := writes.mergeSort fun a b => a.key ≤ b.key
  let (delta, edits) ← round.makeEdits hash owner none writes 0
  .ok ⟨round.roundId, batchId, owner, round.base.signature, delta, edits⟩

/-- The loop of `apply`: check the edits and sum what they contribute. -/
def checkEdits (round : PartitionRound K V E) (owner : UInt64) :
    Option K → List (WorldEdit K V) → E → Except String E
  | _, [], delta => .ok delta
  | previous, edit :: rest, delta => do
      require (∀ earlier ∈ previous, earlier < edit.key)
        "world batch keys must be strictly sorted"
      require (round.partition edit.key = owner) "world edit outside assigned partition"
      require ((valueAt edit.key round.claimed).isSome = false) "overlapping world updates"
      require (round.base.get edit.key = edit.before) "world edit old value mismatch"
      require (¬ (edit.before = none ∧ edit.after = none)) "deleting absent world key"
      checkEdits round owner (some edit.key) rest
        (delta + hash.delta edit.key edit.before edit.after)

/-- What `apply` checks before it changes anything, and whether the batch is a replay. -/
def check (round : PartitionRound K V E) (update : WorldBatch K V E) :
    Except String WorldApplyResult := do
  require (update.roundId = round.roundId ∧ update.baseSignature = round.base.signature)
    "world batch does not name this round base"
  require (update.batchId ≠ "") "empty world batch identity"
  match valueAt update.batchId round.accepted with
  | some prior => do
      require (prior = update) "world batch identity reused"
      .ok .replay
  | none => do
      let delta ← round.checkEdits hash update.owner none update.edits 0
      require (delta = update.delta) "world batch contribution mismatch"
      .ok .applied

/-- Claim the keys of edits for a batch. -/
def claim (batchId : String) (claimed : List (K × String)) (edits : List (WorldEdit K V)) :
    List (K × String) :=
  edits.foldl (fun claimed edit => emplace edit.key batchId claimed) claimed

/-- `apply`: the outcome of a call, and the round after it. -/
def apply (round : PartitionRound K V E) (update : WorldBatch K V E) :
    Except String WorldApplyResult × PartitionRound K V E :=
  match round.check hash update with
  | .error error => (.error error, round)
  | .ok .replay => (.ok .replay, round)
  | .ok .applied =>
      match round.current.append hash round.sequence update.edits with
      | .error error => (.error error, { round with sequence := round.sequence + 1 })
      | .ok (next, sequence) =>
          (.ok .applied, { round with
            current := next
            accepted := emplace update.batchId update round.accepted
            claimed := claim update.batchId round.claimed update.edits
            sequence })

/-- Calls in order, whatever their outcomes. -/
def applyAll (calls : List (WorldBatch K V E)) (round : PartitionRound K V E) :
    PartitionRound K V E :=
  calls.foldl (fun round update => (round.apply hash update).2) round

end PartitionRound

variable [LinearOrder K] [DecidableEq V] [Ring E] [DecidableEq E]

/-- Worlds which can exist once a process has named so many runs. -/
inductive World.Reachable (hash : TableHash K V E) : Nat → World K V E → Prop
  | empty (sequence : Nat) : Reachable hash sequence World.empty
  | later {sequence more : Nat} {world : World K V E} (reachable : Reachable hash sequence world)
      (named : sequence ≤ more) : Reachable hash more world
  | records {sequence : Nat} {records : List (WorldRecord K V)} {made : World K V E × Nat}
      (accepted : World.fromRecords hash sequence records = .ok made) : Reachable hash made.2 made.1
  | compacted {sequence : Nat} {world : World K V E} {made : World K V E × Nat}
      (reachable : Reachable hash sequence world)
      (accepted : world.compact hash sequence = .ok made) : Reachable hash made.2 made.1
  | advanced {sequence : Nat} {base : World K V E} {roundId : String} {partition : K → UInt64}
      {round : PartitionRound K V E} (reachable : Reachable hash sequence base)
      (opened : PartitionRound.start base roundId partition sequence = .ok round)
      (calls : List (WorldBatch K V E)) :
      Reachable hash (round.applyAll hash calls).sequence (round.applyAll hash calls).current

/-- A batch which stands on the base of a round. -/
structure WorldBatch.Valid (hash : TableHash K V E) (base : World K V E) (roundId : String)
    (partition : K → UInt64) (batch : WorldBatch K V E) : Prop where
  round_eq : batch.roundId = roundId
  base_eq : batch.baseSignature = base.signature
  named : batch.batchId ≠ ""
  sorted : (batch.edits.map WorldEdit.key).Pairwise (· < ·)
  owned : ∀ edit ∈ batch.edits, partition edit.key = batch.owner
  before : ∀ edit ∈ batch.edits, base.get edit.key = edit.before
  effective : ∀ edit ∈ batch.edits, ¬ (edit.before = none ∧ edit.after = none)
  delta_eq : batch.delta =
    (batch.edits.map fun edit => hash.delta edit.key edit.before edit.after).sum

/-- Two batches which name themselves alike or edit a common key. -/
def WorldBatch.Conflicts (one two : WorldBatch K V E) : Prop :=
  one.batchId = two.batchId ∨
    ∃ key, key ∈ one.edits.map WorldEdit.key ∧ key ∈ two.edits.map WorldEdit.key

namespace PartitionRound

variable {hash : TableHash K V E} {round : PartitionRound K V E} {update : WorldBatch K V E}

omit [DecidableEq E] in
/-- The edits of a batch pass exactly when they stand on the base and their keys are unclaimed. -/
theorem checkEdits_eq_ok_iff {owner : UInt64} {previous : Option K} {edits : List (WorldEdit K V)}
    {start delta : E} : round.checkEdits hash owner previous edits start = .ok delta ↔
      (∀ earlier ∈ previous, ∀ edit ∈ edits, earlier < edit.key) ∧
      (edits.map WorldEdit.key).Pairwise (· < ·) ∧
      (∀ edit ∈ edits, round.partition edit.key = owner ∧ valueAt edit.key round.claimed = none ∧
        round.base.get edit.key = edit.before ∧ ¬ (edit.before = none ∧ edit.after = none)) ∧
      delta = start + (edits.map fun edit => hash.delta edit.key edit.before edit.after).sum := by
  induction edits generalizing previous start with
  | nil =>
      rw [checkEdits, Except.ok.injEq]
      simp [eq_comm]
  | cons edit rest induction =>
      rw [checkEdits, bind_eq_ok]
      simp only [bind_eq_ok, require_eq_ok, exists_and_left, exists_const, induction,
        List.map_cons, List.pairwise_cons, List.sum_cons, List.forall_mem_cons, List.mem_map,
        Option.mem_def, Option.some_inj, forall_eq', Option.isSome_eq_false_iff,
        Option.isNone_iff_eq_none, add_assoc, forall_exists_index, and_imp,
        forall_apply_eq_imp_iff₂]
      constructor
      · rintro ⟨above, owned, unclaimed, before, effective, later, sorted, others, sum⟩
        refine ⟨fun earlier same => ⟨above earlier same, fun other member => ?_⟩,
          ⟨later, sorted⟩, ⟨⟨owned, unclaimed, before, effective⟩, others⟩, sum⟩
        exact (above earlier same).trans (later other member)
      · rintro ⟨above, ⟨later, sorted⟩, ⟨⟨owned, unclaimed, before, effective⟩, others⟩, sum⟩
        exact ⟨fun earlier same => (above earlier same).1, owned, unclaimed, before, effective,
          later, sorted, others, sum⟩

omit [DecidableEq V] [DecidableEq E] in
/-- What the loop of `make_batch` checks and builds. -/
theorem makeEdits_eq_ok {owner : UInt64} {previous : Option K} {writes : List (WorldRecord K V)}
    {start delta : E} {edits : List (WorldEdit K V)}
    (made : round.makeEdits hash owner previous writes start = .ok (delta, edits)) :
    (∀ entry ∈ writes.head?, previous ≠ some entry.key) ∧
      edits.map WorldEdit.key = writes.map WorldRecord.key ∧
      ((writes.map WorldRecord.key).Pairwise (· ≤ ·) → RunSorted writes) ∧
      (∀ edit ∈ edits, round.partition edit.key = owner ∧ round.base.get edit.key = edit.before ∧
        ¬ (edit.before = none ∧ edit.after = none)) ∧
      delta = start + (edits.map fun edit => hash.delta edit.key edit.before edit.after).sum := by
  induction writes generalizing previous start edits with
  | nil =>
      cases made
      exact ⟨by simp, rfl, fun _ => List.Pairwise.nil, by simp, by simp⟩
  | cons entry rest induction =>
      rw [makeEdits] at made
      simp only [bind_eq_ok, require_eq_ok, exists_and_left, exists_const] at made
      obtain ⟨new, owned, effective, ⟨rest_delta, rest_edits⟩, rest_made, result⟩ := made
      cases result
      obtain ⟨head, keys, sorted, each, sum⟩ := induction rest_made
      refine ⟨by simpa using new, by simp [keys], fun ascending => ?_, ?_, ?_⟩
      · rw [List.map_cons, List.pairwise_cons] at ascending
        rw [RunSorted, List.map_cons, List.pairwise_cons]
        have rest_sorted := sorted ascending.2
        refine ⟨fun key member => ?_, rest_sorted⟩
        cases rest with
        | nil => cases member
        | cons next rest =>
            have above : entry.key < next.key :=
              lt_of_le_of_ne (ascending.1 next.key List.mem_cons_self) fun same =>
                head next rfl (congrArg some same)
            rw [RunSorted, List.map_cons, List.pairwise_cons] at rest_sorted
            rcases List.mem_cons.mp member with rfl | later
            · exact above
            · exact above.trans (rest_sorted.1 key later)
      · rw [List.forall_mem_cons]
        exact ⟨⟨owned, rfl, effective⟩, each⟩
      · rw [sum, List.map_cons, List.sum_cons, add_assoc]

omit [DecidableEq E] in
/-- The batches which a round makes are valid in it. -/
theorem makeBatch_valid {batchId : String} {owner : UInt64} {writes : List (WorldRecord K V)}
    (made : round.makeBatch hash batchId owner writes = .ok update) :
    update.Valid hash round.base round.roundId round.partition := by
  rw [makeBatch] at made
  simp only [bind_eq_ok, require_eq_ok, exists_and_left, exists_const] at made
  obtain ⟨named, ⟨delta, edits⟩, edits_made, result⟩ := made
  cases result
  have ascending := World.sorted_mergeSort_key writes
  obtain ⟨-, keys, sorted, each, sum⟩ := makeEdits_eq_ok edits_made
  refine ⟨rfl, rfl, named, ?_, fun edit member => (each edit member).1,
    fun edit member => (each edit member).2.1, fun edit member => (each edit member).2.2, ?_⟩
  · simp only [keys]
    exact sorted ascending
  · rw [zero_add] at sum
    exact sum

/-- What the batches which a round accepted did to its world. -/
structure Inv (hash : TableHash K V E) (round : PartitionRound K V E) : Prop where
  base_formed : round.base.WellFormed hash round.sequence
  formed : round.current.WellFormed hash round.sequence
  named : ∀ id batch, valueAt id round.accepted = some batch → batch.batchId = id
  valid : ∀ id batch, valueAt id round.accepted = some batch →
    batch.Valid hash round.base round.roundId round.partition
  claims : ∀ id batch, valueAt id round.accepted = some batch → ∀ edit ∈ batch.edits,
    valueAt edit.key round.claimed = some id ∧ round.current.get edit.key = edit.after
  claimed_by : ∀ key id, valueAt key round.claimed = some id → ∃ batch,
    valueAt id round.accepted = some batch ∧ key ∈ batch.edits.map WorldEdit.key
  untouched : ∀ key, valueAt key round.claimed = none →
    round.current.get key = round.base.get key

/-- A batch which conflicts with an accepted one. -/
def Clashes (round : PartitionRound K V E) (update : WorldBatch K V E) : Prop :=
  (∃ prior, valueAt update.batchId round.accepted = some prior ∧ prior ≠ update) ∨
    valueAt update.batchId round.accepted = none ∧
      ∃ edit ∈ update.edits, valueAt edit.key round.claimed ≠ none

omit [DecidableEq V] [Ring E] [DecidableEq E] in
theorem valueAt_claim {batchId : String} {claimed : List (K × String)}
    {edits : List (WorldEdit K V)} {key : K} : valueAt key (claim batchId claimed edits) =
      (valueAt key claimed).or
        (if key ∈ edits.map WorldEdit.key then some batchId else none) := by
  induction edits generalizing claimed with
  | nil => simp [claim]
  | cons edit rest induction =>
      have step : claim batchId claimed (edit :: rest) =
          claim batchId (emplace edit.key batchId claimed) rest := rfl
      rw [step, induction, valueAt_emplace, Option.or_assoc]
      congr 1
      by_cases same : key = edit.key
      · simp [same]
      · simp [same]

omit [DecidableEq V] [Ring E] [DecidableEq E] [LinearOrder K] in
/-- A new identity is accepted for its batch only. -/
theorem valueAt_emplace_of_none {accepted : List (String × WorldBatch K V E)} {id : String}
    (none_yet : valueAt update.batchId accepted = none) :
    valueAt id (emplace update.batchId update accepted) =
      if id = update.batchId then some update else valueAt id accepted := by
  rw [valueAt_emplace]
  split
  · rename_i same
    rw [same, none_yet, Option.none_or]
  · rw [Option.or_none]

omit [DecidableEq E] [DecidableEq V] in
/-- Accepting a valid batch whose keys are unclaimed keeps the invariant. -/
theorem Inv.accept (inv : round.Inv hash)
    (valid : update.Valid hash round.base round.roundId round.partition)
    (none_yet : valueAt update.batchId round.accepted = none)
    (unclaimed : ∀ edit ∈ update.edits, valueAt edit.key round.claimed = none)
    {next : World K V E} {later : Nat} (more : round.sequence ≤ later)
    (formed : next.WellFormed hash later) (next_get : ∀ key,
      next.get key = (findRecord key (World.editRecords update.edits)).getD
        (round.current.get key)) :
    Inv hash { round with
      current := next
      accepted := emplace update.batchId update round.accepted
      claimed := claim update.batchId round.claimed update.edits
      sequence := later } := by
  have run_sorted : RunSorted (World.editRecords update.edits) := by
    rw [RunSorted, World.editRecords_keys]
    exact valid.sorted
  have edited : ∀ edit ∈ update.edits, next.get edit.key = edit.after := by
    intro edit member
    have found := findRecord_of_mem run_sorted ⟨edit.key, edit.after⟩
      (List.mem_map.mpr ⟨edit, member, rfl⟩)
    rw [next_get, found]
    rfl
  have kept : ∀ key ∉ update.edits.map WorldEdit.key, next.get key = round.current.get key := by
    intro key absent
    rw [← World.editRecords_keys] at absent
    rw [next_get, findRecord_eq_none absent]
    rfl
  have accepted_cases : ∀ {id batch}, valueAt id (emplace update.batchId update round.accepted) =
      some batch → id = update.batchId ∧ batch = update ∨ valueAt id round.accepted = some batch := by
    intro id batch held
    rw [valueAt_emplace_of_none none_yet] at held
    split at held
    · rename_i same
      exact .inl ⟨same, (Option.some_inj.mp held).symm⟩
    · exact .inr held
  have claimed_before : ∀ {key id}, valueAt key round.claimed = some id →
      key ∉ update.edits.map WorldEdit.key := by
    intro key id taken member
    obtain ⟨edit, found, rfl⟩ := List.mem_map.mp member
    rw [unclaimed edit found] at taken
    cases taken
  refine ⟨inv.base_formed.later more, formed, fun id batch held => ?_, fun id batch held => ?_,
    fun id batch held edit member => ?_, fun key id taken => ?_, fun key free => ?_⟩
  · rcases accepted_cases held with ⟨same, rfl⟩ | old
    · exact same.symm
    · exact inv.named id batch old
  · rcases accepted_cases held with ⟨same, rfl⟩ | old
    · exact valid
    · exact inv.valid id batch old
  · rcases accepted_cases held with ⟨same, rfl⟩ | old
    · refine ⟨?_, edited edit member⟩
      rw [valueAt_claim, unclaimed edit member, Option.none_or,
        if_pos (List.mem_map_of_mem member), same]
    · obtain ⟨taken, current⟩ := inv.claims id batch old edit member
      refine ⟨?_, ?_⟩
      · rw [valueAt_claim, taken, Option.some_or]
      · rw [kept _ (claimed_before taken)]
        exact current
  · rw [valueAt_claim] at taken
    cases before : valueAt key round.claimed with
    | some old =>
        rw [before, Option.some_or, Option.some_inj] at taken
        obtain ⟨batch, held, member⟩ := inv.claimed_by key old before
        refine ⟨batch, ?_, member⟩
        have different : id ≠ update.batchId := by
          rintro rfl
          rw [taken, none_yet] at held
          cases held
        rw [valueAt_emplace_of_none none_yet, if_neg different, ← taken]
        exact held
    | none =>
        rw [before, Option.none_or] at taken
        split at taken
        · rename_i member
          refine ⟨update, ?_, member⟩
          rw [valueAt_emplace_of_none none_yet, if_pos (Option.some_inj.mp taken).symm]
        · cases taken
  · rw [valueAt_claim, Option.or_eq_none_iff] at free
    have absent : key ∉ update.edits.map WorldEdit.key := fun member => by
      rw [if_pos member] at free
      cases free.2
    rw [kept key absent]
    exact inv.untouched key free.1

/-- The three outcomes of a call: a rejection or a replay leaves the round as it is, and a valid
batch without conflicts is accepted. -/
theorem Inv.apply_cases (inv : round.Inv hash) (update : WorldBatch K V E) :
    (∃ error, round.apply hash update = (.error error, round) ∧
      (¬ update.Valid hash round.base round.roundId round.partition ∨ round.Clashes update)) ∨
    (round.apply hash update = (.ok .replay, round) ∧
      valueAt update.batchId round.accepted = some update) ∨
    ∃ next, round.apply hash update = (.ok .applied, next) ∧
      update.Valid hash round.base round.roundId round.partition ∧
      valueAt update.batchId round.accepted = none ∧
      (∀ edit ∈ update.edits, valueAt edit.key round.claimed = none) ∧
      next.Inv hash ∧ next.base = round.base ∧
      next.roundId = round.roundId ∧ next.partition = round.partition ∧
      ∀ id, valueAt id next.accepted =
        if id = update.batchId then some update else valueAt id round.accepted := by
  by_cases names : update.roundId = round.roundId ∧ update.baseSignature = round.base.signature
  swap
  · refine .inl ⟨"world batch does not name this round base", ?_,
      .inl fun valid => names ⟨valid.round_eq, valid.base_eq⟩⟩
    rw [apply, check, require, if_neg names]
    rfl
  by_cases named : update.batchId ≠ ""
  swap
  · refine .inl ⟨"empty world batch identity", ?_, .inl fun valid => named valid.named⟩
    rw [apply, check, require_true names, ok_bind, require, if_neg named]
    rfl
  have checked : round.check hash update = (match valueAt update.batchId round.accepted with
      | some prior => do
          require (prior = update) "world batch identity reused"
          .ok .replay
      | none => do
          let delta ← round.checkEdits hash update.owner none update.edits 0
          require (delta = update.delta) "world batch contribution mismatch"
          .ok .applied) := by
    rw [check, require_true names, ok_bind, require_true named, ok_bind]
  cases prior_eq : valueAt update.batchId round.accepted with
  | some prior =>
      rw [prior_eq] at checked
      by_cases same : prior = update
      · refine .inr (.inl ⟨?_, by rw [same]⟩)
        rw [apply, checked]
        simp only [require_true same, ok_bind]
      · refine .inl ⟨"world batch identity reused", ?_, .inr (.inl ⟨prior, prior_eq, same⟩)⟩
        rw [apply, checked]
        simp only [require, if_neg same, error_bind]
  | none =>
      rw [prior_eq] at checked
      cases edits_eq : round.checkEdits hash update.owner none update.edits 0 with
      | error error =>
          refine .inl ⟨error, ?_, ?_⟩
          · rw [apply, checked]
            simp only [edits_eq, error_bind]
          · by_contra fine
            rw [not_or, not_not] at fine
            obtain ⟨valid, free⟩ := fine
            have unclaimed : ∀ edit ∈ update.edits, valueAt edit.key round.claimed = none := by
              intro edit member
              by_contra taken
              exact free (.inr ⟨prior_eq, edit, member, taken⟩)
            have passes := (@checkEdits_eq_ok_iff K V E _ _ _ hash round update.owner none
              update.edits 0 _).mpr
              ⟨by simp, valid.sorted, fun edit member => ⟨valid.owned edit member,
                unclaimed edit member, valid.before edit member, valid.effective edit member⟩, rfl⟩
            rw [edits_eq] at passes
            cases passes
      | ok delta =>
          obtain ⟨-, sorted, each, sum⟩ := checkEdits_eq_ok_iff.mp edits_eq
          rw [zero_add] at sum
          by_cases advertised : delta = update.delta
          swap
          · refine .inl ⟨"world batch contribution mismatch", ?_, .inl fun valid => advertised ?_⟩
            · rw [apply, checked]
              simp only [edits_eq, ok_bind, require, if_neg advertised, error_bind]
            · rw [sum, valid.delta_eq]
          have valid : update.Valid hash round.base round.roundId round.partition :=
            ⟨names.1, names.2, named, sorted, fun edit member => (each edit member).1,
              fun edit member => (each edit member).2.2.1,
              fun edit member => (each edit member).2.2.2, advertised ▸ sum⟩
          have unclaimed : ∀ edit ∈ update.edits, valueAt edit.key round.claimed = none :=
            fun edit member => (each edit member).2.1
          obtain ⟨next, later, appended, more, next_formed, next_get⟩ :=
            inv.formed.append_ok hash sorted fun edit member => by
              rw [inv.untouched _ (unclaimed edit member)]
              exact valid.before edit member
          refine .inr (.inr ⟨_, ?_, valid, rfl, unclaimed, inv.accept valid prior_eq unclaimed more
            next_formed next_get, rfl, rfl, rfl, fun id => ?_⟩)
          · rw [apply, checked]
            simp only [edits_eq, ok_bind, require_true advertised, appended]
          · exact valueAt_emplace_of_none prior_eq

/-! ## Runs of calls -/

/-- A call keeps the invariant, the base and the terms of the round. -/
theorem Inv.apply_inv (inv : round.Inv hash) (update : WorldBatch K V E) :
    (round.apply hash update).2.Inv hash ∧ (round.apply hash update).2.base = round.base ∧
      (round.apply hash update).2.roundId = round.roundId ∧
      (round.apply hash update).2.partition = round.partition := by
  rcases inv.apply_cases update with ⟨error, result, -⟩ | ⟨result, -⟩ |
    ⟨next, result, -, -, -, next_inv, base, id, partition, -⟩
  · rw [result]
    exact ⟨inv, rfl, rfl, rfl⟩
  · rw [result]
    exact ⟨inv, rfl, rfl, rfl⟩
  · rw [result]
    exact ⟨next_inv, base, id, partition⟩

/-- So do calls in any number. -/
theorem Inv.applyAll_inv (inv : round.Inv hash) (calls : List (WorldBatch K V E)) :
    (round.applyAll hash calls).Inv hash ∧ (round.applyAll hash calls).base = round.base ∧
      (round.applyAll hash calls).roundId = round.roundId ∧
      (round.applyAll hash calls).partition = round.partition := by
  induction calls generalizing round with
  | nil => exact ⟨inv, rfl, rfl, rfl⟩
  | cons call calls induction =>
      obtain ⟨next_inv, base, id, partition⟩ := inv.apply_inv call
      obtain ⟨last_inv, last_base, last_id, last_partition⟩ := induction next_inv
      exact ⟨last_inv, last_base.trans base, last_id.trans id, last_partition.trans partition⟩

theorem applyAll_concat (calls : List (WorldBatch K V E)) (call : WorldBatch K V E) :
    round.applyAll hash (calls ++ [call]) = ((round.applyAll hash calls).apply hash call).2 := by
  rw [applyAll, List.foldl_append]
  rfl

omit [DecidableEq V] [DecidableEq E] in
/-- A fresh round on a well-formed world. -/
theorem start_inv {base : World K V E} {roundId : String} {partition : K → UInt64}
    {sequence : Nat} (formed : base.WellFormed hash sequence)
    (opened : start base roundId partition sequence = .ok round) :
    round.Inv hash ∧ round.base = base ∧ round.roundId = roundId ∧ round.partition = partition ∧
      round.accepted = [] := by
  rw [start, bind_eq_ok] at opened
  obtain ⟨-, -, opened⟩ := opened
  cases opened
  refine ⟨⟨formed, formed, ?_, ?_, ?_, ?_, fun _ _ => rfl⟩, rfl, rfl, rfl, rfl⟩ <;>
    intro _ _ impossible <;> cases impossible

omit [DecidableEq V] [DecidableEq E] in
/-- The accepted batches determine what a round answers. -/
theorem Inv.get_eq {other : PartitionRound K V E} (inv : round.Inv hash) (other_inv : other.Inv hash)
    (base : other.base = round.base)
    (same : ∀ id, valueAt id other.accepted = valueAt id round.accepted) (key : K) :
    other.current.get key = round.current.get key := by
  cases taken : valueAt key round.claimed with
  | some id =>
      obtain ⟨batch, held, member⟩ := inv.claimed_by key id taken
      obtain ⟨edit, found, rfl⟩ := List.mem_map.mp member
      rw [(inv.claims id batch held edit found).2,
        (other_inv.claims id batch (by rw [same, held]) edit found).2]
  | none =>
      have other_free : valueAt key other.claimed = none := by
        cases other_taken : valueAt key other.claimed with
        | none => rfl
        | some id =>
            obtain ⟨batch, held, member⟩ := other_inv.claimed_by key id other_taken
            obtain ⟨edit, found, rfl⟩ := List.mem_map.mp member
            rw [(inv.claims id batch (by rw [← same, held]) edit found).1] at taken
            cases taken
      rw [inv.untouched key taken, other_inv.untouched key other_free, base]

end PartitionRound

/-- Whatever a process has done, its worlds are well formed. -/
theorem World.Reachable.wellFormed {hash : TableHash K V E} {sequence : Nat} {world : World K V E}
    (reachable : World.Reachable hash sequence world) : world.WellFormed hash sequence := by
  induction reachable with
  | empty sequence => exact wellFormed_empty sequence
  | later _ named induction => exact induction.later named
  | records accepted => exact (fromRecords_wellFormed accepted).1
  | compacted _ accepted induction =>
      obtain ⟨next, later, result, -, formed, -⟩ := induction.compact_ok
      rw [accepted, Except.ok.injEq] at result
      rw [result]
      exact formed
  | advanced _ opened calls induction =>
      exact ((PartitionRound.start_inv induction opened).1.applyAll_inv calls).1.formed

/-- Batches of one round which name themselves differently and edit different keys. -/
def Compatible (batches : List (WorldBatch K V E)) : Prop :=
  ∀ one ∈ batches, ∀ two ∈ batches, one ≠ two → ¬ one.Conflicts two

/-- Calls which deliver some batches in some order, each at least once; all other calls are invalid
when they arrive, by themselves or for a conflict with a batch which arrived before. -/
structure Delivers (hash : TableHash K V E) (base : World K V E) (roundId : String)
    (partition : K → UInt64) (batches calls : List (WorldBatch K V E)) : Prop where
  all : ∀ batch ∈ batches, batch ∈ calls
  others : ∀ front call back, calls = front ++ call :: back → call ∉ batches →
    ¬ call.Valid hash base roundId partition ∨
      ∃ earlier ∈ front, earlier ∈ batches ∧ earlier.Conflicts call

namespace PartitionRound

variable {hash : TableHash K V E} {round : PartitionRound K V E}
  {batches : List (WorldBatch K V E)}

/-- Of the calls so far, a round has accepted exactly the batches which it is to collect. -/
theorem Inv.accepted_iff (inv : round.Inv hash) (fresh : round.accepted = [])
    (valid : ∀ batch ∈ batches, batch.Valid hash round.base round.roundId round.partition)
    (compatible : Compatible batches) (calls : List (WorldBatch K V E))
    (others : ∀ front call back, calls = front ++ call :: back → call ∉ batches →
      ¬ call.Valid hash round.base round.roundId round.partition ∨
        ∃ earlier ∈ front, earlier ∈ batches ∧ earlier.Conflicts call)
    (id : String) (batch : WorldBatch K V E) :
    valueAt id (round.applyAll hash calls).accepted = some batch ↔
      batch ∈ batches ∧ batch ∈ calls ∧ batch.batchId = id := by
  induction calls using List.reverseRecOn generalizing id batch with
  | nil =>
      rw [applyAll, List.foldl_nil, fresh]
      simp
  | append_singleton front call induction =>
      have before := induction fun earlier other back split absent =>
        others earlier other (back ++ [call]) (by rw [split]; simp) absent
      obtain ⟨reached_inv, base, round_id, partition⟩ := inv.applyAll_inv front
      rw [applyAll_concat]
      generalize reached_eq : round.applyAll hash front = reached at *
      have arrived : ∀ {prior}, valueAt prior.batchId reached.accepted = some prior ↔
          prior ∈ batches ∧ prior ∈ front := by
        intro prior
        rw [before]
        simp
      rcases reached_inv.apply_cases call with ⟨error, result, refused⟩ | ⟨result, held⟩ |
        ⟨next, result, call_valid, none_yet, free, -, -, -, -, accepted⟩
      · -- A rejected call is none of the batches.
        have absent : call ∉ batches := by
          intro member
          rw [base, round_id, partition] at refused
          rcases refused with invalid | ⟨prior, held, different⟩ | ⟨none_yet, edit, found, taken⟩
          · exact invalid (valid call member)
          · obtain ⟨prior_member, -, names⟩ := (before _ _).mp held
            exact compatible prior prior_member call member different (.inl names)
          · obtain ⟨owner, owned⟩ := Option.ne_none_iff_exists'.mp taken
            obtain ⟨prior, held, shares⟩ := reached_inv.claimed_by _ _ owned
            obtain ⟨prior_member, prior_arrived, names⟩ := (before _ _).mp held
            by_cases same : prior = call
            · subst same
              rw [arrived.mpr ⟨prior_member, prior_arrived⟩] at none_yet
              cases none_yet
            · exact compatible prior prior_member call member same
                (.inr ⟨_, shares, List.mem_map_of_mem found⟩)
        rw [result, before, List.mem_append, List.mem_singleton]
        constructor
        · exact fun ⟨member, here, names⟩ => ⟨member, .inl here, names⟩
        · rintro ⟨member, here | rfl, names⟩
          · exact ⟨member, here, names⟩
          · exact absurd member absent
      · obtain ⟨-, arrived_before⟩ := arrived.mp held
        rw [result, before, List.mem_append, List.mem_singleton]
        constructor
        · exact fun ⟨member, here, names⟩ => ⟨member, .inl here, names⟩
        · rintro ⟨member, here | rfl, names⟩
          · exact ⟨member, here, names⟩
          · exact ⟨member, arrived_before, names⟩
      · -- An accepted call is valid and without conflicts, so it is one of the batches.
        have member : call ∈ batches := by
          by_contra absent
          rcases others front call [] rfl absent with invalid | ⟨earlier, here, listed, conflict⟩
          · rw [base, round_id, partition] at call_valid
            exact invalid call_valid
          · have held := arrived.mpr ⟨listed, here⟩
            rcases conflict with names | ⟨key, shares, edited⟩
            · rw [← names, held] at none_yet
              cases none_yet
            · obtain ⟨edit, found, rfl⟩ := List.mem_map.mp edited
              obtain ⟨claim, claimed, same⟩ := List.mem_map.mp shares
              have taken := (reached_inv.claims _ _ held claim claimed).1
              rw [same, free edit found] at taken
              cases taken
        rw [result, accepted, List.mem_append, List.mem_singleton]
        split
        · rename_i same
          subst same
          constructor
          · rintro ⟨⟩
            exact ⟨member, .inr rfl, rfl⟩
          · rintro ⟨listed, -, names⟩
            by_contra different
            rw [Option.some_inj] at different
            exact compatible call member batch listed different (.inl names.symm)
        · rename_i different
          rw [before]
          constructor
          · exact fun ⟨listed, here, names⟩ => ⟨listed, .inl here, names⟩
          · rintro ⟨listed, here | rfl, names⟩
            · exact ⟨listed, here, names⟩
            · exact absurd names.symm different

end PartitionRound

/-- Batches of a round commute: delivered in any order and any number of times, among invalid calls,
they lead to one table and are all accepted.  A rejected call changes nothing, and the signature stays exact. -/
theorem partition_rounds_commute {hash : TableHash K V E} {sequence : Nat} {base : World K V E}
    (reachable : World.Reachable hash sequence base) {roundId : String} {partition : K → UInt64}
    {round : PartitionRound K V E}
    (opened : PartitionRound.start base roundId partition sequence = .ok round) :
    (∀ batches : List (WorldBatch K V E),
      (∀ batch ∈ batches, batch.Valid hash base roundId partition) → Compatible batches →
      ∀ calls calls', Delivers hash base roundId partition batches calls →
        Delivers hash base roundId partition batches calls' →
        let final := (round.applyAll hash calls).current
        let final' := (round.applyAll hash calls').current
        (∀ batch, valueAt batch.batchId (round.applyAll hash calls).accepted = some batch ↔
          batch ∈ batches) ∧
        final.resolved = final'.resolved ∧ final.liveSize = final'.liveSize ∧
          final.signature = final'.signature) ∧
    (∀ calls call error after, (round.applyAll hash calls).apply hash call = (.error error, after) →
      after = round.applyAll hash calls) ∧
    ∀ calls, (round.applyAll hash calls).current.signature =
      (round.applyAll hash calls).current.recomputeSignature hash := by
  obtain ⟨inv, rfl, rfl, rfl, fresh⟩ := PartitionRound.start_inv reachable.wellFormed opened
  refine ⟨fun batches valid compatible calls calls' delivered delivered' => ?_,
    fun calls call error after rejected => ?_, fun calls => ?_⟩
  · obtain ⟨final_inv, final_base, -, -⟩ := inv.applyAll_inv calls
    obtain ⟨final_inv', final_base', -, -⟩ := inv.applyAll_inv calls'
    have accepted := inv.accepted_iff fresh valid compatible calls delivered.others
    have accepted' := inv.accepted_iff fresh valid compatible calls' delivered'.others
    have same : ∀ id, valueAt id (round.applyAll hash calls).accepted =
        valueAt id (round.applyAll hash calls').accepted := by
      intro id
      refine Option.ext fun batch => ?_
      rw [accepted, accepted']
      constructor
      · exact fun ⟨listed, _, names⟩ => ⟨listed, delivered'.all batch listed, names⟩
      · exact fun ⟨listed, _, names⟩ => ⟨listed, delivered.all batch listed, names⟩
    have resolved := World.resolved_eq final_inv.formed.sorted final_inv'.formed.sorted fun key =>
      final_inv'.get_eq final_inv (final_base.trans final_base'.symm) same key
    refine ⟨fun batch => ?_, resolved, ?_, ?_⟩
    · rw [accepted]
      exact ⟨fun ⟨listed, _, _⟩ => listed, fun listed => ⟨listed, delivered.all batch listed, rfl⟩⟩
    · rw [final_inv.formed.live, final_inv'.formed.live, resolved]
    · rw [final_inv.formed.signature_eq, final_inv'.formed.signature_eq,
        World.recomputeSignature_eq_total, World.recomputeSignature_eq_total, resolved]
  · rcases (inv.applyAll_inv calls).1.apply_cases call with ⟨_, result, -⟩ | ⟨result, -⟩ |
      ⟨next, result, -⟩
    · rw [result] at rejected
      exact (Prod.mk.inj rejected).2.symm
    · rw [result] at rejected
      cases (Prod.mk.inj rejected).1
    · rw [result] at rejected
      cases (Prod.mk.inj rejected).1
  · exact (inv.applyAll_inv calls).1.formed.signature_eq

/-- A round on a world of one record. -/
theorem partition_rounds_commute_one_record :
    let hash : TableHash Nat Nat Int := ⟨fun word => word.toNat, fun key => .ofNat key,
      fun value => .ofNat value⟩
    let base : World Nat Nat Int := ⟨⟨[⟨0, [⟨1, some 5⟩], 5, some 5⟩], 5⟩, 1⟩
    let round : PartitionRound Nat Nat Int := ⟨base, base, "round", fun _ => 0, [], [], 1⟩
    (∀ batches : List (WorldBatch Nat Nat Int),
      (∀ batch ∈ batches, batch.Valid hash base "round" fun _ => 0) → Compatible batches →
      ∀ calls calls', Delivers hash base "round" (fun _ => 0) batches calls →
        Delivers hash base "round" (fun _ => 0) batches calls' →
        let final := (round.applyAll hash calls).current
        let final' := (round.applyAll hash calls').current
        (∀ batch, valueAt batch.batchId (round.applyAll hash calls).accepted = some batch ↔
          batch ∈ batches) ∧
        final.resolved = final'.resolved ∧ final.liveSize = final'.liveSize ∧
          final.signature = final'.signature) ∧
    (∀ calls call error after, (round.applyAll hash calls).apply hash call = (.error error, after) →
      after = round.applyAll hash calls) ∧
    ∀ calls, (round.applyAll hash calls).current.signature =
      (round.applyAll hash calls).current.recomputeSignature hash := by
  intro hash base round
  have accepted : World.fromRecords hash 0 [⟨1, some 5⟩] = .ok (base, 1) := by
    simp [World.fromRecords, World.fromRecordsLoop, require, PinSet.add, PinSet.empty, PinSet.find,
      TableHash.binding, hash, base]
  have opened : PartitionRound.start base "round" (fun _ => 0) 1 = .ok round := rfl
  exact partition_rounds_commute (.records accepted) opened

end Everett

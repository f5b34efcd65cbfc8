import Everett.Transaction.Change

/-!
# Flushes

A flush records the buffered arrow of every key in a batch.  The world which the core makes of it
has the present states, so nothing is buffered over it.
-/

namespace Everett

variable {S : Type} {Key State Arrow : S → Type} {R C E B X : Type} [LinearOrder E]

/-- A core applies the record of each key of an ordered batch to the state of that key. -/
structure RecordsApply (env : TransactionEnv S R C E B X Key State Arrow)
    (apply : Applies (List (E × B)) ((p : (s : S) × Key s) → State p.1)) : Prop where
  unrecorded : ∀ {records before after s key e}, Ordered records →
    apply records before = some after → env.transport.encode s key = .ok e →
    valueAt e records = none → after.values ⟨s, key⟩ = before.values ⟨s, key⟩
  recorded : ∀ {records before after s key e b arrow}, Ordered records →
    apply records before = some after → env.transport.encode s key = .ok e →
    valueAt e records = some b → env.transport.arrow s b = .ok arrow →
    after.values ⟨s, key⟩ = env.semantics.apply s key (before.values ⟨s, key⟩) arrow

/-- A stage has a world of a core which was given what was flushed, or the world of the origin. -/
def Staged (env : TransactionEnv S R C E B X Key State Arrow) (origin : StoredWorld R)
    (stage : TransactionStage R) (flushed : List (List (E × B))) : Prop :=
  if stage.changed then
    ∃ c, Candidate env.ops origin c flushed ∧ stage.world = env.ops.snapshot c
  else stage.world = origin.world ∧ flushed = []

/-- The stage of a transaction, and its core unless the transaction failed. -/
structure Transaction.Held (env : TransactionEnv S R C E B X Key State Arrow)
    (tx : Transaction R C E B Key Arrow) : Prop where
  staged : Staged env tx.origin tx.stage tx.flushed
  core : ∀ c, tx.failed = false → tx.core = some c →
    tx.stage.changed = true ∧ Candidate env.ops tx.origin c tx.flushed

/-- The records of the entries of a nursery. -/
def flushRecords (table : List (E × NurseryValue B)) : List (E × B) :=
  table.map fun entry => (entry.1, entry.2.arrow)

omit [LinearOrder E] in
theorem keys_flushRecords (table : List (E × NurseryValue B)) :
    (flushRecords table).map Prod.fst = table.map Prod.fst := by
  rw [flushRecords, List.map_map]
  rfl

theorem ordered_flushRecords {table : List (E × NurseryValue B)} (ordered : Ordered table) :
    Ordered (flushRecords table) := by
  rw [Ordered, keys_flushRecords]
  exact ordered

theorem valueAt_flushRecords {table : List (E × NurseryValue B)} (e : E) :
    valueAt e (flushRecords table) = (valueAt e table).map NurseryValue.arrow := by
  induction table with
  | nil => rfl
  | cons entry rest induction =>
      by_cases same : entry.1 = e
      · subst same
        rw [flushRecords, List.map_cons, valueAt_cons_self, valueAt_cons_self, Option.map_some]
      · rw [flushRecords, List.map_cons, valueAt_cons_of_ne same, valueAt_cons_of_ne same,
          ← induction, flushRecords]

/-- Ordered records need no sorting, and have no duplicate. -/
theorem TransactionEnv.finish_ok {records : List (E × B)} (ordered : Ordered records) :
    finish (X := X) records = .ok records := by
  have sorted : records.Pairwise fun a b => decide (a.1 ≤ b.1) = true :=
    (List.pairwise_map.mp ordered).imp fun less => decide_eq_true less.le
  unfold finish
  rw [List.mergeSort_of_pairwise sorted]
  exact if_pos (ordered.imp fun less => less.ne).isChain

section
variable {env : TransactionEnv S R C E B X Key State Arrow} {tx tx' : Transaction R C E B Key Arrow}
  {h : NurseryHeap E (NurseryValue B)} {states : (p : (s : S) × Key s) → State p.1}
  {t : NurseryTree E (NurseryValue B)} {origin : StoredWorld R}
  {apply : Applies (List (E × B)) ((p : (s : S) × Key s) → State p.1)} {schema : List UInt8}
  {valid : C → Prop} {sound : TypedWorld R → Prop}

/-- The records of a flush. -/
theorem Transaction.batch_ok (laws : SortLaws env.semantics env.transport) {size : Nat}
    (stored : h.Stored tx.nursery.root size t)
    (buffered : Buffered env tx.stage.world states t.bindings) :
    tx.batch env h = .ok (flushRecords t.bindings) := by
  have each : ∀ entry ∈ t.bindings, env.record entry = .ok (entry.1, entry.2.arrow) := by
    intro entry member
    have found := (valueAt_eq_some stored.ordered).mpr member
    obtain ⟨s, key, arrow, encoded, value, -, -⟩ := buffered.buffered entry.1 entry.2 found
    rw [TransactionEnv.record, laws.dispatch_encode encoded, Outcome.ok_bind,
      laws.arrow_value value, Outcome.ok_bind, encoded, Outcome.ok_bind, value]
    rfl
  rw [Transaction.batch, NurseryMap.entries_ok stored, Outcome.demand_some, Outcome.ok_bind,
    Outcome.mapM_ok each, raise_ok, Outcome.ok_bind]
  exact TransactionEnv.finish_ok (ordered_flushRecords stored.ordered)

omit [LinearOrder E] in
/-- A stage says what its candidates say. -/
theorem Staged.values_eq (staged : Staged env origin tx.stage tx.flushed)
    (contract : CoreContract env.ops env.values apply schema valid sound)
    (is_sound : sound origin.world) {c : C} (candidate : Candidate env.ops origin c tx.flushed) :
    env.values (env.ops.snapshot c).runtime = env.values tx.stage.world.runtime := by
  obtain ⟨-, -, applied⟩ := candidate.applied contract is_sound
  unfold Staged at staged
  split_ifs at staged with changed
  · obtain ⟨c', candidate', world_eq⟩ := staged
    obtain ⟨-, -, applied'⟩ := candidate'.applied contract is_sound
    rw [applied] at applied'
    rw [world_eq]
    exact congrArg LogicalState.values (Option.some.inj applied')
  · obtain ⟨world_eq, nothing⟩ := staged
    rw [nothing] at applied
    rw [world_eq]
    exact (congrArg LogicalState.values (Option.some.inj applied)).symm

omit [LinearOrder E] in
/-- The core of a transaction. -/
theorem Transaction.ensureCore_ok (held : tx.Held env) (healthy : tx.failed = false) {c : C}
    (result : tx.ensureCore env = .ok c) : Candidate env.ops tx.origin c tx.flushed := by
  unfold ensureCore at result
  split at result
  · next own =>
      cases result
      exact (held.core c healthy own).2
  · have staged := held.staged
    unfold Staged at staged
    split_ifs at staged with changed
    · obtain ⟨c', candidate, world_eq⟩ := staged
      rw [world_eq] at result
      exact .branch candidate result
    · obtain ⟨world_eq, nothing⟩ := staged
      rw [world_eq] at result
      rw [nothing]
      exact .start result

omit [LinearOrder E] in
theorem TransactionEnv.serve_ok {turns : Nat} {c c' : C} {edits : List (List (E × B))}
    (candidate : Candidate env.ops origin c edits)
    (served : env.serve turns c = some (.ok c')) : Candidate env.ops origin c' edits := by
  induction turns generalizing c with
  | zero => cases served
  | succ turns induction =>
      unfold serve at served
      split_ifs at served with ready
      · cases served
        exact candidate
      · split at served
        · cases served
        · next advanced => exact induction (candidate.advance advanced) served

/-- What a transaction is once its nursery was staged. -/
inductive Transaction.Flushed (env : TransactionEnv S R C E B X Key State Arrow)
    (states : (p : (s : S) × Key s) → State p.1) (table : List (E × NurseryValue B))
    (tx : Transaction R C E B Key Arrow) : Transaction R C E B Key Arrow → Prop
  | nothing (empty : table = []) : Flushed env states table tx tx
  | staged {core : C} {updated : TypedWorld R}
      (candidate : Candidate env.ops tx.origin core (tx.flushed ++ [flushRecords table]))
      (world : updated = env.ops.snapshot core) (buffered : Buffered env updated states []) :
      Flushed env states table tx { tx with
        core := some core
        stage := ⟨updated, true⟩
        nursery := .empty
        flushed := tx.flushed ++ [flushRecords table] }

/-- A flush which succeeds leaves the states as they were. -/
theorem Transaction.stageBatch_ok (laws : SortLaws env.semantics env.transport)
    (contract : CoreContract env.ops env.values apply schema valid sound)
    (applies : RecordsApply env apply) (is_sound : sound tx.origin.world)
    (stored : h.Stored tx.nursery.root tx.nursery.size t)
    (buffered : Buffered env tx.stage.world states t.bindings) (held : tx.Held env) {turns : Nat}
    (result : tx.stageBatch env h turns = some (.ok (), tx')) :
    tx.requireActive (X := X) = .ok () ∧ Flushed env states t.bindings tx tx' := by
  unfold stageBatch at result
  split at result
  · cases result
  next active =>
  refine ⟨active, ?_⟩
  split_ifs at result with empty
  · cases result
    refine .nothing (List.eq_nil_of_length_eq_zero ?_)
    rw [← stored.size_eq, empty]
  rw [batch_ok laws stored buffered] at result
  dsimp only at result
  split at result
  · cases result
  next core ensured =>
  split at result
  · cases result
  · cases result
  next ready served =>
  split at result
  · cases result
  next updated core' contributed =>
  split at result
  · cases result
  cases result
  -- the core which is given the batch says what the stage said
  have healthy := (requireActive_eq_ok.mp active).2
  have candidate := TransactionEnv.serve_ok (ensureCore_ok held healthy ensured) served
  have same := held.staged.values_eq contract is_sound candidate
  obtain ⟨is_valid, sane, -⟩ := candidate.applied contract is_sound
  obtain ⟨-, -, snapshot, applied⟩ := contract.contribute_ok is_valid sane contributed
  have ordered := ordered_flushRecords stored.ordered
  refine .staged (candidate.contribute contributed) snapshot.symm
    (.nil fun s key e encoded => ?_)
  cases found : valueAt e t.bindings with
  | none =>
      have absent : valueAt e (flushRecords t.bindings) = none := by
        rw [valueAt_flushRecords, found, Option.map_none]
      have unchanged := applies.unrecorded ordered applied encoded absent
      change env.values updated.runtime _ = env.values (env.ops.snapshot ready).runtime _
        at unchanged
      rw [unchanged, same]
      exact buffered.unbuffered s key e encoded found
  | some entry =>
      obtain ⟨arrow, decoded, -, state, -⟩ := buffered.entry laws encoded found
      have recorded : valueAt e (flushRecords t.bindings) = some entry.arrow := by
        rw [valueAt_flushRecords, found, Option.map_some]
      have changed := applies.recorded ordered applied encoded recorded decoded
      change env.values updated.runtime ⟨s, key⟩ = env.semantics.apply s key
        (env.values (env.ops.snapshot ready).runtime ⟨s, key⟩) arrow at changed
      rw [changed, same]
      exact state

/-- A flush which throws leaves all but the core, and may fail the transaction. -/
theorem Transaction.stageBatch_error {turns : Nat} {error : TransactionError X}
    (result : tx.stageBatch env h turns = some (.error error, tx')) : tx' = tx ∨ ∃ core, tx' = { tx with
      core := core
      failed := true } := by
  unfold stageBatch at result
  split at result
  · cases result
    exact .inl rfl
  split_ifs at result with empty
  · cases result
  split at result
  · cases result
    exact .inl rfl
  split at result
  · cases result
    exact .inr ⟨tx.core, rfl⟩
  split at result
  · cases result
  · cases result
    exact .inr ⟨tx.core, rfl⟩
  split at result
  · cases result
    exact .inr ⟨_, rfl⟩
  split at result
  · cases result
    exact .inr ⟨_, rfl⟩
  · cases result

omit [LinearOrder E] in
/-- What a transaction submits says what its stage says. -/
theorem Transaction.prepare_ok (contract : CoreContract env.ops env.values apply schema valid sound)
    (is_sound : sound tx.origin.world) (held : tx.Held env) (healthy : tx.failed = false)
    {prepared : PreparedTransaction R C (List (E × B))} (result : tx.prepare env = .ok prepared) :
    prepared.Prepared env.ops ∧ prepared.base = tx.origin ∧ prepared.edits = tx.flushed ∧
      env.values (prepared.core.elim tx.origin.world env.ops.snapshot).runtime =
        env.values tx.stage.world.runtime := by
  unfold prepare at result
  split_ifs at result with changed
  · obtain ⟨core, ensured, rest⟩ := Outcome.bind_eq_ok.mp result
    cases rest
    have candidate := ensureCore_ok held healthy (raise_eq_ok.mp ensured)
    exact ⟨candidate, rfl, rfl, held.staged.values_eq contract is_sound candidate⟩
  · cases result
    have coreless : tx.core = none := by
      cases own : tx.core with
      | none => rfl
      | some c => exact absurd (held.core c healthy own).1 changed
    have staged := held.staged
    unfold Staged at staged
    rw [if_neg changed] at staged
    obtain ⟨world_eq, nothing⟩ := staged
    unfold PreparedTransaction.Prepared
    rw [coreless, world_eq]
    exact ⟨nothing, rfl, rfl, rfl⟩

end

end Everett

import Everett.Catalog.System

/-!
# Operations are applied exactly once

The lookup of the journal, the apply step and the entry of the journal share one transaction.  The
tables are therefore what the entries make of them, one after the other, and an entry answers every
later call of its identity.
-/

namespace Everett.Catalog

open Outcome

/-- Apply some calls to a catalog, each once and in order. -/
def perform (C : Context) : List (Disk × Call) → Database → Answer Database
  | [], c => .ok c
  | (disk, call) :: rest, c => do
      let (tables, outcome) ← call.work.apply C disk c.tables
      perform C rest (c.commit call tables outcome)

/-- A catalog which some calls lead to, each applied once. -/
def Performed (C : Context) (c : Database) : Prop :=
  ∃ calls, perform C calls ⟨[], .empty⟩ = .ok c ∧ (calls.map fun step => step.2.id).Nodup

/-- The entry of a call. -/
def Call.entry (call : Call) (outcome : List UInt8) : Entry :=
  ⟨call.id, call.work.action.kind, call.work.action.request, outcome⟩

variable {C : Context} {c : Database} {disk : Disk} {answers : Answers} {call : Call}

/-! ## Calls one after the other -/

theorem perform_append {first second : List (Disk × Call)} {c : Database} :
    perform C (first ++ second) c = perform C first c >>= fun middle => perform C second middle := by
  induction first generalizing c with
  | nil => rfl
  | cons step first induction =>
      obtain ⟨disk, call⟩ := step
      rw [List.cons_append, perform, perform]
      cases call.work.apply C disk c.tables with
      | error failure => rfl
      | ok result => exact induction

theorem ids_of_perform {calls : List (Disk × Call)} {c d : Database}
    (performed : perform C calls c = .ok d) :
    d.journal.map Entry.id = c.journal.map Entry.id ++ calls.map fun step => step.2.id := by
  induction calls generalizing c with
  | nil =>
      cases performed
      rw [List.map_nil, List.append_nil]
  | cons step calls induction =>
      obtain ⟨disk, call⟩ := step
      obtain ⟨⟨tables, outcome⟩, -, rest⟩ := bind_eq_ok.mp performed
      rw [induction rest, Database.commit, List.map_append, List.append_assoc]
      rfl

/-- The identities of the journal are those of the calls which were applied. -/
theorem Performed.nodup (performed : Performed C c) : (c.journal.map Entry.id).Nodup := by
  obtain ⟨calls, done, nodup⟩ := performed
  rw [ids_of_perform done]
  exact nodup

/-- One more call is applied when its identity is new. -/
theorem Performed.commit (performed : Performed C c) {tables : Tables} {outcome : List UInt8}
    (absent : c.lookupOperation call.id = none)
    (applied : call.work.apply C disk c.tables = .ok (tables, outcome)) :
    Performed C (c.commit call tables outcome) := by
  obtain ⟨calls, done, nodup⟩ := performed
  have ids := ids_of_perform done
  have fresh : call.id ∉ calls.map fun step => step.2.id := by
    intro member
    have listed : call.id ∈ c.journal.map Entry.id := by
      rw [ids]
      exact List.mem_append_right _ member
    obtain ⟨entry, entry_mem, same⟩ := List.mem_map.mp listed
    exact List.find?_eq_none.mp absent entry entry_mem (decide_eq_true same)
  refine ⟨calls ++ [(disk, call)], ?_, ?_⟩
  · rw [perform_append, done, ok_bind, perform, applied]
    rfl
  · rw [List.map_append]
    refine List.nodup_append.mpr ⟨nodup, List.nodup_singleton _, ?_⟩
    intro id member other last same
    rw [List.map_singleton, List.mem_singleton] at last
    exact fresh (last ▸ same ▸ member)

/-- An entry which is looked up is in the journal. -/
theorem lookupOperation_mem {id : Text} {old : Entry} (found : c.lookupOperation id = some old) :
    old ∈ c.journal ∧ old.id = id := by
  unfold Database.lookupOperation at found
  have same := List.find?_some found
  exact ⟨List.mem_of_find?_eq_some found, of_decide_eq_true same⟩

theorem Performed.lookup (performed : Performed C c) {old : Entry} (member : old ∈ c.journal) :
    c.lookupOperation old.id = some old := by
  cases found : c.lookupOperation old.id with
  | none => exact absurd (decide_eq_true rfl) (List.find?_eq_none.mp found old member)
  | some entry =>
      obtain ⟨entry_mem, same⟩ := lookupOperation_mem found
      rw [List.inj_on_of_nodup_map performed.nodup entry_mem member same]

/-! ## One transaction -/

/-- A body replays an entry of the same kind and request. -/
theorem transactionBody_replayed {outcome : List UInt8}
    (body : transactionBody C disk answers c call = .ok (.replayed outcome)) :
    ∃ old, c.lookupOperation call.id = some old ∧ old = call.entry outcome := by
  obtain ⟨_, -, rest⟩ := bind_eq_ok.mp body
  split at rest
  · rename_i old found
    obtain ⟨_, same, rest⟩ := bind_eq_ok.mp rest
    obtain ⟨_, -, rest⟩ := bind_eq_ok.mp rest
    cases rest
    obtain ⟨kinds, requests⟩ := require_eq_ok.mp same
    refine ⟨old, found, ?_⟩
    obtain ⟨id, kind, request, outcome⟩ := old
    cases (lookupOperation_mem found).2
    cases kinds
    cases requests
    rfl
  · obtain ⟨_, -, rest⟩ := bind_eq_ok.mp rest
    obtain ⟨⟨tables, result⟩, -, rest⟩ := bind_eq_ok.mp rest
    obtain ⟨_, -, rest⟩ := bind_eq_ok.mp rest
    cases rest

/-- A body applies a call whose identity is new. -/
theorem transactionBody_applied {tables : Tables} {outcome : List UInt8}
    (body : transactionBody C disk answers c call = .ok (.applied tables outcome)) :
    c.lookupOperation call.id = none ∧
      call.work.apply C disk c.tables = .ok (tables, outcome) := by
  obtain ⟨_, -, rest⟩ := bind_eq_ok.mp body
  split at rest
  · obtain ⟨_, -, rest⟩ := bind_eq_ok.mp rest
    obtain ⟨_, -, rest⟩ := bind_eq_ok.mp rest
    cases rest
  · rename_i absent
    obtain ⟨_, -, rest⟩ := bind_eq_ok.mp rest
    obtain ⟨⟨grown, result⟩, applied, rest⟩ := bind_eq_ok.mp rest
    obtain ⟨_, -, rest⟩ := bind_eq_ok.mp rest
    cases rest
    exact ⟨absent, applied⟩

@[simp]
theorem settleFailure_catalog (failure : Failure) :
    (settleFailure c answers failure).catalog = c := by
  cases failure <;> rfl

variable (answers) in
/-- A failure before the commit is thrown on. -/
theorem settleFailure_answer (failure : Failure) :
    ∃ thrown, (settleFailure c answers failure).answer = .error thrown := by
  cases failure with
  | catalog message code unknown => exact ⟨_, rfl⟩
  | exception message => exact ⟨_, rfl⟩

/-- What a transaction can do: fail without a trace, replay an entry, or apply a call whose identity
is new and then commit. -/
inductive Outcomes (C : Context) (disk : Disk) (answers : Answers) (c : Database) (call : Call) :
    Settled → Prop
  | failed (begun : Answers) (failure : Failure)
      (same : begun = answers ∨ answers.start ≠ none ∧ begun = { answers with ended := true }) :
      Outcomes C disk answers c call (settleFailure c begun failure)
  | replayed (outcome : List UInt8)
      (found : c.lookupOperation call.id = some (call.entry outcome)) :
      Outcomes C disk answers c call ⟨c, false, .ok outcome⟩
  | applied (tables : Tables) (outcome : List UInt8)
      (absent : c.lookupOperation call.id = none)
      (result : call.work.apply C disk c.tables = .ok (tables, outcome)) :
      Outcomes C disk answers c call
        (settleCommit c (c.commit call tables outcome) answers.commit outcome)

variable (C c disk answers call) in
theorem outcomes_transaction :
    Outcomes C disk answers c call (transaction C disk answers c call) := by
  unfold transaction
  split
  · rename_i failure refused
    refine .failed _ failure (.inr ⟨?_, rfl⟩)
    intro none
    rw [none] at refused
    cases refused
  · split
    · rename_i failure _
      exact .failed answers failure (.inl rfl)
    · rename_i outcome body
      obtain ⟨old, found, rfl⟩ := transactionBody_replayed body
      exact .replayed outcome found
    · rename_i tables outcome body
      obtain ⟨absent, result⟩ := transactionBody_applied body
      exact .applied tables outcome absent result

theorem settleCommit_catalog (c committed : Database) (answer : CommitAnswer)
    (outcome : List UInt8) : (settleCommit c committed answer outcome).catalog = c ∨
      (settleCommit c committed answer outcome).catalog = committed := by
  cases answer with
  | acknowledged => exact .inr rfl
  | lost code => exact .inr rfl
  | refused code => exact .inl rfl
  | skipped => exact .inl rfl

/-- A transaction keeps the journal and the tables in step. -/
theorem Performed.transaction (performed : Performed C c) :
    Performed C (transaction C disk answers c call).catalog := by
  have outcomes := outcomes_transaction C c disk answers call
  generalize Everett.Catalog.transaction C disk answers c call = settled at outcomes ⊢
  cases outcomes with
  | failed begun failure same => rwa [settleFailure_catalog]
  | replayed outcome found => exact performed
  | applied tables outcome absent result =>
      rcases settleCommit_catalog c (c.commit call tables outcome) answers.commit outcome with unchanged | committed
      · rwa [unchanged]
      · rw [committed]
        exact performed.commit absent result

/-- An acknowledged outcome is in the journal which the transaction leaves. -/
theorem transaction_acknowledged {outcome : List UInt8}
    (acknowledged : (transaction C disk answers c call).answer = .ok outcome) :
    call.entry outcome ∈ (transaction C disk answers c call).catalog.journal := by
  have outcomes := outcomes_transaction C c disk answers call
  generalize Everett.Catalog.transaction C disk answers c call = settled at outcomes acknowledged ⊢
  cases outcomes with
  | failed begun failure same =>
      obtain ⟨thrown, answer⟩ := settleFailure_answer (c := c) begun failure
      cases answer.symm.trans acknowledged
  | replayed recorded found =>
      cases acknowledged
      exact (lookupOperation_mem found).1
  | applied tables result absent applied =>
      cases commit : answers.commit with
      | acknowledged =>
          rw [commit] at acknowledged
          cases acknowledged
          exact List.mem_append_right _ (List.mem_singleton_self _)
      | lost code | refused code | skipped =>
          rw [commit] at acknowledged
          cases acknowledged

theorem transaction_journal :
    c.journal <+: (transaction C disk answers c call).catalog.journal := by
  have outcomes := outcomes_transaction C c disk answers call
  generalize Everett.Catalog.transaction C disk answers c call = settled at outcomes ⊢
  cases outcomes with
  | failed begun failure same => rw [settleFailure_catalog]
  | replayed outcome found => exact List.prefix_rfl
  | applied tables outcome absent result =>
      rcases settleCommit_catalog c (c.commit call tables outcome) answers.commit outcome with unchanged | committed
      · rw [unchanged]
      · rw [committed]
        exact List.prefix_append _ _

/-- A transaction of a found identity leaves the catalog as it is. -/
theorem transaction_found {old : Entry} (found : c.lookupOperation call.id = some old) :
    (transaction C disk answers c call).catalog = c := by
  have outcomes := outcomes_transaction C c disk answers call
  generalize Everett.Catalog.transaction C disk answers c call = settled at outcomes ⊢
  cases outcomes with
  | failed begun failure same => rw [settleFailure_catalog]
  | replayed outcome found => rfl
  | applied tables outcome absent result => cases absent.symm.trans found

/-- A recorded identity is never applied again. -/
theorem transaction_recorded {old : Entry} (performed : Performed C c) (member : old ∈ c.journal)
    (same : old.id = call.id) : (transaction C disk answers c call).catalog = c :=
  transaction_found (same ▸ performed.lookup member)

/-- A recorded call which is acknowledged is acknowledged with the recorded outcome. -/
theorem transaction_replay {old : Entry} {outcome : List UInt8} (performed : Performed C c)
    (member : old ∈ c.journal) (same : old.id = call.id)
    (acknowledged : (transaction C disk answers c call).answer = .ok outcome) :
    old = call.entry outcome := by
  have found := performed.lookup member
  have recorded := transaction_acknowledged acknowledged
  rw [transaction_recorded performed member same] at recorded
  have again := performed.lookup recorded
  rw [same] at found
  exact Option.some.inj (found.symm.trans again)

theorem transaction_clean : transaction C disk .clean c call =
    match transactionBody C disk .clean c call with
    | .error failure => settleFailure c .clean failure
    | .ok (.replayed outcome) => ⟨c, false, .ok outcome⟩
    | .ok (.applied tables outcome) => ⟨c.commit call tables outcome, false, .ok outcome⟩ := rfl

/-- With clean answers a recorded call is acknowledged. -/
theorem transaction_clean_replay {old : Entry} (performed : Performed C c)
    (member : old ∈ c.journal) (same : old = call.entry old.outcome) :
    transaction C disk .clean c call = ⟨c, false, .ok old.outcome⟩ := by
  have found := performed.lookup member
  have id : old.id = call.id := congrArg Entry.id same
  have kinds : old.kind = call.work.action.kind := congrArg Entry.kind same
  have requests : old.request = call.work.action.request := congrArg Entry.request same
  rw [id] at found
  have body : transactionBody C disk .clean c call = .ok (.replayed old.outcome) := by
    refine bind_eq_ok.mpr ⟨(), rfl, ?_⟩
    rw [found]
    refine bind_eq_ok.mpr ⟨(), require_true ⟨kinds, requests⟩, ?_⟩
    exact bind_eq_ok.mpr ⟨(), rfl, rfl⟩
  rw [transaction_clean, body]

variable (C disk) in
/-- With clean answers a call whose identity is new is applied, or throws what its apply step
throws. -/
theorem transaction_clean_new (absent : c.lookupOperation call.id = none) :
    transaction C disk .clean c call =
      match call.work.apply C disk c.tables with
      | .ok (tables, outcome) => ⟨c.commit call tables outcome, false, .ok outcome⟩
      | .error failure => settleFailure c .clean failure := by
  have body : transactionBody C disk .clean c call =
      match call.work.apply C disk c.tables with
      | .ok (tables, outcome) => .ok (.applied tables outcome)
      | .error failure => .error failure := by
    unfold transactionBody
    simp only [statement, Answers.clean, absent, ok_bind]
    cases call.work.apply C disk c.tables <;> rfl
  rw [transaction_clean, body]
  cases call.work.apply C disk c.tables <;> rfl

end Everett.Catalog

import Everett.Catalog.Run

/-!
# Exactly once

An operation identity is applied at most once, over every interleaving of handles, retries and
failing commits.  A handle which does not know what became of its commit does nothing more, and a
retry through another handle finds the one recorded outcome.
-/

namespace Everett.Catalog

open Outcome

variable {C : Context} {c : Database} {s : System} {disk : Disk} {answers : Answers} {call : Call}
  {handle : Nat} {event : Event}

/-! ## Poison -/

namespace System

theorem settle_error {result : Settled} {failure : Failure}
    (answer : result.answer = .error failure) :
    (s.settle handle call result).2 = .refused failure ∧
      ((s.settle handle call result).1.handles handle).poisoned =
        ((s.handles handle).poisoned || result.poisons) := by
  unfold settle
  rw [answer]
  exact ⟨rfl, congrArg Handle.poisoned (setHandle_self _)⟩

theorem settle_ok {result : Settled} {outcome : List UInt8} (answer : result.answer = .ok outcome) :
    (s.settle handle call result).2 = .acknowledged call outcome := by
  unfold settle
  rw [answer]

end System

/-! ## One call -/

/-- With clean answers a reused identity is rejected. -/
theorem transaction_clean_reused {old : Entry} (performed : Performed C c)
    (member : old ∈ c.journal) (id : old.id = call.id) (reused : old ≠ call.entry old.outcome) :
    (transaction C disk .clean c call).answer = .error (.exception reusedText) := by
  have found := performed.lookup member
  rw [id] at found
  have different : ¬ (old.kind = call.work.action.kind ∧ old.request = call.work.action.request) := by
    rintro ⟨kinds, requests⟩
    apply reused
    rw [Call.entry, ← id, ← kinds, ← requests]
  have body : transactionBody C disk .clean c call = .error (.exception reusedText) := by
    unfold transactionBody
    simp only [statement, Answers.clean, found, ok_bind, demands, require, different, if_false,
      error_bind]
  rw [transaction_clean, body]
  rfl

/-- A call of a recorded identity changes nothing, and is answered by its entry or rejected. -/
theorem transact_recorded {old : Entry} (performed : Performed C s.catalog)
    (ready : s.Ready handle call) (member : old ∈ s.catalog.journal) (id : old.id = call.id) :
    (s.step C (.transact handle disk answers)).1.catalog = s.catalog ∧
    (old = call.entry old.outcome →
      (∀ reply outcome, (s.step C (.transact handle disk answers)).2 = .acknowledged reply outcome →
        outcome = old.outcome) ∧
      (answers = .clean →
        (s.step C (.transact handle disk answers)).2 = .acknowledged call old.outcome)) ∧
    (old ≠ call.entry old.outcome →
      ∃ failure, (s.step C (.transact handle disk answers)).2 = .refused failure ∧
        (answers = .clean → failure = .exception reusedText)) := by
  rw [System.step_transact ready, System.settle_catalog]
  refine ⟨transaction_recorded performed member id, fun recorded => ⟨?_, ?_⟩, fun reused => ?_⟩
  · intro reply outcome acknowledged
    cases answer : (transaction C disk answers s.catalog call).answer with
    | ok result =>
        rw [System.settle_ok answer] at acknowledged
        cases acknowledged
        exact (congrArg Entry.outcome (transaction_replay performed member id answer)).symm
    | error failure =>
        rw [(System.settle_error answer).1] at acknowledged
        cases acknowledged
  · rintro rfl
    apply System.settle_ok
    rw [transaction_clean_replay performed member recorded]
  · cases answer : (transaction C disk answers s.catalog call).answer with
    | ok result =>
        have replay := transaction_replay performed member id answer
        exact absurd (replay.trans (by rw [replay]; rfl)) reused
    | error failure =>
        refine ⟨failure, (System.settle_error answer).1, ?_⟩
        rintro rfl
        rw [transaction_clean_reused performed member id reused] at answer
        exact (Except.error.inj answer).symm

/-- A call of a new identity is applied by clean answers, and leaves nothing when its apply step
throws. -/
theorem transact_new (disk : Disk) (ready : s.Ready handle call)
    (absent : s.catalog.lookupOperation call.id = none) :
    match call.work.apply C disk s.catalog.tables with
    | .error _ => ∀ answers,
        (s.step C (.transact handle disk answers)).1.catalog = s.catalog ∧
          ∃ thrown, (s.step C (.transact handle disk answers)).2 = .refused thrown
    | .ok (tables, outcome) =>
        (s.step C (.transact handle disk .clean)).1.catalog =
          s.catalog.commit call tables outcome ∧
        (s.step C (.transact handle disk .clean)).2 = .acknowledged call outcome := by
  cases applied : call.work.apply C disk s.catalog.tables with
  | ok result =>
      obtain ⟨tables, outcome⟩ := result
      have clean := transaction_clean_new C disk absent
      rw [applied] at clean
      dsimp only at clean ⊢
      rw [System.step_transact ready, System.settle_catalog, clean]
      exact ⟨rfl, System.settle_ok rfl⟩
  | error _ =>
      intro answers
      rw [System.step_transact ready, System.settle_catalog]
      have outcomes := outcomes_transaction C s.catalog disk answers call
      generalize transaction C disk answers s.catalog call = settled at outcomes ⊢
      cases outcomes with
      | failed begun thrown same =>
          obtain ⟨last, answer⟩ := settleFailure_answer (c := s.catalog) begun thrown
          exact ⟨settleFailure_catalog thrown, last, (System.settle_error answer).1⟩
      | replayed outcome found => cases absent.symm.trans found
      | applied tables outcome absent result => cases applied.symm.trans result

/-- An opener which opens nothing. -/
def Opener.closed : Opener where
  native := fun _ => .error (.exception "closed")
  linearIndex := fun _ => .error (.exception "closed")
  colaIndex := fun _ => .error (.exception "closed")
  scanLinear := fun _ _ => .error (.exception "closed")
  scanCola := fun _ _ => .error (.exception "closed")

/-- Named sessions over the smallest byte profiles. -/
def Context.small : Context := ⟨.bytes3, 4, .closed⟩

/-- The identity whose digits are all one. -/
def ObjectId.ones : ObjectId := ⟨List.replicate 32 49, by decide, by decide⟩

/-- The name of one letter. -/
def Text.letter (byte : UInt8) : Text := ⟨[byte], Nat.one_lt_two_pow (by decide)⟩

end Everett.Catalog

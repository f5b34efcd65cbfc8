import Everett.Catalog.Promise

/-!
# Sound calls

What a call checks before its transaction may be relied on when the transaction runs, as long as the
growth of the tables in between keeps it.
-/

namespace Everett.Catalog

open Outcome

variable {C : Context}

namespace System

variable {s : System} {event : Event}

/-- The catalog keeps an invariant, and every call which waits for its transaction was checked. -/
structure Sound (good : Tables → Work → Prop) (holds : Database → Prop) (s : System) : Prop where
  holds : holds s.catalog
  good : ∀ handle call, (s.handles handle).task = .ready call → good s.catalog.tables call.work

/-- The task of a handle after a step: as before, idle, settled, or a call which was prepared. -/
theorem step_ready {handle : Nat} {call : Call}
    (ready : ((s.step C event).1.handles handle).task = .ready call) :
    (s.handles handle).task = .ready call ∨
      ((s.step C event).1.catalog = s.catalog ∧ ∃ disk scope operation,
        prepare C disk s.catalog scope call.id operation = .ok (some call.work)) := by
  by_cases here : handle = event.handle
  · subst here
    have cases := step_cases C s event
    generalize s.step C event = result at cases ready ⊢
    cases cases with
    | unused | missed | found => exact .inl ready
    | refused failure =>
        simp only [refuse, setHandle_self] at ready
        cases ready
    | started handle id operation disk work active prepared =>
        simp only [Event.handle, setHandle_self] at ready
        cases ready
        exact .inr ⟨rfl, disk, _, operation, prepared⟩
    | returned =>
        simp only [Event.handle, setHandle_self] at ready
        cases ready
    | entered handle id active =>
        simp only [Event.handle, setHandle_self] at ready
        exact .inl ready
    | transacted handle disk answers other active =>
        simp only [Event.handle] at ready
        unfold settle at ready
        split at ready
        · simp only [setHandle_self] at ready
          cases ready
        · simp only [setHandle_self] at ready
          cases ready
  · rw [step_other here] at ready
    exact .inl ready

/-- Checks which the growth of the tables keeps hold when the transaction runs. -/
theorem sound_step {good : Tables → Work → Prop} {holds : Database → Prop}
    (checked : ∀ {disk c scope id operation work}, holds c →
      prepare C disk c scope id operation = .ok (some work) → good c.tables work)
    (grown : ∀ {t u work}, Grows t u → good t work → good u work)
    (commits : ∀ {c disk call tables outcome}, holds c → good c.tables call.work →
      c.lookupOperation call.id = none → call.work.apply C disk c.tables = .ok (tables, outcome) →
      holds (c.commit call tables outcome))
    (sound : s.Sound good holds) : (s.step C event).1.Sound good holds where
  holds := by
    rcases step_catalog C s event with same | ⟨handle, disk, answers, call, -, ready, changed⟩
    · rw [same]
      exact sound.holds
    · rw [changed]
      have outcomes := outcomes_transaction C s.catalog disk answers call
      generalize transaction C disk answers s.catalog call = settled at outcomes ⊢
      cases outcomes with
      | failed begun failure same =>
          rw [settleFailure_catalog]
          exact sound.holds
      | replayed outcome found => exact sound.holds
      | applied tables outcome absent result =>
          rcases settleCommit_catalog s.catalog (s.catalog.commit call tables outcome)
            answers.commit outcome with unchanged | committed
          · rw [unchanged]
            exact sound.holds
          · rw [committed]
            exact commits sound.holds (sound.good handle call ready.2) absent result
  good := by
    intro handle call ready
    rcases step_ready ready with before | ⟨same, disk, scope, operation, prepared⟩
    · exact grown grows_step (sound.good handle call before)
    · rw [same]
      exact checked sound.holds prepared

theorem sound_run (good : Tables → Work → Prop) (holds : Database → Prop)
    (empty : holds ⟨[], .empty⟩)
    (checked : ∀ {disk c scope id operation work}, holds c →
      prepare C disk c scope id operation = .ok (some work) → good c.tables work)
    (grown : ∀ {t u work}, Grows t u → good t work → good u work)
    (commits : ∀ {c disk call tables outcome}, holds c → good c.tables call.work →
      c.lookupOperation call.id = none → call.work.apply C disk c.tables = .ok (tables, outcome) →
      holds (c.commit call tables outcome))
    (events : List Event) : (System.created.run C events).1.Sound good holds := by
  apply run_invariant (Sound good holds) (fun _ _ => sound_step checked grown commits) ?_ events
  refine ⟨empty, fun handle call ready => ?_⟩
  cases ready

/-- What a transaction of a new call leads to: nothing, or its effect and one more entry. -/
theorem transact_fresh {handle : Nat} {call : Call} (disk : Disk) (answers : Answers)
    (ready : s.Ready handle call) (absent : s.catalog.lookupOperation call.id = none) :
    let next := s.step C (.transact handle disk answers)
    (next.1.catalog = s.catalog ∧ ∃ failure, next.2 = .refused failure) ∨
      ∃ tables outcome, call.work.apply C disk s.catalog.tables = .ok (tables, outcome) ∧
        next.1.catalog = s.catalog.commit call tables outcome ∧
        (next.2 = .acknowledged call outcome ∨ ∃ failure, next.2 = .refused failure) := by
  intro next
  have transacted : next = s.settle handle call (transaction C disk answers s.catalog call) :=
    step_transact ready
  have refused : ∀ {result : Settled} {failure : Failure}, result.answer = .error failure →
      (s.settle handle call result).2 = .refused failure := by
    intro result failure answer
    unfold settle
    rw [answer]
  rw [transacted, settle_catalog]
  have outcomes := outcomes_transaction C s.catalog disk answers call
  generalize transaction C disk answers s.catalog call = settled at outcomes ⊢
  cases outcomes with
  | failed begun failure same =>
      obtain ⟨thrown, answer⟩ := settleFailure_answer (c := s.catalog) begun failure
      exact .inl ⟨settleFailure_catalog failure, thrown, refused answer⟩
  | replayed outcome found => cases absent.symm.trans found
  | applied tables outcome _ result =>
      cases commit : answers.commit with
      | acknowledged => exact .inr ⟨tables, outcome, result, rfl, .inl rfl⟩
      | lost code => exact .inr ⟨tables, outcome, result, rfl, .inr ⟨_, refused rfl⟩⟩
      | refused code => exact .inl ⟨rfl, _, refused rfl⟩
      | skipped => exact .inl ⟨rfl, _, refused rfl⟩

end System

end Everett.Catalog

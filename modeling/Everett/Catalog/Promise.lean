import Everett.Catalog.Growth

/-!
# What an acknowledgement promises

A promise is made by the apply step of a transaction and kept while the tables grow.  It then holds
of every acknowledged call and of every call which returns, first or replayed, in every later state.
-/

namespace Everett.Catalog

open Outcome

variable {C : Context}

/-- The entries of a journal keep a promise: the action which an entry stands for is determined by
its request. -/
def Keeps (promise : Tables → Action → List UInt8 → Prop) (c : Database) : Prop :=
  ∀ entry ∈ c.journal, ∀ action : Action, action.kind = entry.kind →
    action.request = entry.request → promise c.tables action entry.outcome

/-- Invariants of the tables and promises of the journal, over calls one after the other. -/
theorem perform_promise (invariant : Tables → Prop)
    (promise : Tables → Action → List UInt8 → Prop)
    (preserved : ∀ {disk work t u outcome}, invariant t →
      Work.apply C disk work t = .ok (u, outcome) → invariant u)
    (made : ∀ {disk work t u outcome}, invariant t →
      Work.apply C disk work t = .ok (u, outcome) → promise u work.action outcome)
    (kept : ∀ {t u action outcome}, Grows t u → promise t action outcome →
      promise u action outcome)
    {calls : List (Disk × Call)} {c d : Database} (performed : perform C calls c = .ok d)
    (start : invariant c.tables) (keeps : Keeps promise c) :
    invariant d.tables ∧ Keeps promise d := by
  induction calls generalizing c with
  | nil =>
      cases performed
      exact ⟨start, keeps⟩
  | cons step calls induction =>
      obtain ⟨disk, call⟩ := step
      obtain ⟨⟨tables, outcome⟩, applied, rest⟩ := bind_eq_ok.mp performed
      apply induction rest (preserved start applied)
      intro entry member action kinds requests
      rcases List.mem_append.mp member with old | new
      · exact kept (Work.changes applied).grows (keeps entry old action kinds requests)
      · cases List.mem_singleton.mp new
        cases Action.request_injective kinds requests
        exact made start applied

/-- Invariants of the tables and promises of the journal, of every catalog which calls lead to. -/
theorem Performed.promise (invariant : Tables → Prop)
    (promise : Tables → Action → List UInt8 → Prop) (empty : invariant .empty)
    (preserved : ∀ {disk work t u outcome}, invariant t →
      Work.apply C disk work t = .ok (u, outcome) → invariant u)
    (made : ∀ {disk work t u outcome}, invariant t →
      Work.apply C disk work t = .ok (u, outcome) → promise u work.action outcome)
    (kept : ∀ {t u action outcome}, Grows t u → promise t action outcome →
      promise u action outcome) {c : Database} (performed : Performed C c) :
    invariant c.tables ∧ Keeps promise c := by
  obtain ⟨calls, performed, -⟩ := performed
  exact perform_promise invariant promise preserved made kept performed empty
    fun entry member => absurd member List.not_mem_nil

namespace System

variable {s : System} {event : Event}

/-- The outcomes which calls have still to return are in the journal. -/
def Recorded (s : System) : Prop :=
  ∀ handle action outcome, (s.handles handle).task = .settled action outcome →
    ∃ entry ∈ s.catalog.journal, action.kind = entry.kind ∧ action.request = entry.request ∧
      entry.outcome = outcome

theorem recorded_created : Recorded System.created := by
  intro handle action outcome task
  cases task

theorem recorded_step (recorded : s.Recorded) : (s.step C event).1.Recorded := by
  intro handle action outcome task
  have later : (∃ entry ∈ s.catalog.journal, action.kind = entry.kind ∧
      action.request = entry.request ∧ entry.outcome = outcome) →
      ∃ entry ∈ (s.step C event).1.catalog.journal, action.kind = entry.kind ∧
        action.request = entry.request ∧ entry.outcome = outcome := by
    rintro ⟨entry, member, rest⟩
    exact ⟨entry, journal_step.subset member, rest⟩
  by_cases here : handle = event.handle
  · subst here
    have cases := step_cases C s event
    generalize s.step C event = result at cases task later ⊢
    cases cases with
    | unused | missed | found => exact later (recorded _ action outcome task)
    | refused failure =>
        simp only [refuse, setHandle_self] at task
        cases task
    | started | returned =>
        simp only [Event.handle, setHandle_self] at task
        cases task
    | entered handle id active =>
        simp only [Event.handle, setHandle_self] at task
        exact later (recorded _ action outcome task)
    | transacted handle disk answers call ready =>
        simp only [Event.handle] at task
        unfold settle at task
        split at task
        · rename_i result answer
          simp only [setHandle_self] at task
          cases task
          have recorded := transaction_acknowledged answer
          refine ⟨call.entry outcome, ?_, rfl, rfl, rfl⟩
          rwa [settle_catalog]
        · simp only [setHandle_self] at task
          cases task
  · rw [step_other here] at task
    exact later (recorded handle action outcome task)

theorem recorded_run (events : List Event) : (System.created.run C events).1.Recorded :=
  run_invariant Recorded (fun _ _ => recorded_step) recorded_created events

/-- What holds of the finished outcomes of kept promises holds of every call which returns. -/
theorem returned_run (promise : Tables → Action → List UInt8 → Prop)
    (returns : Tables → Action → Value → Prop)
    (keeps : ∀ {c : Database}, Performed C c → Keeps promise c)
    (returned : ∀ {disk t action outcome value}, promise t action outcome →
      finish C disk t outcome action = .ok value → returns t action value)
    (kept : ∀ {t u action value}, Grows t u → returns t action value → returns u action value)
    (events : List Event) {action : Action} {value : Value}
    (member : .returned action value ∈ (System.created.run C events).2) :
    returns (System.created.run C events).1.catalog.tables action value := by
  have all := run_responses (C := C) (fun s => Performed C s.catalog ∧ s.Recorded)
    (fun s response => ∀ action value, response = .returned action value →
      returns s.catalog.tables action value)
    (fun s event both => ⟨performed_step both.1, recorded_step both.2⟩)
    (by
      intro s event both action value same
      have cases := step_cases C s event
      generalize s.step C event = result at cases same ⊢
      cases cases with
      | returned handle disk done outcome answer active settled finished =>
          cases same
          obtain ⟨entry, entry_mem, kinds, requests, rfl⟩ := both.2 handle _ _ settled
          exact returned (keeps both.1 entry entry_mem _ kinds requests) finished
      | transacted handle disk answers call ready =>
          unfold settle at same
          split at same <;> cases same
      | _ => cases same)
    (by
      intro s event response both before action value same
      exact kept grows_step (before action value same))
    ⟨performed_created, recorded_created⟩ events member
  exact all action value rfl

end System

end Everett.Catalog

import Everett.Catalog.Journal

/-!
# Runs of handles

What one step can do, and what therefore holds of every run.  Only the transaction of a ready call
changes the catalog.
-/

namespace Everett.Catalog

open Outcome

/-- The handle of a step. -/
def Event.handle : Event → Nat
  | .start handle .. => handle
  | .transact handle .. => handle
  | .finish handle .. => handle
  | .query handle .. => handle
  | .setPrivateScope handle .. => handle

namespace System

variable {C : Context} {s : System} {event : Event} {handle : Nat} {call : Call} {disk : Disk}
  {answers : Answers}

/-- A handle whose call has reached its transaction. -/
def Ready (s : System) (handle : Nat) (call : Call) : Prop :=
  (s.handles handle).poisoned = false ∧ (s.handles handle).task = .ready call

/-! ## Steps -/

@[simp]
theorem setHandle_catalog (value : Handle) : (s.setHandle handle value).catalog = s.catalog := rfl

@[simp]
theorem setHandle_self (value : Handle) : (s.setHandle handle value).handles handle = value :=
  if_pos rfl

theorem setHandle_other {other : Nat} (value : Handle) (different : other ≠ handle) :
    (s.setHandle handle value).handles other = s.handles other := if_neg different

@[simp]
theorem refuse_catalog (failure : Failure) : (s.refuse handle failure).1.catalog = s.catalog := rfl

@[simp]
theorem settle_catalog (result : Settled) :
    (s.settle handle call result).1.catalog = result.catalog := by
  unfold settle
  split <;> rfl

theorem step_transact (ready : s.Ready handle call) :
    s.step C (.transact handle disk answers) =
      s.settle handle call (transaction C disk answers s.catalog call) := by
  simp only [step, ready.1, ready.2]

/-- What a step can do. -/
inductive Step (C : Context) (s : System) : Event → System × Response → Prop
  | unused (event : Event) : Step C s event (s, .unused)
  | refused (event : Event) (failure : Failure) : Step C s event (s.refuse event.handle failure)
  | missed (handle : Nat) (id : Text) (operation : Operation) (disk : Disk)
      (prepared : prepare C disk s.catalog (s.handles handle).privateScope id operation = .ok none) :
      Step C s (.start handle id operation disk none) (s, .missed)
  | started (handle : Nat) (id : Text) (operation : Operation) (disk : Disk) (work : Work)
      (active : (s.handles handle).poisoned = false)
      (prepared : prepare C disk s.catalog (s.handles handle).privateScope id operation =
        .ok (some work)) :
      Step C s (.start handle id operation disk none)
        (s.setHandle handle { s.handles handle with task := .ready ⟨id, work⟩ },
          .prepared ⟨id, work⟩)
  | transacted (handle : Nat) (disk : Disk) (answers : Answers) (call : Call)
      (ready : s.Ready handle call) :
      Step C s (.transact handle disk answers)
        (s.settle handle call (transaction C disk answers s.catalog call))
  | returned (handle : Nat) (disk : Disk) (action : Action) (outcome : List UInt8) (value : Value)
      (active : (s.handles handle).poisoned = false)
      (settled : (s.handles handle).task = .settled action outcome)
      (finished : finish C disk s.catalog.tables outcome action = .ok value) :
      Step C s (.finish handle disk none)
        (s.setHandle handle { s.handles handle with task := .idle }, .returned action value)
  | found (handle : Nat) (query : Query) (disk : Disk) (value : Found)
      (answered : query.run C disk s.catalog = .ok value) :
      Step C s (.query handle query disk none) (s, .found value)
  | entered (handle : Nat) (id : ObjectId)
      (active : requirePrivateScope s.catalog.tables id = .ok ()) :
      Step C s (.setPrivateScope handle id none)
        (s.setHandle handle { s.handles handle with privateScope := some id }, .entered)

/-- A read which does not fail is no failed statement. -/
theorem statement_eq_ok {failure : Option Nat} {unit : Unit}
    (result : statement failure = .ok unit) : failure = none := by
  cases failure with
  | none => rfl
  | some code => cases result

theorem step_cases (C : Context) (s : System) (event : Event) : Step C s event (s.step C event) := by
  cases event with
  | start handle id operation disk failure =>
      simp only [step]
      split
      · exact .refused _ inactive
      · rename_i poison task
        unfold start
        split
        · rename_i failure _
          exact .refused _ failure
        · rename_i prepared
          obtain ⟨_, reads, prepared⟩ := bind_eq_ok.mp prepared
          cases statement_eq_ok reads
          exact .missed handle id operation disk prepared
        · rename_i work prepared
          obtain ⟨_, reads, prepared⟩ := bind_eq_ok.mp prepared
          cases statement_eq_ok reads
          exact .started handle id operation disk work poison prepared
      · exact .unused _
  | transact handle disk answers =>
      simp only [step]
      split
      · exact .refused _ inactive
      · rename_i call poison task
        exact .transacted handle disk answers call ⟨poison, task⟩
      · exact .unused _
  | finish handle disk failure =>
      simp only [step]
      split
      · exact .refused _ inactive
      · rename_i action outcome poison task
        unfold conclude
        split
        · rename_i failure _
          exact .refused _ failure
        · rename_i value finished
          obtain ⟨_, reads, finished⟩ := bind_eq_ok.mp finished
          cases statement_eq_ok reads
          exact .returned handle disk action outcome value poison task finished
      · exact .unused _
  | query handle query disk failure =>
      simp only [step]
      split
      · exact .refused _ inactive
      · split
        · rename_i failure _
          exact .refused _ failure
        · rename_i value answered
          obtain ⟨_, reads, answered⟩ := bind_eq_ok.mp answered
          cases statement_eq_ok reads
          exact .found handle query disk value answered
      · exact .unused _
  | setPrivateScope handle id failure =>
      simp only [step]
      split
      · exact .refused _ inactive
      · split
        · rename_i failure _
          exact .refused _ failure
        · rename_i active
          obtain ⟨_, -, active⟩ := bind_eq_ok.mp active
          obtain ⟨_, reads, active⟩ := bind_eq_ok.mp active
          cases statement_eq_ok reads
          exact .entered handle id active
      · exact .unused _

/-- A step of one handle leaves the others as they are. -/
theorem step_other {other : Nat} (different : other ≠ event.handle) :
    (s.step C event).1.handles other = s.handles other := by
  have cases := step_cases C s event
  generalize s.step C event = result at cases
  cases cases with
  | unused | missed | found => rfl
  | refused => exact setHandle_other _ different
  | started | returned | entered => exact setHandle_other _ different
  | transacted handle disk answers call ready =>
      unfold settle
      split
      · exact setHandle_other _ different
      · exact setHandle_other _ different

/-- Only the transaction of a ready call changes the catalog. -/
theorem step_catalog (C : Context) (s : System) (event : Event) :
    (s.step C event).1.catalog = s.catalog ∨
      ∃ handle disk answers call, event = .transact handle disk answers ∧ s.Ready handle call ∧
        (s.step C event).1.catalog = (transaction C disk answers s.catalog call).catalog := by
  have cases := step_cases C s event
  generalize s.step C event = result at cases
  cases cases with
  | transacted handle disk answers call ready =>
      exact .inr ⟨handle, disk, answers, call, rfl, ready, settle_catalog _⟩
  | _ => exact .inl rfl

/-! ## Runs -/

theorem run_nil : s.run C [] = (s, []) := rfl

theorem run_cons {rest : List Event} : s.run C (event :: rest) =
    (((s.step C event).1.run C rest).1, (s.step C event).2 :: ((s.step C event).1.run C rest).2) :=
  rfl

/-- What every step preserves holds after a run. -/
theorem run_invariant (holds : System → Prop) (step : ∀ s event, holds s →
    holds (s.step C event).1) {s : System} (start : holds s) (events : List Event) :
    holds (s.run C events).1 := by
  induction events generalizing s with
  | nil => exact start
  | cons event rest induction => exact induction (step s event start)

/-- What a step establishes of its response, and every later step preserves, holds after a run of
all of its responses. -/
theorem run_responses (holds : System → Prop) (promise : System → Response → Prop)
    (step : ∀ s event, holds s → holds (s.step C event).1)
    (establish : ∀ s event, holds s → promise (s.step C event).1 (s.step C event).2)
    (preserve : ∀ s event response, holds s → promise s response →
      promise (s.step C event).1 response)
    {s : System} (start : holds s) (events : List Event) {response : Response}
    (member : response ∈ (s.run C events).2) : promise (s.run C events).1 response := by
  induction events generalizing s with
  | nil => cases member
  | cons event rest induction =>
      have next := step s event start
      rw [run_cons] at member
      rcases List.mem_cons.mp member with rfl | later
      · have kept : holds ((s.step C event).1.run C rest).1 ∧
            promise ((s.step C event).1.run C rest).1 (s.step C event).2 :=
          run_invariant (fun s' => holds s' ∧ promise s' (s.step C event).2)
            (fun s' event' both => ⟨step s' event' both.1, preserve s' event' _ both.1 both.2⟩)
            ⟨next, establish s event start⟩ rest
        exact kept.2
      · exact induction next later

/-- The catalog after a step is what the calls of its journal make of an empty one. -/
theorem performed_step (performed : Performed C s.catalog) :
    Performed C (s.step C event).1.catalog := by
  rcases step_catalog C s event with same | ⟨handle, disk, answers, call, -, -, changed⟩
  · rwa [same]
  · rw [changed]
    exact performed.transaction

theorem performed_created : Performed C System.created.catalog :=
  ⟨[], rfl, List.nodup_nil⟩

theorem performed_run (events : List Event) :
    Performed C (System.created.run C events).1.catalog :=
  run_invariant (fun s => Performed C s.catalog) (fun _ _ => performed_step)
    performed_created events

/-- Entries stay in the journal. -/
theorem journal_step : s.catalog.journal <+: (s.step C event).1.catalog.journal := by
  rcases step_catalog C s event with same | ⟨handle, disk, answers, call, -, -, changed⟩
  · rw [same]
  · rw [changed]
    exact transaction_journal

/-- An acknowledgement comes from the transaction of a ready call. -/
theorem step_acknowledged {outcome : List UInt8}
    (acknowledged : (s.step C event).2 = .acknowledged call outcome) :
    ∃ handle disk answers, event = .transact handle disk answers ∧ s.Ready handle call ∧
      (transaction C disk answers s.catalog call).answer = .ok outcome ∧
      (s.step C event).1.catalog = (transaction C disk answers s.catalog call).catalog := by
  have cases := step_cases C s event
  generalize s.step C event = result at cases acknowledged ⊢
  cases cases with
  | transacted handle disk answers other ready =>
      have same : (s.settle handle other (transaction C disk answers s.catalog other)).1.catalog =
          (transaction C disk answers s.catalog other).catalog := settle_catalog _
      unfold settle at acknowledged
      split at acknowledged
      · rename_i answer
        cases acknowledged
        exact ⟨handle, disk, answers, rfl, ready, answer, same⟩
      · cases acknowledged
  | _ => cases acknowledged

/-- An acknowledged call is in the journal for good. -/
theorem acknowledged_run (events : List Event) {outcome : List UInt8}
    (member : .acknowledged call outcome ∈ (System.created.run C events).2) :
    call.entry outcome ∈ (System.created.run C events).1.catalog.journal := by
  have promise := run_responses (C := C) (fun _ => True)
    (fun s response => ∀ call outcome, response = .acknowledged call outcome →
      call.entry outcome ∈ s.catalog.journal)
    (fun _ _ _ => trivial)
    (by
      intro s event _ call outcome acknowledged
      obtain ⟨handle, disk, answers, -, -, answer, same⟩ := step_acknowledged acknowledged
      rw [same]
      exact transaction_acknowledged answer)
    (by
      intro s event response _ recorded call outcome acknowledged
      exact journal_step.subset (recorded call outcome acknowledged))
    trivial events member
  exact promise call outcome rfl

end System

end Everett.Catalog

import Everett.Object.Transfers

/-!
# Traces of one object

The order of the calls which seal an object, the stage which a trace acknowledges, and the handles
which it leaves open.
-/

namespace Everett.Object

open Traced FileDetail

variable (target : Target)

/-- The calls before the first write. -/
def openCalls : List Syscall := (openSteps target).map Step.request

/-- The calls after the last write. -/
def finishCalls : List Syscall := (finishSteps target).map Step.request

/-- The calls come in the order of the protocol, and the whole image is written before any call
which protects or installs it. -/
structure Ordered (image : List UInt8) (opened written finished : List Event) : Prop where
  opened_calls : opened.map Prod.fst <+: openCalls target
  opened_all : written ≠ [] ∨ finished ≠ [] → opened.map Prod.fst = openCalls target
  writes : ∀ event ∈ written, IsWrite event.1
  finished_calls : finished.map Prod.fst <+: finishCalls target
  content : finished ≠ [] → (File.blank.replay written).content = image

/-- The stage after an acknowledged call. -/
def noteStage (stage : Stage) : Event → Stage
  | (.createPrivate _ _, _) => .privateCreated
  | (.writeAt _ position, outcome) =>
      -- the last byte of the header
      if 0 < outcome.value ∧ position + outcome.value.toNat = headerBytes then .bodyWritten
      else stage
  | (.syncFile, _) => if stage = .bodyWritten then .contentSynced else stage
  | (.install _ _ _, _) => .nameInstalled
  | (.syncDirectory .root, _) => .namesSynced
  | (.removePrivate _ _, _) => .privateRemoved
  | (.close .root, _) => .complete
  | _ => stage

/-- The last acknowledged stage of a trace. -/
def stageOf (events : List Event) : Stage := events.foldl noteStage .starting

/-- A handle was opened. -/
def Opened (handle : Handle) (events : List Event) : Prop :=
  ∃ event ∈ events, Operation.opens event.1 = some handle ∧ 0 ≤ event.2.value

/-- How often a handle was closed. -/
def closings (handle : Handle) (events : List Event) : ℕ :=
  (events.map Prod.fst).count (.close handle)

variable {target}

/-! ## Scripts -/

/-- The marks of a script are the stages which its calls acknowledge. -/
def Agrees : Stage → List Step → Prop
  | _, [] => True
  | stage, step :: rest =>
      (∀ outcome, noteStage stage (step.request, outcome) = step.marks.getD stage) ∧
        Agrees (step.marks.getD stage) rest

theorem Completes.calls {steps : List Step} {first last : Operation} {events : List Event}
    (completes : Completes steps first events last) :
    events.map Prod.fst = steps.map Step.request := by
  induction completes with
  | nil => rfl
  | cons accepts more induction => rw [List.map_cons, List.map_cons, induction]

/-- The descriptors depend on the calls alone. -/
theorem after_fds {first second : Operation} (event : Event) (same : first.fds = second.fds) :
    (first.after event).fds = (second.after event).fds := by
  rcases event with ⟨request, outcome⟩
  unfold Operation.after Operation.returned Operation.issued
  cases request <;> simp [Operation.opens, same]

/-- The operation after some calls. -/
def Operation.replay (operation : Operation) (events : List Event) : Operation :=
  events.foldl (fun reached event => reached.after event) operation

theorem replay_fds {first second : Operation} (events : List Event)
    (same : first.fds = second.fds) :
    (first.replay events).fds = (second.replay events).fds := by
  induction events generalizing first second with
  | nil => exact same
  | cons event events induction => exact induction (after_fds event same)

theorem Completes.fds {steps : List Step} {first last : Operation} {events : List Event}
    (completes : Completes steps first events last) : last.fds = (first.replay events).fds := by
  induction completes with
  | nil => rfl
  | cons accepts more induction =>
      rw [induction]
      exact replay_fds _ rfl

theorem Completes.stage {steps : List Step} {first last : Operation} {events : List Event}
    (completes : Completes steps first events last) (agrees : Agrees first.stage steps) :
    last.stage = events.foldl noteStage first.stage := by
  induction completes with
  | nil => rfl
  | cons accepts more induction =>
      rw [List.foldl_cons, agrees.1]
      exact induction agrees.2

theorem Agrees.of_append {stage : Stage} {steps more : List Step}
    (agrees : Agrees stage (steps ++ more)) : Agrees stage steps := by
  induction steps generalizing stage with
  | nil => trivial
  | cons step steps induction => exact ⟨agrees.1, induction agrees.2⟩

theorem Completes.acknowledged {steps : List Step} {first last : Operation} {events : List Event}
    (completes : Completes steps first events last)
    (calls : ∀ step ∈ steps, ¬IsWrite step.request) : ∀ event ∈ events, Acknowledged event := by
  induction completes with
  | nil => exact fun event member => absurd member List.not_mem_nil
  | @cons step rest first last outcome events accepts more induction =>
      rw [List.forall_mem_cons] at calls ⊢
      refine ⟨?_, induction calls.2⟩
      have other := calls.1
      generalize step.request = request at accepts other ⊢
      cases request with
      | write bytes => exact absurd trivial other
      | writeAt bytes position => exact absurd trivial other
      | _ => exact accepts

theorem refused_call {request : Syscall} {outcome : SyscallResult} (call : ¬IsWrite request)
    (refuses : accepted request outcome = false) : ¬Acknowledged (request, outcome) := by
  cases request with
  | write bytes => exact absurd trivial call
  | writeAt bytes position => exact absurd trivial call
  | _ => simpa [Acknowledged] using refuses

theorem openSteps_calls (target : Target) : ∀ step ∈ openSteps target, ¬IsWrite step.request := by
  simp [openSteps, IsWrite]

theorem finishSteps_calls (target : Target) : ∀ step ∈ finishSteps target, ¬IsWrite step.request := by
  simp [finishSteps, IsWrite]

theorem openSteps_agree (target : Target) : Agrees .starting (openSteps target) := by
  simp [openSteps, Agrees, noteStage]

theorem finishSteps_agree (target : Target) : Agrees .bodyWritten (finishSteps target) := by
  simp [finishSteps, Agrees, noteStage]

/-! ## Handles -/

/-- Every handle is opened by one call, before any call which closes it. -/
def OpensOnce (calls : List Syscall) : Prop :=
  calls.Pairwise fun one two => ∀ handle,
    Operation.opens two = some handle → Operation.opens one ≠ some handle ∧ one ≠ .close handle

theorem after_handle (operation : Operation) (event : Event) (handle : Handle) :
    (operation.after event).fds handle =
      if Operation.opens event.1 = some handle then event.2.value
      else if event.1 = .close handle then -1 else operation.fds handle := by
  rcases event with ⟨request, outcome⟩
  unfold Operation.after Operation.returned Operation.issued
  cases request <;>
    simp [Operation.opens, Function.update_apply, eq_comm (a := handle)]

/-- A handle holds a descriptor after it was opened and until it is closed. -/
theorem open_handle {events : List Event} (once : OpensOnce (events.map Prod.fst))
    (handle : Handle) :
    0 ≤ (Operation.fresh.replay events).fds handle ↔
      Opened handle events ∧ .close handle ∉ events.map Prod.fst := by
  induction events using List.reverseRecOn with
  | nil => simp [Operation.replay, Operation.fresh, Opened]
  | append_singleton events event induction =>
      rw [List.map_append, OpensOnce, List.pairwise_append] at once
      have step : Operation.fresh.replay (events ++ [event]) =
          (Operation.fresh.replay events).after event := by
        rw [Operation.replay, List.foldl_append]
        rfl
      have opened : Opened handle (events ++ [event]) ↔ Opened handle events ∨
          Operation.opens event.1 = some handle ∧ 0 ≤ event.2.value := by
        simp [Opened, or_and_right, exists_or]
      rw [step, after_handle, opened, List.map_append, List.mem_append]
      by_cases opens : Operation.opens event.1 = some handle
      · -- nothing opened or closed the handle before
        have before := fun one member => once.2.2 one member event.1 (by simp) handle opens
        have unopened : ¬Opened handle events := by
          rintro ⟨one, member, same, -⟩
          exact (before one.1 (List.mem_map_of_mem member)).1 same
        have unclosed : .close handle ∉ events.map Prod.fst := fun member =>
          (before _ member).2 rfl
        have other : event.1 ≠ .close handle := by
          intro same
          rw [same] at opens
          cases opens
        simp [opens, unopened, unclosed, Ne.symm other]
      · by_cases closes : event.1 = .close handle
        · simp [closes, Operation.opens]
        · rw [if_neg opens, if_neg closes, induction once.1]
          simp [opens, Ne.symm closes]

theorem OpensOnce.sublist {calls more : List Syscall} (once : OpensOnce more)
    (part : calls.Sublist more) : OpensOnce calls :=
  List.Pairwise.sublist part once

section Order

variable {image : List UInt8} {opened written finished : List Event}

theorem writes_opens {request : Syscall} (write : IsWrite request) :
    Operation.opens request = none := by
  cases request with
  | write bytes => rfl
  | writeAt bytes position => rfl
  | _ => cases write

theorem openCalls_once : OpensOnce (openCalls target) := by
  simp [OpensOnce, openCalls, openSteps, Operation.opens]

theorem openCalls_close (handle : Handle) : .close handle ∉ openCalls target := by
  simp [openCalls, openSteps]

theorem finishCalls_opens : ∀ request ∈ finishCalls target, Operation.opens request = none := by
  simp [finishCalls, finishSteps, Operation.opens]

theorem Ordered.once (ordered : Ordered target image opened written finished) :
    OpensOnce ((opened ++ written ++ finished).map Prod.fst) := by
  have quiet : ∀ request ∈ written.map Prod.fst ++ finished.map Prod.fst,
      Operation.opens request = none := by
    intro request member
    rcases List.mem_append.mp member with inside | inside
    · obtain ⟨event, listed, rfl⟩ := List.mem_map.mp inside
      exact writes_opens (ordered.writes event listed)
    · exact finishCalls_opens request (ordered.finished_calls.subset inside)
  rw [List.map_append, List.map_append, List.append_assoc, OpensOnce, List.pairwise_append]
  refine ⟨openCalls_once.sublist ordered.opened_calls.sublist, ?_, ?_⟩
  · refine List.pairwise_of_forall_mem_list fun one _ two member handle opens => ?_
    rw [quiet two member] at opens
    cases opens
  · intro one _ two member handle opens
    rw [quiet two member] at opens
    cases opens

theorem finishCalls_closings (handle : Handle) :
    (finishCalls target).count (.close handle) = 1 := by
  cases handle <;> simp [finishCalls, finishSteps]

theorem Ordered.closings_le (ordered : Ordered target image opened written finished)
    (handle : Handle) : closings handle (opened ++ written ++ finished) ≤ 1 := by
  unfold closings
  rw [List.map_append, List.map_append, List.count_append, List.count_append]
  have first : (opened.map Prod.fst).count (.close handle) = 0 :=
    List.count_eq_zero.mpr fun member =>
      openCalls_close handle (ordered.opened_calls.subset member)
  have second : (written.map Prod.fst).count (.close handle) = 0 := by
    refine List.count_eq_zero.mpr fun member => ?_
    obtain ⟨event, listed, same⟩ := List.mem_map.mp member
    have write := ordered.writes event listed
    rw [same] at write
    exact write
  have third : (finished.map Prod.fst).count (.close handle) ≤ 1 :=
    (ordered.finished_calls.sublist.count_le _).trans (finishCalls_closings handle).le
  omega

end Order

end Everett.Object

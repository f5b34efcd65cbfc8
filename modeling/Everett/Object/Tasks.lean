import Everett.Object.Operation

/-!
# What the operations may leave behind

Straight sequences of calls follow scripts, and the write loops follow transfers.  Every event
before a failure was acknowledged, and the failing call is the last one.
-/

namespace Everett.Object

open Traced ByteFields

/-! ## Scripts -/

/-- One call of a script, with the stage which its acknowledgement reaches. -/
structure Step where
  request : Syscall
  what : String
  marks : Option Stage

namespace Operation

/-- The descriptors after a call, whatever it returned. -/
def after (event : Event) (operation : Operation) : Operation :=
  returned event.1 event.2 (issued event.1 operation)

/-- The operation after an acknowledged step. -/
def acknowledged (step : Step) (outcome : SyscallResult) (operation : Operation) : Operation :=
  let next := after (step.request, outcome) operation
  { next with stage := step.marks.getD operation.stage }

end Operation

/-- All calls of a script were made and accepted. -/
inductive Completes : List Step → Operation → List Event → Operation → Prop
  | nil {operation : Operation} : Completes [] operation [] operation
  | cons {step : Step} {rest : List Step} {operation last : Operation} {outcome : SyscallResult}
      {events : List Event} (accepts : accepted step.request outcome)
      (more : Completes rest (operation.acknowledged step outcome) events last) :
      Completes (step :: rest) operation ((step.request, outcome) :: events) last

variable (target : Target)

/-- The runs of a script: some calls are accepted, and the next one fails or has not returned. -/
def script (steps : List Step) : Task Syscall SyscallResult Operation Fault Unit where
  completes operation events _ last := Completes steps operation events last
  breaks operation events fault last := ∃ made step rest before outcome middle,
    steps = made ++ step :: rest ∧ Completes made operation before middle ∧
      accepted step.request outcome = false ∧ events = before ++ [(step.request, outcome)] ∧
      last = middle.after (step.request, outcome) ∧
      fault = failure target step.what outcome.errno middle
  waits operation events := ∃ made step rest middle, steps = made ++ step :: rest ∧
    Completes made operation events middle

variable {target}

theorem Completes.append {steps more : List Step} {first middle last : Operation}
    {events later : List Event} (one : Completes steps first events middle)
    (two : Completes more middle later last) :
    Completes (steps ++ more) first (events ++ later) last := by
  induction one with
  | nil => exact two
  | cons accepts _ induction => exact .cons accepts (induction two)

theorem after_stage (event : Event) (operation : Operation) :
    (operation.after event).stage = operation.stage := by
  rcases event with ⟨request, outcome⟩
  unfold Operation.after Operation.returned Operation.issued
  cases request <;> rfl

theorem failure_stage {what : String} {errno : Int} {first second : Operation}
    (same : first.stage = second.stage) :
    failure target what errno first = failure target what errno second := by
  unfold failure
  rw [same]

section Perform

variable {request : Syscall} {what : String} {operation : Operation} {outcome : SyscallResult}
  {outcomes : List SyscallResult}

theorem perform_accepted (accepts : accepted request outcome = true) :
    perform target request what operation (outcome :: outcomes) =
      ⟨[(request, outcome)], operation.after (request, outcome), some (.ok ()), outcomes⟩ := by
  unfold perform
  rw [bind_returned rfl, bind_returned rfl, bind_returned rfl, if_pos accepts]
  rfl

theorem perform_refused (refuses : accepted request outcome = false) :
    perform target request what operation (outcome :: outcomes) =
      ⟨[(request, outcome)], operation.after (request, outcome),
        some (.error (failure target what outcome.errno operation)), outcomes⟩ := by
  unfold perform
  rw [bind_returned rfl, bind_returned rfl, bind_returned rfl,
    if_neg (by simp [refuses]), ← failure_stage (after_stage (request, outcome) operation)]
  rfl

end Perform

theorem follows_perform (request : Syscall) (what : String) :
    Traced.Follows (perform target request what) (script target [⟨request, what, none⟩]) := by
  intro operation outcomes
  cases outcomes with
  | nil => exact ⟨[], ⟨request, what, none⟩, [], operation, rfl, .nil⟩
  | cons outcome outcomes =>
      cases accepts : accepted request outcome with
      | true =>
          rw [perform_accepted accepts]
          have completes : Completes [⟨request, what, none⟩] operation [(request, outcome)] _ :=
            .cons accepts .nil
          rw [show operation.acknowledged ⟨request, what, none⟩ outcome =
            operation.after (request, outcome) by
              unfold Operation.acknowledged
              rw [Option.getD_none, ← after_stage (request, outcome) operation]] at completes
          exact completes
      | false =>
          rw [perform_refused accepts]
          exact ⟨[], ⟨request, what, none⟩, [], [], outcome, operation, rfl, .nil, accepts, rfl,
            rfl, rfl⟩

/-- A call whose acknowledgement reaches a stage. -/
theorem follows_marked (request : Syscall) (what : String) (stage : Stage) :
    Traced.Follows (perform target request what >>= fun _ => reach stage)
      (script target [⟨request, what, some stage⟩]) := by
  intro operation outcomes
  cases outcomes with
  | nil =>
      rw [bind_waiting rfl]
      exact ⟨[], ⟨request, what, some stage⟩, [], operation, rfl, .nil⟩
  | cons outcome outcomes =>
      cases accepts : accepted request outcome with
      | true =>
          have returned : (perform target request what operation (outcome :: outcomes)).result =
              some (.ok ()) := by
            rw [perform_accepted accepts]
          rw [bind_returned returned, perform_accepted accepts]
          exact Completes.cons accepts Completes.nil
      | false =>
          have failed : (perform target request what operation (outcome :: outcomes)).result =
              some (.error (failure target what outcome.errno operation)) := by
            rw [perform_refused accepts]
          rw [bind_failed failed, perform_refused accepts]
          exact ⟨[], ⟨request, what, some stage⟩, [], [], outcome, operation, rfl, .nil, accepts,
            rfl, rfl, rfl⟩

/-- Scripts compose as programs do. -/
theorem follows_append {first : Program Unit} {next : Unit → Program Unit}
    {steps more : List Step} (one : Traced.Follows first (script target steps))
    (two : ∀ u, Traced.Follows (next u) (script target more)) :
    Traced.Follows (first >>= next) (script target (steps ++ more)) := by
  refine (one.bind two).mono ?_ ?_ ?_
  · rintro operation _ _ last ⟨before, later, _, middle, rfl, completes, follows⟩
    exact completes.append follows
  · rintro operation events fault last (breaks | ⟨before, later, _, middle, rfl, completes, breaks⟩)
    · obtain ⟨made, step, rest, before, outcome, middle, rfl, completes, refuses, rfl, rfl, rfl⟩ :=
        breaks
      exact ⟨made, step, rest ++ more, before, outcome, middle, by simp, completes, refuses, rfl,
        rfl, rfl⟩
    · obtain ⟨made, step, rest, early, outcome, inner, rfl, within, refuses, rfl, rfl, rfl⟩ := breaks
      exact ⟨steps ++ made, step, rest, before ++ early, outcome, inner, by simp,
        completes.append within, refuses, by simp, rfl, rfl⟩
  · rintro operation events (waits | ⟨before, later, _, middle, rfl, completes, waits⟩)
    · obtain ⟨made, step, rest, middle, rfl, completes⟩ := waits
      exact ⟨made, step, rest ++ more, middle, by simp, completes⟩
    · obtain ⟨made, step, rest, inner, rfl, within⟩ := waits
      exact ⟨steps ++ made, step, rest, inner, by simp, completes.append within⟩

/-- The next call of a script. -/
theorem follows_cons {first : Program Unit} {next : Unit → Program Unit} {step : Step}
    {more : List Step} (one : Traced.Follows first (script target [step]))
    (two : ∀ u, Traced.Follows (next u) (script target more)) :
    Traced.Follows (first >>= next) (script target (step :: more)) :=
  follows_append one two

/-- The next call of a script, with its stage. -/
theorem follows_cons_marked {request : Syscall} {what : String} {stage : Stage}
    {next : Program Unit} {more : List Step} (two : Traced.Follows next (script target more)) :
    Traced.Follows (perform target request what >>= fun _ => reach stage >>= fun _ => next)
      (script target (⟨request, what, some stage⟩ :: more)) := by
  rw [← bind_assoc]
  exact follows_cons (follows_marked request what stage) fun _ => two

/-- The calls of `operation::open`. -/
def openSteps (target : Target) : List Step :=
  [⟨.openRoot target.root, "open object root", none⟩,
    ⟨.makeDirectory .root target.firstName, "create object shard", none⟩,
    ⟨.openDirectory .root target.firstName .first, "open object shard", none⟩,
    ⟨.makeDirectory .first target.secondName, "create object shard", none⟩,
    ⟨.openDirectory .first target.secondName .leaf, "open object shard", none⟩,
    ⟨.createPrivate .leaf target.privateName, "create private object", some .privateCreated⟩]

theorem follows_openFiles (target : Target) : Traced.Follows (openFiles target) (script target (openSteps target)) := by
  unfold openFiles openShard
  rw [bind_assoc, bind_assoc]
  refine follows_cons (follows_perform _ _) fun _ => ?_
  refine follows_cons (follows_perform _ _) fun _ => ?_
  refine follows_cons (follows_perform _ _) fun _ => ?_
  refine follows_cons (follows_perform _ _) fun _ => ?_
  refine follows_cons (follows_perform _ _) fun _ => ?_
  exact follows_marked _ _ _

/-- The calls of `operation::finish`. -/
def finishSteps (target : Target) : List Step :=
  [⟨.makeReadOnly, "protect object", none⟩,
    ⟨.syncFile, "sync object contents", some .contentSynced⟩,
    ⟨.install .leaf target.privateName target.finalName, "install object without replacement",
      some .nameInstalled⟩,
    ⟨.syncDirectory .leaf, "sync object directory", none⟩,
    ⟨.syncDirectory .first, "sync object directory", none⟩,
    ⟨.syncDirectory .root, "sync object directory", some .namesSynced⟩,
    ⟨.removePrivate .leaf target.privateName, "remove private object name",
      some .privateRemoved⟩,
    ⟨.syncDirectory .leaf, "sync private name removal", none⟩,
    ⟨.syncFile, "sync installed object", none⟩,
    ⟨.close .object, "close sealed object handles", none⟩,
    ⟨.close .leaf, "close sealed object handles", none⟩,
    ⟨.close .first, "close sealed object handles", none⟩,
    ⟨.close .root, "close sealed object handles", some .complete⟩]

theorem follows_finish (target : Target) : Traced.Follows (finish target) (script target (finishSteps target)) := by
  unfold finish
  refine follows_cons (follows_perform _ _) fun _ => ?_
  refine follows_cons_marked ?_
  refine follows_cons_marked ?_
  refine follows_cons (follows_perform _ _) fun _ => ?_
  refine follows_cons (follows_perform _ _) fun _ => ?_
  refine follows_cons_marked ?_
  refine follows_cons_marked ?_
  refine follows_cons (follows_perform _ _) fun _ => ?_
  refine follows_cons (follows_perform _ _) fun _ => ?_
  refine follows_cons (follows_perform _ _) fun _ => ?_
  refine follows_cons (follows_perform _ _) fun _ => ?_
  refine follows_cons (follows_perform _ _) fun _ => ?_
  exact follows_marked _ _ _

end Everett.Object

import Mathlib.Tactic

/-!
# Programs over calls with arbitrary outcomes

A program issues calls and consumes one outcome for each of them.  Its run keeps the calls with
their outcomes; it is unfinished when the outcomes end before the program.  A `Task` says which
events a program may leave behind when it returns, fails or waits, and tasks compose as programs do.
-/

namespace Everett

universe u

/-- A run of a program: its events, its last state, and its result unless it still waits. -/
structure Ran (C O σ ε : Type) (α : Type u) where
  events : List (C × O)
  state : σ
  result : Option (Except ε α)
  /-- Outcomes which were not consumed. -/
  rest : List O

/-- A program with state `σ` which issues calls `C` with outcomes `O`. -/
def Traced (C O σ ε : Type) (α : Type u) := σ → List O → Ran C O σ ε α

namespace Traced

variable {C O σ ε : Type} {α β : Type}

instance : Monad (Traced C O σ ε) where
  pure a := fun state outcomes => ⟨[], state, some (.ok a), outcomes⟩
  bind program next := fun state outcomes =>
    let first := program state outcomes
    match first.result with
    | none => { first with result := none }
    | some (.error failure) => { first with result := some (.error failure) }
    | some (.ok a) =>
        let second := next a first.state first.rest
        { second with events := first.events ++ second.events }

/-- Stop with a failure. -/
def fail (failure : ε) : Traced C O σ ε α :=
  fun state outcomes => ⟨[], state, some (.error failure), outcomes⟩

/-- The current state. -/
def read : Traced C O σ ε σ :=
  fun state outcomes => ⟨[], state, some (.ok state), outcomes⟩

/-- Change the state. -/
def update (f : σ → σ) : Traced C O σ ε Unit :=
  fun state outcomes => ⟨[], f state, some (.ok ()), outcomes⟩

/-- Issue a call and wait for its outcome. -/
def issue (request : C) : Traced C O σ ε O := fun state outcomes =>
  match outcomes with
  | [] => ⟨[], state, none, []⟩
  | outcome :: rest => ⟨[(request, outcome)], state, some (.ok outcome), rest⟩

/-- Run a handler after a failure, and fail again. -/
def onFailure (handler : Traced C O σ ε Unit) (program : Traced C O σ ε α) :
    Traced C O σ ε α := fun state outcomes =>
  let first := program state outcomes
  match first.result with
  | some (.error failure) =>
      let second := handler first.state first.rest
      { events := first.events ++ second.events
        state := second.state
        result := second.result.map fun _ => .error failure
        rest := second.rest }
  | _ => first

section Equations

variable {program : Traced C O σ ε α} {next : α → Traced C O σ ε β} {state : σ} {outcomes : List O}

theorem bind_waiting (waiting : (program state outcomes).result = none) :
    (program >>= next) state outcomes =
      ⟨(program state outcomes).events, (program state outcomes).state, none,
        (program state outcomes).rest⟩ := by
  change (match (program state outcomes).result with
    | none => _
    | some (.error failure) => _
    | some (.ok a) => _ : Ran C O σ ε β) = _
  rw [waiting]

theorem bind_failed {failure : ε}
    (failed : (program state outcomes).result = some (.error failure)) :
    (program >>= next) state outcomes =
      ⟨(program state outcomes).events, (program state outcomes).state, some (.error failure),
        (program state outcomes).rest⟩ := by
  change (match (program state outcomes).result with
    | none => _
    | some (.error failure) => _
    | some (.ok a) => _ : Ran C O σ ε β) = _
  rw [failed]

theorem bind_returned {a : α} (returned : (program state outcomes).result = some (.ok a)) :
    (program >>= next) state outcomes =
      { next a (program state outcomes).state (program state outcomes).rest with
        events := (program state outcomes).events ++
          (next a (program state outcomes).state (program state outcomes).rest).events } := by
  change (match (program state outcomes).result with
    | none => _
    | some (.error failure) => _
    | some (.ok a) => _ : Ran C O σ ε β) = _
  rw [returned]

theorem onFailure_waiting {handler : Traced C O σ ε Unit}
    (waiting : (program state outcomes).result = none) :
    onFailure handler program state outcomes = program state outcomes := by
  unfold onFailure
  simp only [waiting]

theorem onFailure_returned {handler : Traced C O σ ε Unit} {a : α}
    (returned : (program state outcomes).result = some (.ok a)) :
    onFailure handler program state outcomes = program state outcomes := by
  unfold onFailure
  simp only [returned]

theorem onFailure_failed {handler : Traced C O σ ε Unit} {failure : ε}
    (failed : (program state outcomes).result = some (.error failure)) :
    onFailure handler program state outcomes =
      { events := (program state outcomes).events ++
          (handler (program state outcomes).state (program state outcomes).rest).events
        state := (handler (program state outcomes).state (program state outcomes).rest).state
        result := (handler (program state outcomes).state (program state outcomes).rest).result.map
          fun _ => .error failure
        rest := (handler (program state outcomes).state (program state outcomes).rest).rest } := by
  unfold onFailure
  simp only [failed]

theorem read_bind {next : σ → Traced C O σ ε β} :
    (read >>= next) state outcomes = next state state outcomes := rfl

/-- Brackets of sequences do not matter. -/
theorem bind_assoc {γ : Type} (program : Traced C O σ ε α) (next : α → Traced C O σ ε β)
    (last : β → Traced C O σ ε γ) :
    (program >>= next) >>= last = program >>= fun a => next a >>= last := by
  funext state outcomes
  rcases result : (program state outcomes).result with _ | (failure | a)
  · have first : ((program >>= next) state outcomes).result = none := by rw [bind_waiting result]
    rw [bind_waiting first, bind_waiting result, bind_waiting result]
  · have first : ((program >>= next) state outcomes).result = some (.error failure) := by
      rw [bind_failed result]
    rw [bind_failed first, bind_failed result, bind_failed result]
  · rw [bind_returned result]
    rcases second : (next a (program state outcomes).state (program state outcomes).rest).result
      with _ | (failure | b)
    · have first : ((program >>= next) state outcomes).result = none := by
        rw [bind_returned result]
        exact second
      rw [bind_waiting first, bind_waiting second, bind_returned result]
    · have first : ((program >>= next) state outcomes).result = some (.error failure) := by
        rw [bind_returned result]
        exact second
      rw [bind_failed first, bind_failed second, bind_returned result]
    · have first : ((program >>= next) state outcomes).result = some (.ok b) := by
        rw [bind_returned result]
        exact second
      rw [bind_returned first, bind_returned second, bind_returned result]
      simp only [List.append_assoc]

end Equations

/-- What a program may leave behind. -/
structure Task (C O σ ε : Type) (α : Type) where
  /-- Events, value and last state of a return. -/
  completes : σ → List (C × O) → α → σ → Prop
  /-- Events, failure and last state of a program which stops. -/
  breaks : σ → List (C × O) → ε → σ → Prop
  /-- Events of a program which waits for an outcome. -/
  waits : σ → List (C × O) → Prop

namespace Task

/-- A task which ends at once. -/
def done (a : α) : Task C O σ ε α where
  completes state events value after := events = [] ∧ value = a ∧ after = state
  breaks _ _ _ _ := False
  waits _ _ := False

/-- One task after another. -/
def andThen (first : Task C O σ ε α) (second : α → Task C O σ ε β) : Task C O σ ε β where
  completes state events value after := ∃ before later a middle, events = before ++ later ∧
    first.completes state before a middle ∧ (second a).completes middle later value after
  breaks state events failure after := first.breaks state events failure after ∨
    ∃ before later a middle, events = before ++ later ∧
      first.completes state before a middle ∧ (second a).breaks middle later failure after
  waits state events := first.waits state events ∨
    ∃ before later a middle, events = before ++ later ∧
      first.completes state before a middle ∧ (second a).waits middle later

/-- The run is one of the task. -/
def Allows (task : Task C O σ ε α) (state : σ) (ran : Ran C O σ ε α) : Prop :=
  match ran.result with
  | some (.ok a) => task.completes state ran.events a ran.state
  | some (.error failure) => task.breaks state ran.events failure ran.state
  | none => task.waits state ran.events

/-- A run of one task, read as a run of another one. -/
theorem Allows.imp {task more : Task C O σ ε α} {state other : σ} {ran : Ran C O σ ε α}
    (allowed : task.Allows state ran)
    (completes : ∀ events a after, task.completes state events a after →
      more.completes other events a after)
    (breaks : ∀ events failure after, task.breaks state events failure after →
      more.breaks other events failure after)
    (waits : ∀ events, task.waits state events → more.waits other events) :
    more.Allows other ran := by
  unfold Allows at allowed ⊢
  split at allowed
  · exact completes _ _ _ allowed
  · exact breaks _ _ _ allowed
  · exact waits _ allowed

/-- A further event in front of a run. -/
theorem Allows.cons {task more : Task C O σ ε α} {state : σ} {ran : Ran C O σ ε α}
    {event : C × O} (allowed : more.Allows state ran)
    (completes : ∀ events a after, more.completes state events a after →
      task.completes state (event :: events) a after)
    (breaks : ∀ events failure after, more.breaks state events failure after →
      task.breaks state (event :: events) failure after)
    (waits : ∀ events, more.waits state events → task.waits state (event :: events)) :
    task.Allows state { ran with events := event :: ran.events } := by
  unfold Allows at allowed ⊢
  dsimp only
  split at allowed
  · exact completes _ _ _ allowed
  · exact breaks _ _ _ allowed
  · exact waits _ allowed

end Task

/-- Every run of the program is one of the task. -/
def Follows (program : Traced C O σ ε α) (task : Task C O σ ε α) : Prop :=
  ∀ state outcomes, task.Allows state (program state outcomes)

theorem follows_pure (a : α) : Follows (pure a : Traced C O σ ε α) (Task.done a) :=
  fun _ _ => ⟨rfl, rfl, rfl⟩

theorem Follows.bind {program : Traced C O σ ε α} {next : α → Traced C O σ ε β}
    {first : Task C O σ ε α} {second : α → Task C O σ ε β} (one : Follows program first)
    (two : ∀ a, Follows (next a) (second a)) :
    Follows (program >>= next) (first.andThen second) := by
  intro state outcomes
  have head := one state outcomes
  unfold Task.Allows at head
  rcases result : (program state outcomes).result with _ | (failure | a)
  · rw [result] at head
    rw [bind_waiting result]
    exact .inl head
  · rw [result] at head
    rw [bind_failed result]
    exact .inl head
  · rw [result] at head
    rw [bind_returned result]
    have tail := two a (program state outcomes).state (program state outcomes).rest
    unfold Task.Allows at tail ⊢
    dsimp only
    rcases last : (next a (program state outcomes).state (program state outcomes).rest).result
      with _ | (failure | b)
    · rw [last] at tail
      exact .inr ⟨_, _, a, _, rfl, head, tail⟩
    · rw [last] at tail
      exact .inr ⟨_, _, a, _, rfl, head, tail⟩
    · rw [last] at tail
      exact ⟨_, _, a, _, rfl, head, tail⟩

/-- A program follows every task which allows more. -/
theorem Follows.mono {program : Traced C O σ ε α} {task more : Task C O σ ε α}
    (follows : Follows program task)
    (completes : ∀ state events a after, task.completes state events a after →
      more.completes state events a after)
    (breaks : ∀ state events failure after, task.breaks state events failure after →
      more.breaks state events failure after)
    (waits : ∀ state events, task.waits state events → more.waits state events) :
    Follows program more :=
  fun state outcomes =>
    (follows state outcomes).imp (completes state) (breaks state) (waits state)

/-! ## Outcomes of a run -/

/-- A program consumes the outcomes in their order, and waits only when there is none left. -/
def Consumes (program : Traced C O σ ε α) : Prop :=
  ∀ state outcomes,
    outcomes = (program state outcomes).events.map Prod.snd ++ (program state outcomes).rest ∧
      ((program state outcomes).result = none → (program state outcomes).rest = [])

theorem consumes_pure (a : α) : Consumes (pure a : Traced C O σ ε α) :=
  fun _ _ => ⟨rfl, nofun⟩

theorem consumes_fail (failure : ε) : Consumes (fail failure : Traced C O σ ε α) :=
  fun _ _ => ⟨rfl, nofun⟩

theorem consumes_read : Consumes (read : Traced C O σ ε σ) := fun _ _ => ⟨rfl, nofun⟩

theorem consumes_update (f : σ → σ) : Consumes (update f : Traced C O σ ε Unit) :=
  fun _ _ => ⟨rfl, nofun⟩

theorem consumes_issue (request : C) : Consumes (issue request : Traced C O σ ε O) := by
  intro state outcomes
  cases outcomes with
  | nil => exact ⟨rfl, fun _ => rfl⟩
  | cons outcome rest => exact ⟨rfl, nofun⟩

theorem Consumes.bind {program : Traced C O σ ε α} {next : α → Traced C O σ ε β}
    (one : Consumes program) (two : ∀ a, Consumes (next a)) : Consumes (program >>= next) := by
  intro state outcomes
  obtain ⟨split, waiting⟩ := one state outcomes
  rcases result : (program state outcomes).result with _ | (failure | a)
  · rw [bind_waiting result]
    exact ⟨split, fun _ => waiting result⟩
  · rw [bind_failed result]
    exact ⟨split, nofun⟩
  · rw [bind_returned result]
    obtain ⟨more, last⟩ := two a (program state outcomes).state (program state outcomes).rest
    refine ⟨?_, last⟩
    rw [List.map_append, List.append_assoc, ← more]
    exact split

theorem Consumes.onFailure {handler : Traced C O σ ε Unit} {program : Traced C O σ ε α}
    (one : Consumes program) (two : Consumes handler) :
    Consumes (Traced.onFailure handler program) := by
  intro state outcomes
  obtain ⟨split, waiting⟩ := one state outcomes
  unfold Traced.onFailure
  dsimp only
  split
  · obtain ⟨more, last⟩ := two (program state outcomes).state (program state outcomes).rest
    refine ⟨?_, fun none => last (Option.map_eq_none_iff.mp none)⟩
    rw [List.map_append, List.append_assoc, ← more]
    exact split
  · exact ⟨split, waiting⟩

end Traced

end Everett

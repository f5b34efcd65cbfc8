import Mathlib.Tactic

/-!
# Computations which keep their state on failure

A method of a mutable object may throw after it assigned some fields, and the object then keeps
these assignments.  `ExceptT ε (StateM σ)` has this meaning: an error comes with the state at the
throw.  A method which checks everything before its first assignment leaves no trace of a failed
call, and the rules below derive this from the order of its statements.
-/

namespace Everett.Methods

variable {ε σ α β : Type}

/-- A method of an object with state `σ`, whose assignments survive a later error. -/
abbrev Method (ε σ α : Type) := ExceptT ε (StateM σ) α

/-- Answer and next state of a method called in a state. -/
def call (method : Method ε σ α) (state : σ) : Except ε α × σ :=
  method.run.run state

/-- Stop with an error when the condition fails. -/
def require (condition : Prop) [Decidable condition] (error : ε) : Method ε σ Unit :=
  if condition then pure () else throw error

/-- A computation without access to the object, in the order of the method's statements. -/
def evaluate (value : Except ε α) : Method ε σ α :=
  match value with
  | .ok a => pure a
  | .error e => throw e

@[simp]
theorem call_pure (a : α) (state : σ) :
    call (pure a : Method ε σ α) state = (.ok a, state) := rfl

@[simp]
theorem call_throw (e : ε) (state : σ) :
    call (throw e : Method ε σ α) state = (.error e, state) := rfl

@[simp]
theorem call_get (state : σ) : call (get : Method ε σ σ) state = (.ok state, state) := rfl

@[simp]
theorem call_modify (f : σ → σ) (state : σ) :
    call (modify f : Method ε σ Unit) state = (.ok (), f state) := rfl

@[simp]
theorem call_evaluate (value : Except ε α) (state : σ) :
    call (evaluate value : Method ε σ α) state = (value, state) := by
  cases value <;> rfl

theorem call_bind (method : Method ε σ α) (next : α → Method ε σ β) (state : σ) :
    call (method >>= next) state =
      match call method state with
      | (.ok a, later) => call (next a) later
      | (.error e, later) => (.error e, later) := by
  change (ExceptT.bindCont next _ : StateM σ _) _ = _
  unfold call
  cases outcome : (ExceptT.run method).run state with
  | mk answer later =>
      change (ExceptT.bindCont next ((ExceptT.run method).run state).1).run
        ((ExceptT.run method).run state).2 = _
      rw [outcome]
      cases answer <;> rfl

theorem call_require (condition : Prop) [Decidable condition] (e : ε) (state : σ) :
    call (require condition e : Method ε σ Unit) state =
      (if condition then .ok () else .error e, state) := by
  unfold require
  split <;> rfl

/-- A sequence answers exactly when both parts do, the second one from the state of the first. -/
theorem bind_eq_ok {method : Method ε σ α} {next : α → Method ε σ β} {state after : σ} {b : β} :
    call (method >>= next) state = (.ok b, after) ↔
      ∃ a later, call method state = (.ok a, later) ∧ call (next a) later = (.ok b, after) := by
  rw [call_bind]
  rcases call method state with ⟨answer, later⟩
  cases answer <;> simp

theorem require_eq_ok {condition : Prop} [Decidable condition] {e : ε} {state after : σ} :
    call (require condition e : Method ε σ Unit) state = (.ok (), after) ↔
      condition ∧ after = state := by
  rw [call_require]
  split <;> simp_all [eq_comm]

@[simp]
theorem call_get_bind (next : σ → Method ε σ β) (state : σ) :
    call (get >>= next) state = call (next state) state := rfl

@[simp]
theorem call_modify_bind (f : σ → σ) (next : Unit → Method ε σ β) (state : σ) :
    call (modify f >>= next) state = call (next ()) (f state) := rfl

theorem require_bind_eq_ok {condition : Prop} [Decidable condition] {e : ε}
    {next : Unit → Method ε σ β} {state after : σ} {b : β} :
    call (require condition e >>= next) state = (.ok b, after) ↔
      condition ∧ call (next ()) state = (.ok b, after) := by
  rw [bind_eq_ok]
  constructor
  · rintro ⟨_, _, required, continued⟩
    obtain ⟨holds, same⟩ := Iff.mp require_eq_ok required
    exact ⟨holds, same ▸ continued⟩
  · rintro ⟨holds, continued⟩
    exact ⟨(), state, Iff.mpr require_eq_ok ⟨holds, rfl⟩, continued⟩

/-- The method leaves the state alone, whatever it answers. -/
def Reads (method : Method ε σ α) : Prop :=
  ∀ state, (call method state).2 = state

/-- The method never stops with an error. -/
def Returns (method : Method ε σ α) : Prop :=
  ∀ state, ∃ a, (call method state).1 = .ok a

/-- A call which stops with an error leaves the state as it was. -/
def Atomic (method : Method ε σ α) : Prop :=
  ∀ state e, (call method state).1 = .error e → (call method state).2 = state

theorem reads_pure (a : α) : Reads (pure a : Method ε σ α) := fun _ => rfl

theorem reads_throw (e : ε) : Reads (throw e : Method ε σ α) := fun _ => rfl

theorem reads_get : Reads (get : Method ε σ σ) := fun _ => rfl

theorem reads_evaluate (value : Except ε α) : Reads (evaluate value : Method ε σ α) := by
  intro state
  rw [call_evaluate]

theorem reads_require (condition : Prop) [Decidable condition] (e : ε) :
    Reads (require condition e : Method ε σ Unit) := by
  intro state
  rw [call_require]

theorem Reads.bind {method : Method ε σ α} {next : α → Method ε σ β} (first : Reads method)
    (second : ∀ a, Reads (next a)) : Reads (method >>= next) := by
  intro state
  rw [call_bind]
  have same := first state
  rcases outcome : call method state with ⟨answer, later⟩
  rw [outcome] at same
  cases answer with
  | error e => exact same
  | ok a => exact (second a later).trans same

theorem Reads.atomic {method : Method ε σ α} (reads : Reads method) : Atomic method :=
  fun state _ _ => reads state

theorem returns_pure (a : α) : Returns (pure a : Method ε σ α) := fun _ => ⟨a, rfl⟩

theorem returns_modify (f : σ → σ) : Returns (modify f : Method ε σ Unit) := fun _ => ⟨(), rfl⟩

theorem Returns.bind {method : Method ε σ α} {next : α → Method ε σ β} (first : Returns method)
    (second : ∀ a, Returns (next a)) : Returns (method >>= next) := by
  intro state
  rw [call_bind]
  obtain ⟨a, answers⟩ := first state
  rcases outcome : call method state with ⟨answer, later⟩
  rw [outcome] at answers
  cases answers
  exact second a later

theorem Reads.bind_eq_ok {method : Method ε σ α} {next : α → Method ε σ β} (reads : Reads method)
    {state after : σ} {b : β} :
    call (method >>= next) state = (.ok b, after) ↔
      ∃ a, call method state = (.ok a, state) ∧ call (next a) state = (.ok b, after) := by
  rw [Methods.bind_eq_ok]
  constructor
  · rintro ⟨a, later, answers, continued⟩
    have same := reads state
    rw [answers] at same
    cases same
    exact ⟨a, answers, continued⟩
  · rintro ⟨a, answers, continued⟩
    exact ⟨a, state, answers, continued⟩

theorem Returns.atomic {method : Method ε σ α} (returns : Returns method) : Atomic method := by
  intro state e failed
  obtain ⟨a, answers⟩ := returns state
  rw [answers] at failed
  cases failed

/-- Checks before the first assignment keep a method atomic. -/
theorem Reads.bind_atomic {method : Method ε σ α} {next : α → Method ε σ β}
    (first : Reads method) (second : ∀ a, Atomic (next a)) : Atomic (method >>= next) := by
  intro state e
  rw [call_bind]
  have same := first state
  rcases outcome : call method state with ⟨answer, later⟩
  rw [outcome] at same
  cases answer with
  | error fault => exact fun _ => same
  | ok a =>
      intro failed
      exact (second a later e failed).trans same

/-- Assignments after an atomic part, which cannot throw, keep the whole atomic. -/
theorem Atomic.bind_returns {method : Method ε σ α} {next : α → Method ε σ β}
    (first : Atomic method) (second : ∀ a, Returns (next a)) : Atomic (method >>= next) := by
  intro state e
  rw [call_bind]
  have kept := first state
  rcases outcome : call method state with ⟨answer, later⟩
  rw [outcome] at kept
  cases answer with
  | error fault => exact fun _ => kept fault rfl
  | ok a =>
      intro failed
      obtain ⟨b, answers⟩ := second a later
      rw [answers] at failed
      cases failed

theorem Atomic.ite {condition : Prop} [Decidable condition] {yes no : Method ε σ α}
    (first : Atomic yes) (second : Atomic no) : Atomic (if condition then yes else no) := by
  split
  · exact first
  · exact second

end Everett.Methods

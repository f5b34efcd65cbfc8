import Mathlib.Tactic

/-!
# Outcomes of fallible computations

A computation in `Except` is specified by what holds of its result and which errors it may raise.
The rules below compose such specifications along `bind`, guards and bounded loops.
-/

namespace Everett.Outcome

universe u v

variable {ε : Type u} {α β : Type v}

@[simp]
theorem ok_bind (a : α) (f : α → Except ε β) : (Except.ok a >>= f) = f a := rfl

@[simp]
theorem error_bind (e : ε) (f : α → Except ε β) :
    ((Except.error e : Except ε α) >>= f) = .error e := rfl

@[simp]
theorem pure_eq_ok (a : α) : (pure a : Except ε α) = .ok a := rfl

theorem bind_eq_ok {x : Except ε α} {f : α → Except ε β} {b : β} :
    (x >>= f) = .ok b ↔ ∃ a, x = .ok a ∧ f a = .ok b := by
  cases x <;> simp

/-- Succeed when the condition holds and raise the error otherwise. -/
def require (condition : Prop) [Decidable condition] (error : ε) : Except ε PUnit.{v + 1} :=
  if condition then .ok ⟨⟩ else .error error

theorem require_true {condition : Prop} [Decidable condition] {error : ε} (holds : condition) :
    require.{u, v} condition error = .ok ⟨⟩ := if_pos holds

theorem require_eq_ok {condition : Prop} [Decidable condition] {error : ε} {unit : PUnit.{v + 1}} :
    require condition error = .ok unit ↔ condition := by
  unfold require
  split <;> simp_all

/-- The value of an option, or an error in its absence. -/
def demand (value : Option α) (error : ε) : Except ε α :=
  match value with
  | some a => .ok a
  | none => .error error

@[simp]
theorem demand_some (a : α) (error : ε) : demand (some a) error = .ok a := rfl

@[simp]
theorem demand_none (error : ε) : demand (none : Option α) error = .error error := rfl

theorem demand_eq_ok {value : Option α} {error : ε} {a : α} :
    demand value error = .ok a ↔ value = some a := by
  cases value <;> simp

theorem map_eq_ok {x : Except ε α} {f : α → β} {b : β} :
    f <$> x = .ok b ↔ ∃ a, x = .ok a ∧ f a = b := by
  cases x <;> simp

/-- Map a list by a computation which raises no error on it. -/
theorem mapM_ok {list : List α} {f : α → Except ε β} {g : α → β}
    (each : ∀ a ∈ list, f a = .ok (g a)) : list.mapM f = .ok (list.map g) := by
  induction list with
  | nil => rfl
  | cons a rest induction =>
      rw [List.mapM_cons, each a List.mem_cons_self, ok_bind,
        induction fun b member => each b (List.mem_cons_of_mem a member)]
      rfl

/-- Every result satisfies `holds` and every error satisfies `fails`. -/
def Ensures (fails : ε → Prop) (x : Except ε α) (holds : α → Prop) : Prop :=
  match x with
  | .ok a => holds a
  | .error e => fails e

namespace Ensures

variable {fails : ε → Prop}

@[simp]
theorem ok_iff {a : α} {holds : α → Prop} : Ensures fails (.ok a) holds ↔ holds a := Iff.rfl

@[simp]
theorem error_iff {e : ε} {holds : α → Prop} :
    Ensures fails (.error e : Except ε α) holds ↔ fails e := Iff.rfl

theorem mono {x : Except ε α} {strong weak : α → Prop} (spec : Ensures fails x strong)
    (weaken : ∀ a, strong a → weak a) : Ensures fails x weak := by
  cases x with
  | ok a => exact weaken a spec
  | error e => exact spec

theorem bind {x : Except ε α} {f : α → Except ε β} {middle : α → Prop} {holds : β → Prop}
    (first : Ensures fails x middle) (second : ∀ a, middle a → Ensures fails (f a) holds) :
    Ensures fails (x >>= f) holds := by
  cases x with
  | ok a => exact second a first
  | error e => exact first

theorem require {condition : Prop} [Decidable condition] {error : ε}
    (otherwise : ¬ condition → fails error) :
    Ensures fails (Outcome.require condition error) fun _ => condition := by
  unfold Outcome.require
  split
  · assumption
  · exact otherwise ‹_›

/-- A computation which raises no error has a result with the promised property. -/
theorem exists_ok {x : Except ε α} {holds : α → Prop} (spec : Ensures (fun _ => False) x holds) :
    ∃ a, x = .ok a ∧ holds a := by
  cases x with
  | ok a => exact ⟨a, rfl, spec⟩
  | error e => exact spec.elim

theorem of_ok {x : Except ε α} {a : α} {holds : α → Prop} (spec : Ensures fails x holds)
    (result : x = .ok a) : holds a := by
  subst result
  exact spec

end Ensures

end Everett.Outcome

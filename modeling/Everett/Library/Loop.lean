import Everett.Library.Outcome

/-!
# Loops

A loop runs its body until the body yields a result.  An invariant and a measure which falls with
every round give the result of a loop with enough rounds.
-/

namespace Everett.Loop

open Outcome

variable {ε σ ρ : Type}

/-- Run a body from a state until it yields a result, for a number of rounds at most. -/
def run (endless : ε) (body : σ → Except ε (σ ⊕ ρ)) : ℕ → σ → Except ε ρ
  | 0, _ => .error endless
  | rounds + 1, state => do
      match ← body state with
      | .inl next => run endless body rounds next
      | .inr result => .ok result

/-- A round under an invariant goes on with a smaller measure, or yields a proper result. -/
def Advances (body : σ → Except ε (σ ⊕ ρ)) (invariant : σ → Prop) (measure : σ → ℕ)
    (proper : ρ → Prop) : Prop :=
  ∀ state, invariant state →
    (∃ next, body state = .ok (.inl next) ∧ invariant next ∧ measure next < measure state) ∨
    ∃ result, body state = .ok (.inr result) ∧ proper result

theorem Advances.run_ok {body : σ → Except ε (σ ⊕ ρ)} {invariant : σ → Prop} {measure : σ → ℕ}
    {proper : ρ → Prop} (advances : Advances body invariant measure proper) (endless : ε)
    (rounds : ℕ) (state : σ) (holds : invariant state) (enough : measure state < rounds) :
    ∃ result, run endless body rounds state = .ok result ∧ proper result := by
  induction rounds generalizing state with
  | zero => exact absurd enough (Nat.not_lt_zero _)
  | succ rounds induction =>
      rw [run]
      obtain ⟨next, continued, kept, less⟩ | ⟨result, ended, correct⟩ := advances state holds
      · rw [continued, ok_bind]
        exact induction next kept (by omega)
      · rw [ended, ok_bind]
        exact ⟨result, rfl, correct⟩

end Everett.Loop

import Everett.Session.Protocol

/-!
# Closing a session

A closed session is never stuck before its worker ends, and whatever happens in it, other than the
engine putting a claim off, brings the end nearer.
-/

namespace Everett

open Session

variable {W X : Type} {s t : Session W X} {id : Nat}

/-- Bound on the steps which a request can still cause. -/
def RequestPhase.weight : RequestPhase → Nat
  | .constructing => 7
  | .constructed => 6
  | .queued => 5
  | .claimed => 2
  | .refunding | .cancelling | .abandoned => 1
  | .resolved | .dropped => 0

/-- Bound on the steps of the worker until its next claim. -/
def SessionWorker.rank : SessionWorker W X → Nat
  | .maintaining => 6
  | .executing _ | .maintained => 5
  | .deciding _ | .producing _ _ | .declining _ _ => 4
  | .waiting _ _ | .settling _ _ _ | .rejecting _ _ _ => 3
  | .failing _ _ => 2
  | .abandoning _ _ => 1
  | .finished => 0

/-- Weight of all requests. -/
def weights (made : Nat) (phase : Nat → RequestPhase) : Nat :=
  ∑ id ∈ Finset.range made, (phase id).weight

/-- What is left to do in a session which admits nothing more. -/
def Session.load (s : Session W X) : Nat := weights s.made s.phases + s.worker.rank

namespace Session

@[simp] theorem goto_worker (worker : SessionWorker W X) : (s.goto worker).worker = worker := rfl

/-- Outside the queue and the hands of the worker, a request which holds a charge can move on. -/
theorem service_of_held (inv : s.Inv) (positive : s.count ≠ 0) (empty : s.queue = [])
    (idle : s.worker.active = none) (nothing : s.worker.remaining = []) :
    ∃ t, ServiceStep s t := by
  rw [inv.accounts.count, held] at positive
  obtain ⟨id, member, holding⟩ := Finset.exists_ne_zero_of_sum_ne_zero positive
  have within := Finset.mem_range.mp member
  have not_queued := (inv.located.queued id).not.mp (by rw [empty]; exact List.not_mem_nil)
  have not_claimed := (inv.located.claimed id).not.mp (by rw [idle]; exact Option.not_mem_none _)
  have not_abandoned := (inv.located.abandoned id).not.mp (by
    rw [nothing]; exact List.not_mem_nil)
  cases phase : (s.requests id).phase with
  | constructing => exact ⟨_, .construct false ⟨within, phase⟩⟩
  | constructed => exact ⟨_, .push ⟨within, phase⟩⟩
  | refunding => exact ⟨_, .refund ⟨within, phase⟩⟩
  | cancelling => exact ⟨_, .cancelled ⟨within, phase⟩⟩
  | queued => exact absurd ⟨within, phase⟩ not_queued
  | claimed => exact absurd ⟨within, phase⟩ not_claimed
  | abandoned => exact absurd ⟨within, phase⟩ not_abandoned
  | resolved => simp [phase, RequestPhase.holds] at holding
  | dropped => simp [phase, RequestPhase.holds] at holding

/-- A closed session is not stuck before its worker ends. -/
theorem Inv.progress (inv : s.Inv) (closed : s.closing = true) (unfinished : s.worker ≠ .finished) :
    ∃ t, ServiceStep s t := by
  match here : s.worker with
  | .deciding pending => exact ⟨_, .decide (.ok true) here⟩
  | .waiting pending ready =>
      by_cases wakes : s.wakes pending = true
      · exact ⟨_, .claim here wakes⟩
      · have asleep : s.queue = [] ∧ s.count ≠ 0 := by
          simpa [Session.wakes, closed] using wakes
        exact service_of_held inv asleep.2 asleep.1 (by rw [here]; rfl) (by rw [here]; rfl)
  | .executing id => exact ⟨_, .contribute (.ok s.current.world) false here⟩
  | .producing id world => exact ⟨_, .produce (.ok false) here⟩
  | .settling id publication pending => exact ⟨_, .settle here⟩
  | .declining id error => exact ⟨_, .decline (.ok false) here⟩
  | .rejecting id error pending => exact ⟨_, .reject here⟩
  | .maintaining => exact ⟨_, .advance (.ok none) here⟩
  | .maintained => exact ⟨_, .maintain (.ok false) here⟩
  | .failing active error => exact ⟨_, .fail here⟩
  | .abandoning (id :: rest) error => exact ⟨_, .abandon here⟩
  | .abandoning [] error =>
      by_cases settled : s.count = 0
      · exact ⟨_, .drained here settled⟩
      · have failed := inv.ended.abandoning _ _ here
        have empty := inv.ended.queue (by rw [failed]; rfl)
        exact service_of_held inv settled empty (by rw [here]; rfl) (by rw [here]; rfl)
  | .finished => exact absurd here unfinished

end Session

end Everett

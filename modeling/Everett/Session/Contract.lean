import Everett.Session.Drain

/-!
# What clients of a session rely on

What a session has accepted, executed, published or told a ticket it never takes back.  With the
invariant and the way a closed session ends this gives the contract of its tickets.
-/

namespace Everett

open Session

variable {W X : Type} {s t u : Session W X} {id : Nat}

namespace Session

/-- Nothing was taken back between two states. -/
structure Extends (s t : Session W X) : Prop where
  limits : t.limits = s.limits
  made : s.made ≤ t.made
  accepted : s.accepted <+: t.accepted
  executed : s.executed <+: t.executed
  published : s.published <:+ t.published
  outcomes : ∀ id < s.made, s.outcomes id <+: t.outcomes id

theorem Extends.refl (s : Session W X) : Extends s s :=
  ⟨rfl, Nat.le_refl _, List.prefix_rfl, List.prefix_rfl, List.suffix_rfl, fun _ _ => List.prefix_rfl⟩

theorem Extends.trans (first : Extends s t) (second : Extends t u) : Extends s u where
  limits := second.limits.trans first.limits
  made := Nat.le_trans first.made second.made
  accepted := first.accepted.trans second.accepted
  executed := first.executed.trans second.executed
  published := first.published.trans second.published
  outcomes id within :=
    (first.outcomes id within).trans (second.outcomes id (Nat.lt_of_lt_of_le within first.made))

/-- The worker or a client moves on, and tells nobody. -/
theorem Extends.silent (limits : t.limits = s.limits) (made : t.made = s.made)
    (accepted : s.accepted <+: t.accepted) (executed : s.executed <+: t.executed)
    (published : s.published <:+ t.published) (outcomes : t.outcomes = s.outcomes) :
    Extends s t :=
  ⟨limits, made.ge, accepted, executed, published, fun _ _ => by rw [outcomes]⟩

theorem Extends.goto (worker : SessionWorker W X) : Extends s (s.goto worker) :=
  .silent rfl rfl List.prefix_rfl List.prefix_rfl List.suffix_rfl rfl

theorem Extends.move (phase : RequestPhase) : Extends s (s.move id phase) :=
  .silent rfl rfl List.prefix_rfl List.prefix_rfl List.suffix_rfl (outcomes_move phase)

theorem Extends.store (entry : Option Nat) (publication : SessionPublication W)
    (worker : SessionWorker W X) : Extends s ((s.store entry publication).goto worker) :=
  .silent rfl rfl List.prefix_rfl List.prefix_rfl (List.suffix_cons _ _) rfl

/-- A ticket is told something. -/
theorem Extends.conclude (outcome : TicketOutcome W X) (charge : SessionReservation)
    (worker : SessionWorker W X) :
    Extends s (((s.resolve id outcome).unreserve charge).goto worker) := by
  refine ⟨rfl, Nat.le_refl _, List.prefix_rfl, List.prefix_rfl, List.suffix_rfl, fun other _ => ?_⟩
  change _ <+: (s.resolve id outcome).outcomes other
  rw [outcomes_resolve]
  by_cases same : other = id
  · subst same
    rw [Function.update_self]
    exact List.prefix_append _ _
  · rw [Function.update_of_ne same]

theorem Extends.client (step : ClientStep s t) : Extends s t := by
  cases step with
  | submit charge wait =>
      rcases reserve_cases s charge wait with same | ⟨-, -, admitted⟩
      · rw [same]
        exact .refl s
      · rw [admitted]
        refine ⟨rfl, Nat.le_succ _, List.prefix_rfl, List.prefix_rfl, List.suffix_rfl,
          fun id within => ?_⟩
        rw [outcomes_admission, Function.update_of_ne within.ne]
  | cancel id =>
      unfold Session.cancel
      split_ifs
      · exact .silent rfl rfl List.prefix_rfl List.prefix_rfl List.suffix_rfl (outcomes_move _)
      · exact .refl s
  | close => exact .silent rfl rfl List.prefix_rfl List.prefix_rfl List.suffix_rfl rfl

theorem Extends.service (step : ServiceStep s t) : Extends s t := by
  cases step with
  | construct throws here => exact .move _
  | push here =>
      unfold Session.push
      split_ifs
      · exact .move _
      · exact .silent rfl rfl (List.prefix_append _ _) List.prefix_rfl List.suffix_rfl
          (outcomes_move _)
  | unqueued here => exact .move _
  | refund here =>
      exact .silent rfl rfl List.prefix_rfl List.prefix_rfl List.suffix_rfl
        (outcomes_move .dropped)
  | cancelled here => exact .conclude _ _ s.worker
  | decide ready here =>
      unfold Session.decide
      split
      · exact .goto _
      · split_ifs
        · exact .goto _
        · exact .goto _
  | claim here wakes =>
      unfold Session.claim
      split
      · exact .silent rfl rfl List.prefix_rfl (List.prefix_append _ _) List.suffix_rfl
          (outcomes_move _)
      · split_ifs
        · exact .goto _
        · exact .goto _
  | contribute result certified here =>
      unfold Session.contribute
      split
      · exact .goto _
      · split_ifs
        · exact .goto _
        · exact .goto _
  | produce pending here =>
      unfold Session.produce
      split
      · exact .goto _
      · split
        · exact .goto _
        · exact .store _ _ _
  | settle here => exact .conclude _ _ _
  | decline pending here =>
      unfold Session.decline
      split
      · exact .goto _
      · exact .goto _
  | reject here => exact .conclude _ _ _
  | advance result here =>
      unfold Session.advance
      split
      · exact .goto _
      · exact .goto _
      · split
        · exact .goto _
        · exact .store _ _ _
  | maintain pending here =>
      unfold Session.maintain
      split
      · exact .goto _
      · exact .goto _
  | fail here =>
      exact .silent rfl rfl List.prefix_rfl List.prefix_rfl List.suffix_rfl (outcomes_fail _ _)
  | abandon here => exact .conclude _ _ _
  | drained here settled => exact .goto _

/-- Nothing is taken back in a run. -/
theorem Extends.run (run : Relation.ReflTransGen SessionStep s t) : Extends s t := by
  induction run with
  | refl => exact .refl s
  | tail _ step induction => exact induction.trans (step.elim .client .service)

end Session

/-! ## The contract -/

namespace Session

theorem held_eq_zero (s : Session W X) (empty : s.held (fun _ => 1) = 0)
    (amount : SessionReservation → Nat) : s.held amount = 0 := by
  rw [held, Finset.sum_eq_zero_iff] at empty ⊢
  intro id member
  have released := empty id member
  split_ifs at released ⊢
  rfl

theorem Inv.within_accepted (inv : s.Inv) (accepted : id ∈ s.accepted) : id < s.made :=
  ((inv.located.accepted_iff id).mp accepted).1

theorem Inv.holds_iff (inv : s.Inv) (accepted : id ∈ s.accepted) :
    s.phases id = .resolved ↔ (s.phases id).holds = false := by
  have queued := ((inv.located.accepted_iff id).mp accepted).2
  cases phase : s.phases id <;> rw [phase] at queued <;> simp_all [RequestPhase.holds,
    RequestPhase.accepted]

theorem Inv.truthful (inv : s.Inv) (within : id < s.made) {outcome : TicketOutcome W X}
    (told : outcome ∈ s.outcomes id) : Truthful s.published s.executed s.failure id outcome := by
  cases outcome with
  | world publication => exact inv.told.world id within publication told
  | rejected error => exact inv.told.rejected id within error told
  | cancelled => exact inv.told.cancelled id within told
  | failed error => exact inv.told.failed id within error told

theorem mem_successes {published : List (Option Nat × SessionPublication W)} :
    id ∈ successes published ↔ ∃ publication, (some id, publication) ∈ published := by
  rw [successes, List.mem_filterMap]
  constructor
  · rintro ⟨⟨_, publication⟩, member, rfl⟩
    exact ⟨publication, List.mem_reverse.mp member⟩
  · rintro ⟨publication, member⟩
    exact ⟨(some id, publication), List.mem_reverse.mpr member, rfl⟩

theorem Inv.succeeded (inv : s.Inv) : id ∈ successes s.published ↔ ∃ publication,
    (id ∈ s.accepted ∧ .world publication ∈ s.outcomes id) ∨ s.worker.Settles id publication := by
  constructor
  · intro success
    have executed := inv.recorded.order.subset success
    have accepted := inv.located.order.subset (List.mem_append_left _ executed)
    obtain ⟨publication, member⟩ := Iff.mp mem_successes success
    exact ⟨publication, (inv.recorded.owners id publication member).imp_left fun told =>
      ⟨accepted, told⟩⟩
  · rintro ⟨publication, ⟨accepted, told⟩ | settles⟩
    · exact Iff.mpr mem_successes ⟨publication,
        inv.told.world id (inv.within_accepted accepted) publication told⟩
    · exact Iff.mpr mem_successes ⟨publication, inv.recorded.settling id publication settles⟩

theorem Inv.drained (inv : s.Inv) (finished : s.worker = .finished) : s.closing = true ∧
    s.queue = [] ∧ s.reserved = ⟨0, 0⟩ ∧ s.count = 0 ∧
    ∀ id ∈ s.accepted, (s.outcomes id).length = 1 := by
  have empty := inv.ended.finished finished
  have released : ∀ id < s.made, (s.phases id).holds = false := by
    intro id within
    by_contra holds
    exact inv.unfinished within (Bool.eq_true_of_not_eq_false holds) finished
  have nothing := s.held_eq_zero (inv.accounts.count ▸ empty)
  refine ⟨inv.ended.closing (.inr finished), ?_, ?_, empty, fun id accepted => ?_⟩
  · refine List.eq_nil_iff_forall_not_mem.mpr fun id queued => ?_
    obtain ⟨within, phase⟩ := (inv.located.queued id).mp queued
    have holds := released id within
    rw [phase] at holds
    cases holds
  · have work := inv.accounts.work.trans (nothing _)
    have bytes := inv.accounts.bytes.trans (nothing _)
    revert work bytes
    cases s.reserved
    rintro rfl rfl
    rfl
  · have within := inv.within_accepted accepted
    have told := inv.told.count id within
    rwa [if_pos ((inv.holds_iff accepted).mpr (released id within))] at told

end Session

end Everett

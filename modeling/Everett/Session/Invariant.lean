import Mathlib.Algebra.BigOperators.Group.Finset.Basic
import Mathlib.Algebra.Order.BigOperators.Group.Finset
import Everett.Session.Queue

/-!
# What a session keeps

The reservation is the sum over the requests which hold a charge; queue, worker and failure divide
the accepted requests among themselves; and a request which was resolved was resolved once.
-/

namespace Everett

open Session

variable {W X : Type} {s t : Session W X}

/-- Phases in which a request holds its charge. -/
def RequestPhase.holds : RequestPhase → Bool
  | .resolved | .dropped => false
  | _ => true

/-- Phases of requests which were queued. -/
def RequestPhase.accepted : RequestPhase → Bool
  | .queued | .cancelling | .claimed | .abandoned | .resolved => true
  | _ => false

namespace SessionWorker

/-- The request which the worker has claimed. -/
def active : SessionWorker W X → Option Nat
  | executing id | producing id _ | settling id _ _ | declining id _ | rejecting id _ _ => some id
  | failing active _ => active
  | _ => none

/-- The requests which a failure has still to reject. -/
def remaining : SessionWorker W X → List Nat
  | abandoning remaining _ => remaining
  | _ => []

/-- Whether the worker is in `run`. -/
def running : SessionWorker W X → Bool
  | abandoning _ _ | finished => false
  | _ => true

/-- Whether no stored publication waits for its ticket. -/
def quiet : SessionWorker W X → Bool
  | settling _ _ _ => false
  | _ => true

theorem remaining_running {worker : SessionWorker W X} (running : worker.running = true) :
    worker.remaining = [] := by
  cases worker <;> first | rfl | cases running

end SessionWorker

namespace Session

/-! ## Accounts -/

/-- Sum over the charges which are held. -/
def held (s : Session W X) (amount : SessionReservation → Nat) : Nat :=
  ∑ id ∈ Finset.range s.made,
    if (s.requests id).phase.holds then amount (s.requests id).charge else 0

/-- The reservation is what the requests hold, within the limits. -/
structure Accounts (s : Session W X) : Prop where
  work : s.reserved.work = s.held SessionReservation.work
  bytes : s.reserved.bytes = s.held SessionReservation.bytes
  count : s.count = s.held fun _ => 1
  work_le : s.reserved.work ≤ s.limits.work
  bytes_le : s.reserved.bytes ≤ s.limits.bytes
  count_le : s.count ≤ s.limits.contributions

/-- Changes which leave the accounts as they are. -/
structure SameAccounts (s t : Session W X) : Prop where
  limits : t.limits = s.limits
  reserved : t.reserved = s.reserved
  count : t.count = s.count
  made : t.made = s.made
  charge : ∀ id, (t.requests id).charge = (s.requests id).charge
  holds : ∀ id, (t.requests id).phase.holds = (s.requests id).phase.holds

theorem Accounts.same (accounts : s.Accounts) (same : SameAccounts s t) : t.Accounts := by
  have held : ∀ amount, t.held amount = s.held amount := by
    intro amount
    rw [Session.held, Session.held, same.made]
    simp only [same.charge, same.holds]
  obtain ⟨work, bytes, count, work_le, bytes_le, count_le⟩ := accounts
  exact ⟨by rw [same.reserved, held, work], by rw [same.reserved, held, bytes],
    by rw [same.count, held, count], by rwa [same.reserved, same.limits],
    by rwa [same.reserved, same.limits], by rwa [same.count, same.limits]⟩

/-- What one request holds is part of what all hold. -/
theorem held_eq_add {id : Nat} (within : id < s.made) (holds : (s.requests id).phase.holds = true)
    (made : t.made = s.made) (released : (t.requests id).phase.holds = false)
    (others : ∀ other ≠ id, t.requests other = s.requests other)
    (amount : SessionReservation → Nat) :
    s.held amount = t.held amount + amount (s.requests id).charge := by
  have member : id ∈ Finset.range s.made := Finset.mem_range.mpr within
  rw [held, held, made, ← Finset.sum_erase_add _ _ member, ← Finset.sum_erase_add (a := id) _ _
    member, holds, released]
  simp only [if_true, Bool.false_eq_true, if_false, Nat.add_zero]
  congr 1
  refine Finset.sum_congr rfl fun other elsewhere => ?_
  rw [others other (Finset.ne_of_mem_erase elsewhere)]

theorem sub64_of_le {a b : Nat} (less : b ≤ a) (bounded : a ≤ maximum64) : sub64 a b = a - b := by
  unfold sub64
  have shift : a + (maximum64 + 1 - b) = a - b + (maximum64 + 1) := by omega
  rw [shift, Nat.add_mod_right, Nat.mod_eq_of_lt (by omega)]

theorem add64_of_le {a b : Nat} (bounded : a + b ≤ maximum64) : add64 a b = a + b :=
  Nat.mod_eq_of_lt (by omega)

/-- Resolving or dropping a request refunds what it held. -/
theorem Accounts.release (accounts : s.Accounts) {id : Nat} (within : id < s.made)
    (holds : (s.requests id).phase.holds = true) (limits : t.limits = s.limits)
    (made : t.made = s.made) (released : (t.requests id).phase.holds = false)
    (others : ∀ other ≠ id, t.requests other = s.requests other)
    (reserved : t.reserved = (s.unreserve (s.requests id).charge).reserved)
    (count : t.count = (s.unreserve (s.requests id).charge).count) : t.Accounts := by
  have parts := held_eq_add within holds made released others
  obtain ⟨work_eq, bytes_eq, count_eq, work_le, bytes_le, count_le⟩ := accounts
  have work_part := parts SessionReservation.work
  have bytes_part := parts SessionReservation.bytes
  have count_part := parts fun _ => 1
  have work_max := s.limits.work_le
  have bytes_max := s.limits.bytes_le
  have count_max := s.limits.contributions_le
  have work_left : t.reserved.work = s.reserved.work - (s.requests id).charge.work := by
    rw [reserved]
    exact sub64_of_le (by omega) (by omega)
  have bytes_left : t.reserved.bytes = s.reserved.bytes - (s.requests id).charge.bytes := by
    rw [reserved]
    exact sub64_of_le (by omega) (by omega)
  have count_left : t.count = s.count - 1 := by
    rw [count]
    exact sub64_of_le (by omega) (by omega)
  exact ⟨by omega, by omega, by omega, by rw [limits]; omega, by rw [limits]; omega,
    by rw [limits]; omega⟩

theorem held_admission (s : Session W X) (charge : SessionReservation)
    (amount : SessionReservation → Nat) :
    (s.admission charge).held amount = s.held amount + amount charge := by
  have new : (s.admission charge).requests s.made = ⟨charge, .constructing, []⟩ :=
    Function.update_self ..
  have old : ∀ id ∈ Finset.range s.made, (s.admission charge).requests id = s.requests id :=
    fun id member => Function.update_of_ne (Finset.mem_range.mp member).ne _ _
  have made : (s.admission charge).made = s.made + 1 := rfl
  rw [held, made, Finset.sum_range_succ, new, held]
  congr 1
  refine Finset.sum_congr rfl fun id member => ?_
  rw [old id member]

/-- A charge which fits is reserved within the limits. -/
theorem Accounts.admission (accounts : s.Accounts) {charge : SessionReservation}
    (room : s.fits charge = true) : (s.admission charge).Accounts := by
  have work_max := s.limits.work_le
  have bytes_max := s.limits.bytes_le
  have count_max := s.limits.contributions_le
  have grown := held_admission s charge
  obtain ⟨work_eq, bytes_eq, count_eq, work_le, bytes_le, count_le⟩ := accounts
  rw [fits, Bool.and_eq_true, Bool.and_eq_true, decide_eq_true_eq, decide_eq_true_eq,
    decide_eq_true_eq, sub64_of_le work_le work_max, sub64_of_le bytes_le bytes_max] at room
  obtain ⟨⟨count_room, work_room⟩, bytes_room⟩ := room
  have work_sum : (s.admission charge).reserved.work = s.reserved.work + charge.work :=
    add64_of_le (by omega)
  have bytes_sum : (s.admission charge).reserved.bytes = s.reserved.bytes + charge.bytes :=
    add64_of_le (by omega)
  have count_sum : (s.admission charge).count = s.count + 1 := add64_of_le (by omega)
  have limits : (s.admission charge).limits = s.limits := rfl
  exact ⟨by rw [work_sum, grown, work_eq], by rw [bytes_sum, grown, bytes_eq],
    by rw [count_sum, grown, count_eq], by rw [work_sum, limits]; omega,
    by rw [bytes_sum, limits]; omega, by rw [count_sum, limits]; omega⟩

/-- A request which moves between holding phases changes no account. -/
theorem SameAccounts.move {id : Nat} {phase : RequestPhase}
    (same : phase.holds = (s.requests id).phase.holds) : SameAccounts s (s.move id phase) := by
  refine ⟨rfl, rfl, rfl, rfl, fun other => ?_, fun other => ?_⟩ <;>
    by_cases here : other = id <;> simp [Session.move, onRequest, Function.update, here, same]

theorem SameAccounts.goto (worker : SessionWorker W X) : SameAccounts s (s.goto worker) :=
  ⟨rfl, rfl, rfl, rfl, fun _ => rfl, fun _ => rfl⟩

end Session

/-! ## Where requests are -/

/-- Queue, worker and failure divide the accepted requests among themselves. -/
structure Located (made : Nat) (phase : Nat → RequestPhase) (queue remaining accepted executed :
    List Nat) (active : Option Nat) : Prop where
  queued : ∀ id, id ∈ queue ↔ id < made ∧ phase id = .queued
  claimed : ∀ id, active = some id ↔ id < made ∧ phase id = .claimed
  abandoned : ∀ id, id ∈ remaining ↔ id < made ∧ phase id = .abandoned
  remaining_nodup : remaining.Nodup
  accepted_iff : ∀ id, id ∈ accepted ↔ id < made ∧ (phase id).accepted = true
  accepted_nodup : accepted.Nodup
  order : (executed ++ queue).Sublist accepted
  executed_phase : ∀ id ∈ executed,
    phase id = .claimed ∨ phase id = .abandoned ∨ phase id = .resolved

def Unqueued (phase : RequestPhase) : Prop :=
  phase = .constructing ∨ phase = .constructed ∨ phase = .refunding ∨ phase = .dropped

attribute [grind =] RequestPhase.accepted

namespace Located
variable {made : Nat} {phase : Nat → RequestPhase} {queue remaining accepted executed :
    List Nat} {active : Option Nat} {id : Nat}

theorem move (located : Located made phase queue remaining accepted executed active)
    {new : RequestPhase} (before : Unqueued (phase id)) (after : Unqueued new) :
    Located made (Function.update phase id new) queue remaining accepted executed active := by
  obtain ⟨queued, claimed, abandoned, nodup, accepted_iff, accepted_nodup, order, executed_phase⟩ :=
    located
  unfold Unqueued at before after
  constructor <;> grind [Function.update_apply]

theorem admission (located : Located made phase queue remaining accepted executed active) :
    Located (made + 1) (Function.update phase made .constructing) queue remaining accepted executed
      active := by
  obtain ⟨queued, claimed, abandoned, nodup, accepted_iff, accepted_nodup, order, executed_phase⟩ :=
    located
  have := order.subset
  constructor <;> grind [Function.update_apply]

theorem push (located : Located made phase queue remaining accepted executed active)
    (within : id < made) (here : phase id = .constructed) :
    Located made (Function.update phase id .queued) (queue ++ [id]) remaining (accepted ++ [id])
      executed active := by
  obtain ⟨queued, claimed, abandoned, nodup, accepted_iff, accepted_nodup, order, executed_phase⟩ :=
    located
  have order' : (executed ++ (queue ++ [id])).Sublist (accepted ++ [id]) := by
    rw [← List.append_assoc]
    exact order.append (List.Sublist.refl _)
  constructor <;> grind [Function.update_apply]

theorem cancel (located : Located made phase queue remaining accepted executed active)
    (member : id ∈ queue) :
    Located made (Function.update phase id .cancelling) (queue.erase id) remaining accepted
      executed active := by
  obtain ⟨queued, claimed, abandoned, nodup, accepted_iff, accepted_nodup, order, executed_phase⟩ :=
    located
  have queue_nodup : queue.Nodup := ((List.sublist_append_right _ _).trans order).nodup accepted_nodup
  have order' : (executed ++ queue.erase id).Sublist accepted :=
    ((List.Sublist.refl _).append List.erase_sublist).trans order
  constructor <;> grind [Function.update_apply, List.Nodup.mem_erase_iff]

theorem cancelled (located : Located made phase queue remaining accepted executed active)
    (here : phase id = .cancelling) :
    Located made (Function.update phase id .resolved) queue remaining accepted executed active := by
  obtain ⟨queued, claimed, abandoned, nodup, accepted_iff, accepted_nodup, order, executed_phase⟩ :=
    located
  constructor <;> grind [Function.update_apply]

theorem claim (located : Located made phase (id :: queue) remaining accepted executed none) :
    Located made (Function.update phase id .claimed) queue remaining accepted (executed ++ [id])
      (some id) := by
  obtain ⟨queued, claimed, abandoned, nodup, accepted_iff, accepted_nodup, order, executed_phase⟩ :=
    located
  have here := (queued id).mp List.mem_cons_self
  have absent : id ∉ queue := by
    have queue_nodup := ((List.sublist_append_right _ _).trans order).nodup accepted_nodup
    exact (List.nodup_cons.mp queue_nodup).1
  have order' : (executed ++ [id] ++ queue).Sublist accepted := by
    rwa [List.append_assoc, List.singleton_append]
  clear order
  constructor
  case order => exact order'
  all_goals clear order'; grind [Function.update_apply]

theorem resolve (located : Located made phase queue remaining accepted executed (some id)) :
    Located made (Function.update phase id .resolved) queue remaining accepted executed none := by
  obtain ⟨queued, claimed, abandoned, nodup, accepted_iff, accepted_nodup, order, executed_phase⟩ :=
    located
  constructor <;> grind [Function.update_apply]

theorem fail (located : Located made phase queue [] accepted executed active) :
    Located made (fun id => if id ∈ active.toList ++ queue then .abandoned else phase id) []
      (active.toList ++ queue) accepted executed none := by
  obtain ⟨queued, claimed, abandoned, nodup, accepted_iff, accepted_nodup, order, executed_phase⟩ :=
    located
  have queue_nodup : queue.Nodup := ((List.sublist_append_right _ _).trans order).nodup accepted_nodup
  have order' : (executed ++ []).Sublist accepted := by
    rw [List.append_nil]
    exact (List.sublist_append_left _ _).trans order
  constructor <;> grind

theorem abandon (located : Located made phase queue (id :: remaining) accepted executed active) :
    Located made (Function.update phase id .resolved) queue remaining accepted executed active := by
  obtain ⟨queued, claimed, abandoned, nodup, accepted_iff, accepted_nodup, order, executed_phase⟩ :=
    located
  constructor <;> grind [Function.update_apply]

end Located

/-! ## What tickets are told -/

/-- A request is told once, when it is resolved, and what it is told is true. -/
structure Told (made : Nat) (phase : Nat → RequestPhase)
    (outcomes : Nat → List (TicketOutcome W X))
    (published : List (Option Nat × SessionPublication W)) (executed : List Nat)
    (failure : Option (SessionError X)) : Prop where
  count : ∀ id < made, (outcomes id).length = if phase id = .resolved then 1 else 0
  world : ∀ id < made, ∀ publication, .world publication ∈ outcomes id →
    (some id, publication) ∈ published
  rejected : ∀ id < made, ∀ error, .rejected error ∈ outcomes id → id ∈ executed
  cancelled : ∀ id < made, .cancelled ∈ outcomes id → id ∉ executed
  failed : ∀ id < made, ∀ error, .failed error ∈ outcomes id → failure = some error

/-- What a session may tell a request. -/
def Truthful (published : List (Option Nat × SessionPublication W)) (executed : List Nat)
    (failure : Option (SessionError X)) (id : Nat) : TicketOutcome W X → Prop
  | .world publication => (some id, publication) ∈ published
  | .rejected _ => id ∈ executed
  | .cancelled => id ∉ executed
  | .failed error => failure = some error

namespace Told

variable {made : Nat} {phase : Nat → RequestPhase} {outcomes : Nat → List (TicketOutcome W X)}
  {published : List (Option Nat × SessionPublication W)} {executed : List Nat}
  {failure : Option (SessionError X)} {id : Nat}

/-- A request which is not resolved moves on. -/
theorem move (told : Told made phase outcomes published executed failure) {new : RequestPhase}
    (before : phase id ≠ .resolved) (after : new ≠ .resolved) :
    Told made (Function.update phase id new) outcomes published executed failure := by
  obtain ⟨count, world, rejected, cancelled, failed⟩ := told
  constructor <;> grind [Function.update_apply]

theorem admission (told : Told made phase outcomes published executed failure) :
    Told (made + 1) (Function.update phase made .constructing) (Function.update outcomes made [])
      published executed failure := by
  obtain ⟨count, world, rejected, cancelled, failed⟩ := told
  constructor <;> grind [Function.update_apply]

/-- A request which is resolved is told the truth. -/
theorem resolve (told : Told made phase outcomes published executed failure)
    {outcome : TicketOutcome W X} (within : id < made) (before : phase id ≠ .resolved)
    (truthful : Truthful published executed failure id outcome) :
    Told made (Function.update phase id .resolved)
      (Function.update outcomes id (outcomes id ++ [outcome])) published executed failure := by
  obtain ⟨count, world, rejected, cancelled, failed⟩ := told
  have untold : outcomes id = [] := by
    have none_yet := count id within
    rw [if_neg before] at none_yet
    exact List.length_eq_zero_iff.mp none_yet
  cases outcome <;> simp only [Truthful] at truthful <;> constructor <;>
    grind [Function.update_apply]

theorem claim (told : Told made phase outcomes published executed failure)
    (before : phase id = .queued) :
    Told made (Function.update phase id .claimed) outcomes published (executed ++ [id])
      failure := by
  obtain ⟨count, world, rejected, cancelled, failed⟩ := told
  constructor <;> grind [Function.update_apply, List.length_eq_zero_iff]

theorem store (told : Told made phase outcomes published executed failure)
    (entry : Option Nat × SessionPublication W) :
    Told made phase outcomes (entry :: published) executed failure := by
  obtain ⟨count, world, rejected, cancelled, failed⟩ := told
  constructor <;> grind

theorem fail (told : Told made phase outcomes published executed none)
    {ids : List Nat} (unresolved : ∀ id ∈ ids, phase id ≠ .resolved)
    (error : SessionError X) :
    Told made (fun id => if id ∈ ids then .abandoned else phase id) outcomes published executed
      (some error) := by
  obtain ⟨count, world, rejected, cancelled, failed⟩ := told
  constructor <;> grind

end Told

/-! ## Publications -/

/-- Publications, newest first: every revision follows the one before, and every generation counts
the contributions up to it. -/
def Sequenced : List (Option Nat × SessionPublication W) → Prop
  | [] => False
  | [(id, publication)] => id = none ∧ publication.generation = 0 ∧ publication.revision = 0
  | (id, publication) :: (id', previous) :: rest =>
      publication.revision = previous.revision + 1 ∧
      publication.generation = previous.generation + id.isSome.toNat ∧
      publication.logical = previous.logical + id.isSome.toNat ∧
      Sequenced ((id', previous) :: rest)

/-- The requests whose contributions were published, oldest first. -/
def successes (published : List (Option Nat × SessionPublication W)) : List Nat :=
  published.reverse.filterMap Prod.fst

theorem Sequenced.generation_eq {published : List (Option Nat × SessionPublication W)}
    (sequenced : Sequenced published) : ∀ entry ∈ published.head?,
      entry.2.generation = (successes published).length ∧
      entry.2.revision + 1 = published.length := by
  induction published with
  | nil => simp
  | cons entry rest induction =>
      obtain ⟨id, publication⟩ := entry
      cases rest with
      | nil =>
          obtain ⟨rfl, generation, revision⟩ := sequenced
          simp [successes, generation, revision]
      | cons previous rest =>
          obtain ⟨id', old⟩ := previous
          obtain ⟨revision, generation, -, before⟩ := sequenced
          obtain ⟨old_generation, old_revision⟩ := induction before (id', old) rfl
          rintro _ ⟨⟩
          simp only at old_generation old_revision ⊢
          refine ⟨?_, by rw [revision, old_revision]; rfl⟩
          rw [generation, old_generation, successes, successes, List.reverse_cons (a := (id, publication)),
            List.filterMap_append, List.length_append]
          cases id <;> rfl

/-- Whether the worker is about to hand a publication to its ticket. -/
def SessionWorker.Settles (worker : SessionWorker W X) (id : Nat)
    (publication : SessionPublication W) : Prop :=
  ∃ pending, worker = .settling id publication pending

theorem SessionWorker.not_settles {worker : SessionWorker W X} (quiet : worker.quiet = true)
    (id : Nat) (publication : SessionPublication W) : ¬ worker.Settles id publication := by
  rintro ⟨_, rfl⟩
  cases quiet

/-- The publications are those of the executed contributions, in their order. -/
structure Recorded (worker : SessionWorker W X) (current : SessionPublication W)
    (published : List (Option Nat × SessionPublication W)) (executed : List Nat)
    (outcomes : Nat → List (TicketOutcome W X)) : Prop where
  sequenced : Sequenced published
  head : published.head?.map Prod.snd = some current
  settling : ∀ id publication, worker.Settles id publication → (some id, publication) ∈ published
  owners : ∀ id publication, (some id, publication) ∈ published →
    .world publication ∈ outcomes id ∨ worker.Settles id publication
  order : (successes published).Sublist executed
  last : ∀ id, worker.active = some id → ∃ front, executed = front ++ [id] ∧
    ((∀ publication, ¬ worker.Settles id publication) → (successes published).Sublist front)

namespace Recorded

variable {worker : SessionWorker W X} {current : SessionPublication W}
  {published : List (Option Nat × SessionPublication W)} {executed : List Nat}
  {outcomes : Nat → List (TicketOutcome W X)}

/-- The worker goes on without a publication. -/
theorem goto (recorded : Recorded worker current published executed outcomes)
    {new : SessionWorker W X} (before : ∀ id publication, ¬ worker.Settles id publication)
    (after : ∀ id publication, ¬ new.Settles id publication)
    (active : ∀ id, new.active = some id → worker.active = some id) :
    Recorded new current published executed outcomes := by
  obtain ⟨sequenced, head, settling, owners, order, last⟩ := recorded
  refine ⟨sequenced, head, fun id publication settles => absurd settles (after id publication),
    fun id publication member => ?_, order, fun id is_active => ?_⟩
  · exact .inl ((owners id publication member).resolve_right (before id publication))
  · obtain ⟨front, split, within⟩ := last id (active id is_active)
    exact ⟨front, split, fun _ => within (before id)⟩

/-- Requests are told more. -/
theorem tell (recorded : Recorded worker current published executed outcomes)
    {more : Nat → List (TicketOutcome W X)}
    (keeps : ∀ id ∈ executed, ∀ outcome ∈ outcomes id, outcome ∈ more id) :
    Recorded worker current published executed more := by
  obtain ⟨sequenced, head, settling, owners, order, last⟩ := recorded
  refine ⟨sequenced, head, settling, fun id publication member => ?_, order, last⟩
  have was_executed : id ∈ executed := by
    refine order.subset (List.mem_filterMap.mpr ⟨(some id, publication), ?_, rfl⟩)
    exact List.mem_reverse.mpr member
  exact (owners id publication member).imp_left (keeps id was_executed _)

/-- What a request was told stays so when it or another is told more. -/
theorem tell_one (recorded : Recorded worker current published executed outcomes) (id : Nat)
    (outcome : TicketOutcome W X) :
    Recorded worker current published executed
      (Function.update outcomes id (outcomes id ++ [outcome])) := by
  refine recorded.tell fun other _ old told => ?_
  by_cases same : other = id
  · subst same
    rw [Function.update_self]
    exact List.mem_append_left _ told
  · rwa [Function.update_of_ne same]

/-- The worker claims a request. -/
theorem claim (recorded : Recorded worker current published executed outcomes)
    (before : ∀ id publication, ¬ worker.Settles id publication) (id : Nat) :
    Recorded (.executing id) current published (executed ++ [id]) outcomes := by
  obtain ⟨sequenced, head, settling, owners, order, last⟩ := recorded
  refine ⟨sequenced, head, fun other publication settles => ?_, fun other publication member => ?_,
    order.trans (List.sublist_append_left _ _), fun other is_active => ?_⟩
  · obtain ⟨_, impossible⟩ := settles
    cases impossible
  · exact .inl ((owners other publication member).resolve_right (before other publication))
  · cases is_active
    exact ⟨executed, rfl, fun _ => order⟩

/-- A contribution is published. -/
theorem produce {id : Nat} {world : W} (recorded : Recorded (.producing id world) current published
    executed outcomes) {candidate : SessionPublication W}
    (revision : candidate.revision = current.revision + 1)
    (generation : candidate.generation = current.generation + 1)
    (logical : candidate.logical = current.logical + 1) (pending : Bool) :
    Recorded (.settling id candidate pending : SessionWorker W X) candidate
      ((some id, candidate) :: published) executed outcomes := by
  obtain ⟨sequenced, head, settling, owners, order, last⟩ := recorded
  obtain ⟨front, split, within⟩ := last id rfl
  have grown : successes ((some id, candidate) :: published) = successes published ++ [id] := by
    simp [successes]
  have quiet : ∀ publication,
      ¬ (SessionWorker.producing id world : SessionWorker W X).Settles id publication := by
    rintro publication ⟨_, impossible⟩
    cases impossible
  refine ⟨?_, rfl, fun other publication settles => ?_, fun other publication member => ?_, ?_,
    fun other is_active => ?_⟩
  · cases published with
    | nil => cases head
    | cons entry rest =>
        cases head
        exact ⟨revision, generation, logical, sequenced⟩
  · obtain ⟨_, same⟩ := settles
    cases same
    exact List.mem_cons_self
  · rcases List.mem_cons.mp member with same | old
    · cases same
      exact .inr ⟨pending, rfl⟩
    · refine .inl ((owners other publication old).resolve_right ?_)
      rintro ⟨_, impossible⟩
      cases impossible
  · rw [grown, split]
    exact (within quiet).append (List.Sublist.refl _)
  · cases is_active
    exact ⟨front, split, fun unsettled => absurd ⟨pending, rfl⟩ (unsettled candidate)⟩

/-- An equivalent layout is published. -/
theorem maintain (recorded : Recorded worker current published executed outcomes)
    (before : ∀ id publication, ¬ worker.Settles id publication) (idle : worker.active = none)
    {candidate : SessionPublication W} (revision : candidate.revision = current.revision + 1)
    (generation : candidate.generation = current.generation)
    (logical : candidate.logical = current.logical) :
    Recorded worker candidate ((none, candidate) :: published) executed outcomes := by
  obtain ⟨sequenced, head, settling, owners, order, last⟩ := recorded
  have same : successes ((none, candidate) :: published) = successes published := by
    simp [successes]
  refine ⟨?_, rfl, fun other publication settles => absurd settles (before other publication),
    fun other publication member => ?_, same ▸ order, fun other is_active => ?_⟩
  · cases published with
    | nil => cases head
    | cons entry rest =>
        cases head
        exact ⟨revision, generation, logical, sequenced⟩
  · rcases List.mem_cons.mp member with impossible | old
    · cases impossible
    · exact owners other publication old
  · rw [idle] at is_active
    cases is_active

/-- A publication is handed to its ticket. -/
theorem settle {id : Nat} {publication : SessionPublication W} {pending : Bool}
    (recorded : Recorded (.settling id publication pending) current published executed outcomes) :
    Recorded (.deciding pending) current published executed
      (Function.update outcomes id (outcomes id ++ [.world publication])) := by
  obtain ⟨sequenced, head, settling, owners, order, last⟩ := recorded
  refine ⟨sequenced, head, fun other announced settles => ?_, fun other announced member => ?_,
    order, fun other is_active => by cases is_active⟩
  · obtain ⟨_, impossible⟩ := settles
    cases impossible
  · refine .inl ?_
    by_cases same : other = id
    · subst same
      rw [Function.update_self, List.mem_append]
      refine (owners other announced member).imp_right ?_
      rintro ⟨_, same⟩
      cases same
      exact List.mem_cons_self
    · rw [Function.update_of_ne same]
      refine (owners other announced member).resolve_right ?_
      rintro ⟨_, settles⟩
      cases settles
      exact same rfl

end Recorded

/-! ## Endings -/

/-- A failed or finished session takes no more requests. -/
structure Ended (worker : SessionWorker W X) (failure : Option (SessionError X)) (closing : Bool)
    (queue : List Nat) (count : Nat) : Prop where
  closing : failure.isSome = true ∨ worker = .finished → closing = true
  queue : failure.isSome = true → queue = []
  failing : failure.isSome = true →
    worker = .finished ∨ ∃ remaining error, worker = .abandoning remaining error
  abandoning : ∀ remaining error, worker = .abandoning remaining error → failure = some error
  finished : worker = .finished → count = 0

namespace Ended

variable {worker new : SessionWorker W X} {failure : Option (SessionError X)} {closing : Bool}
  {queue : List Nat} {count : Nat}

/-- A session whose worker runs has not failed. -/
theorem alive (ended : Ended worker failure closing queue count) (running : worker.running = true) :
    failure = none := by
  cases failed : failure with
  | none => rfl
  | some error =>
      rcases ended.failing (by rw [failed]; rfl) with rfl | ⟨_, _, rfl⟩ <;> cases running

/-- A worker which goes on running ends nothing. -/
theorem goto (ended : Ended worker failure closing queue count) (before : worker.running = true)
    (after : new.running = true) (queue : List Nat) (count : Nat) :
    Ended new failure closing queue count := by
  have alive := ended.alive before
  subst alive
  refine ⟨fun failed => ?_, nofun, nofun, ?_, ?_⟩
  · rcases failed with failed | rfl
    · cases failed
    · cases after
  · rintro _ _ rfl
    cases after
  · rintro rfl
    cases after

end Ended

/-- Phases of all requests. -/
def Session.phases (s : Session W X) (id : Nat) : RequestPhase := (s.requests id).phase

/-- What every request was told. -/
def Session.outcomes (s : Session W X) (id : Nat) : List (TicketOutcome W X) :=
  (s.requests id).outcomes

/-- What holds of a session at all times. -/
structure Session.Inv (s : Session W X) : Prop where
  accounts : s.Accounts
  located : Located s.made s.phases s.queue s.worker.remaining s.accepted s.executed s.worker.active
  told : Told s.made s.phases s.outcomes s.published s.executed s.failure
  recorded : Recorded s.worker s.current s.published s.executed s.outcomes
  ended : Ended s.worker s.failure s.closing s.queue s.count

end Everett

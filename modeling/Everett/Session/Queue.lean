import Everett.Bits

/-!
# Sessions

One worker owns an engine and executes queued contributions.  Every section under the queue lock,
every call of user code and the store of a publication is a step of its own; an engine may answer
each call in any way.  A submission reserves its charge before its input is constructed, and whoever
resolves its ticket, or gives it up, refunds the charge.
-/

namespace Everett

/-- `session_reservation`. -/
structure SessionReservation where
  work : Nat
  bytes : Nat
  deriving DecidableEq, Repr

/-- `session_limits`, of 64-bit numbers, as the constructor accepts them. -/
structure SessionLimits where
  work : Nat
  bytes : Nat
  contributions : Nat
  maintenanceBudget : Nat
  work_le : work ≤ maximum64
  bytes_le : bytes ≤ maximum64
  contributions_le : contributions ≤ maximum64
  /-- "session needs a positive contribution limit and maintenance budget" -/
  positive : 0 < contributions ∧ 0 < maintenanceBudget

/-- `publication`; the logical state is known by its address. -/
structure SessionPublication (W : Type) where
  logical : Nat
  generation : Nat
  revision : Nat
  world : W

/-- Exceptions which a session passes on or raises itself. -/
inductive SessionError (X : Type)
  | engine (error : X)
  | closed
  | cancelled
  /-- "contribution exceeds a session admission limit" -/
  | exceedsLimit
  /-- "session publication sequence exhausted" -/
  | exhausted
  /-- "Engine refuses admission without pending service" -/
  | refused

/-- What resolves a ticket. -/
inductive TicketOutcome (W X : Type)
  | world (publication : SessionPublication W)
  /-- The own exception of the contribution. -/
  | rejected (error : SessionError X)
  | cancelled
  /-- The failure of the session. -/
  | failed (error : SessionError X)

/-- Where a request is, from its reservation on. -/
inductive RequestPhase
  /-- Reserved; the input is constructed outside the lock. -/
  | constructing
  | constructed
  /-- Given up; the reservation is to be refunded. -/
  | refunding
  | queued
  /-- Taken from the queue by `cancel`. -/
  | cancelling
  /-- Taken from the queue by the worker. -/
  | claimed
  /-- Taken from the queue by a failure. -/
  | abandoned
  | resolved
  | dropped
  deriving DecidableEq, Repr

/-- `request`, with all that its promise was set to. -/
structure SessionRequest (W X : Type) where
  charge : SessionReservation
  phase : RequestPhase
  outcomes : List (TicketOutcome W X)

/-- Where the worker stands in `run` and `failed`. -/
inductive SessionWorker (W X : Type)
  /-- At the head of the loop, with the local `pending`. -/
  | deciding (pending : Bool)
  /-- At the wait for work. -/
  | waiting (pending ready : Bool)
  /-- Before or in `contribute`. -/
  | executing (id : Nat)
  /-- After `contribute`, with what it produced. -/
  | producing (id : Nat) (world : W)
  /-- After the store of a publication, before its ticket is resolved. -/
  | settling (id : Nat) (publication : SessionPublication W) (pending : Bool)
  /-- After a rejection which left the engine unharmed. -/
  | declining (id : Nat) (error : SessionError X)
  | rejecting (id : Nat) (error : SessionError X) (pending : Bool)
  /-- Before or in `advance`. -/
  | maintaining
  | maintained
  /-- At the head of `failed`, with the active request. -/
  | failing (active : Option Nat) (error : SessionError X)
  /-- Rejecting the active and the abandoned requests. -/
  | abandoning (remaining : List Nat) (error : SessionError X)
  | finished

/-- `session`, with the history of its queue, its executions and its publications. -/
structure Session (W X : Type) where
  limits : SessionLimits
  queue : List Nat
  reserved : SessionReservation
  count : Nat
  closing : Bool
  failure : Option (SessionError X)
  current : SessionPublication W
  worker : SessionWorker W X
  requests : Nat → SessionRequest W X
  /-- Number of requests so far. -/
  made : Nat
  /-- Accepted requests in the order in which they were queued. -/
  accepted : List Nat
  /-- Requests in the order in which their contributions were executed. -/
  executed : List Nat
  /-- Publications, newest first, with the requests which they complete. -/
  published : List (Option Nat × SessionPublication W)

variable {W X : Type}

/-- Addition of 64-bit numbers. -/
def add64 (a b : Nat) : Nat := (a + b) % (maximum64 + 1)

/-- Subtraction of 64-bit numbers. -/
def sub64 (a b : Nat) : Nat := (a + (maximum64 + 1 - b)) % (maximum64 + 1)

namespace Session

/-- A session with its first publication. -/
def start (limits : SessionLimits) (world : W) (pending : Bool) : Session W X where
  limits
  queue := []
  reserved := ⟨0, 0⟩
  count := 0
  closing := false
  failure := none
  current := ⟨0, 0, 0, world⟩
  worker := .deciding pending
  requests := fun _ => ⟨⟨0, 0⟩, .dropped, []⟩
  made := 0
  accepted := []
  executed := []
  published := [(none, ⟨0, 0, 0, world⟩)]

/-- Change one request. -/
def onRequest (s : Session W X) (id : Nat) (f : SessionRequest W X → SessionRequest W X) :
    Session W X :=
  { s with requests := Function.update s.requests id (f (s.requests id)) }

/-- Move a request on. -/
def move (s : Session W X) (id : Nat) (phase : RequestPhase) : Session W X :=
  s.onRequest id fun request => { request with phase }

/-- Set the promise of a request. -/
def resolve (s : Session W X) (id : Nat) (outcome : TicketOutcome W X) : Session W X :=
  s.onRequest id fun request =>
    { request with
      phase := .resolved
      outcomes := request.outcomes ++ [outcome] }

/-- `unreserve`. -/
def unreserve (s : Session W X) (charge : SessionReservation) : Session W X :=
  { s with
    reserved := ⟨sub64 s.reserved.work charge.work, sub64 s.reserved.bytes charge.bytes⟩
    count := sub64 s.count 1 }

/-- `fits`. -/
def fits (s : Session W X) (charge : SessionReservation) : Bool :=
  s.count < s.limits.contributions && charge.work ≤ sub64 s.limits.work s.reserved.work &&
    charge.bytes ≤ sub64 s.limits.bytes s.reserved.bytes

/-- What the reservation of a submission comes to. -/
inductive Admission (X : Type)
  | refused (error : SessionError X)
  /-- `nullopt`. -/
  | saturated
  /-- A blocking submission goes on waiting. -/
  | blocked
  | reserved (id : Nat)

/-- Reserve a charge for a new request. -/
def admission (s : Session W X) (charge : SessionReservation) : Session W X :=
  { s with
    reserved := ⟨add64 s.reserved.work charge.work, add64 s.reserved.bytes charge.bytes⟩
    count := add64 s.count 1
    requests := Function.update s.requests s.made ⟨charge, .constructing, []⟩
    made := s.made + 1 }

/-- `enqueue` up to the reservation: `available`, the wait, and `fits`. -/
def reserve (s : Session W X) (charge : SessionReservation) (wait : Bool) :
    Admission X × Session W X :=
  if s.limits.work < charge.work ∨ s.limits.bytes < charge.bytes then
    (.refused .exceedsLimit, s)
  else match s.failure with
    | some error => (.refused error, s)
    | none =>
        if s.closing = true then (.refused .closed, s)
        else if s.fits charge = true then
          (.reserved s.made, s.admission charge)
        else (if wait then .blocked else .saturated, s)

/-- The construction of an input, which may throw. -/
def construct (s : Session W X) (id : Nat) (throws : Bool) : Session W X :=
  s.move id (if throws then .refunding else .constructed)

/-- The second critical section of `enqueue`: queue the request unless the session has failed. -/
def push (s : Session W X) (id : Nat) : Session W X :=
  if s.failure.isSome = true then s.move id .refunding
  else { s.move id .queued with
    queue := s.queue ++ [id]
    accepted := s.accepted ++ [id] }

/-- The refund of a submission which was given up. -/
def refund (s : Session W X) (id : Nat) : Session W X :=
  (s.move id .dropped).unreserve (s.requests id).charge

/-- The first critical section of `cancel`, and whether it found the request. -/
def cancel (s : Session W X) (id : Nat) : Bool × Session W X :=
  if id ∈ s.queue then (true, { s.move id .cancelling with queue := s.queue.erase id })
  else (false, s)

/-- The second critical section of `cancel`. -/
def cancelled (s : Session W X) (id : Nat) : Session W X :=
  (s.resolve id .cancelled).unreserve (s.requests id).charge

/-- `close`. -/
def close (s : Session W X) : Session W X := { s with closing := true }

/-- Where the worker goes on. -/
def goto (s : Session W X) (worker : SessionWorker W X) : Session W X := { s with worker }

/-- The head of the loop of `run`; an engine without `admission_ready` is always ready. -/
def decide (s : Session W X) (pending : Bool) (ready : Except X Bool) : Session W X :=
  match ready with
  | .error error => s.goto (.failing none (.engine error))
  | .ok ready =>
      if ready = false ∧ pending = false then s.goto (.failing none .refused)
      else s.goto (.waiting pending ready)

/-- The condition of the wait of `run`. -/
def wakes (s : Session W X) (pending : Bool) : Bool :=
  ! s.queue.isEmpty || (if s.closing then s.count = 0 else pending)

/-- The critical section after the wait: claim a contribution, end, or serve the engine. -/
def claim (s : Session W X) (ready : Bool) : Session W X :=
  match s.queue, ready with
  | id :: rest, true =>
      { s.move id .claimed with
        queue := rest
        executed := s.executed ++ [id]
        worker := .executing id }
  | _, _ =>
      if s.closing = true ∧ s.count = 0 then s.goto .finished
      else s.goto .maintaining

/-- The answer of `contribute`; a certified exception left the engine as it was. -/
def contribute (s : Session W X) (id : Nat) (result : Except X W) (certified : Bool) :
    Session W X :=
  match result with
  | .ok world => s.goto (.producing id world)
  | .error error =>
      if certified then s.goto (.declining id (.engine error))
      else s.goto (.failing (some id) (.engine error))

/-- `next`. -/
def next (s : Session W X) (world : W) (contribution : Bool) :
    Except (SessionError X) (SessionPublication W) :=
  if s.current.revision = maximum64 ∨
      (contribution = true ∧ s.current.generation = maximum64) then
    .error .exhausted
  else .ok {
    logical := if contribution then s.current.logical + 1 else s.current.logical
    generation := s.current.generation + contribution.toNat
    revision := s.current.revision + 1
    world }

/-- Store a publication. -/
def store (s : Session W X) (id : Option Nat) (publication : SessionPublication W) :
    Session W X :=
  { s with
    current := publication
    published := (id, publication) :: s.published }

/-- After a successful `contribute`: `next`, `pending` and the store. -/
def produce (s : Session W X) (id : Nat) (world : W) (pending : Except X Bool) :
    Session W X :=
  match s.next world true with
  | .error error => s.goto (.failing (some id) error)
  | .ok candidate =>
      match pending with
      | .error error => s.goto (.failing (some id) (.engine error))
      | .ok pending => (s.store (some id) candidate).goto (.settling id candidate pending)

/-- The critical section which hands a publication to its ticket. -/
def settle (s : Session W X) (id : Nat) (publication : SessionPublication W) (pending : Bool) :
    Session W X :=
  ((s.resolve id (.world publication)).unreserve (s.requests id).charge).goto (.deciding pending)

/-- After a certified rejection: `pending`. -/
def decline (s : Session W X) (id : Nat) (error : SessionError X) (pending : Except X Bool) :
    Session W X :=
  match pending with
  | .error error => s.goto (.failing (some id) (.engine error))
  | .ok pending => s.goto (.rejecting id error pending)

/-- The critical section which hands an exception to its ticket. -/
def reject (s : Session W X) (id : Nat) (error : SessionError X) (pending : Bool) :
    Session W X :=
  ((s.resolve id (.rejected error)).unreserve (s.requests id).charge).goto (.deciding pending)

/-- The answer of `advance`, and the store of an equivalent layout. -/
def advance (s : Session W X) (result : Except X (Option W)) : Session W X :=
  match result with
  | .error error => s.goto (.failing none (.engine error))
  | .ok none => s.goto .maintained
  | .ok (some world) =>
      match s.next world false with
      | .error error => s.goto (.failing none error)
      | .ok candidate => (s.store none candidate).goto .maintained

/-- After maintenance: `pending`. -/
def maintain (s : Session W X) (pending : Except X Bool) : Session W X :=
  match pending with
  | .error error => s.goto (.failing none (.engine error))
  | .ok pending => s.goto (.deciding pending)

/-- The first critical section of `failed`. -/
def fail (s : Session W X) (active : Option Nat) (error : SessionError X) : Session W X :=
  { s with
    failure := some error
    closing := true
    queue := []
    requests := fun id =>
      if id ∈ active.toList ++ s.queue then { s.requests id with phase := .abandoned }
      else s.requests id
    worker := .abandoning (active.toList ++ s.queue) error }

/-- `reject` of `failed`. -/
def abandon (s : Session W X) (id : Nat) (rest : List Nat) (error : SessionError X) :
    Session W X :=
  ((s.resolve id (.failed error)).unreserve (s.requests id).charge).goto (.abandoning rest error)

end Session

open Session

/-- Calls of clients. -/
inductive ClientStep : Session W X → Session W X → Prop
  | submit (s : Session W X) (charge : SessionReservation) (wait : Bool) :
      ClientStep s (s.reserve charge wait).2
  | cancel (s : Session W X) (id : Nat) : ClientStep s (s.cancel id).2
  | close (s : Session W X) : ClientStep s s.close

/-- Steps which go on with a call of a client, and steps of the worker. -/
inductive ServiceStep : Session W X → Session W X → Prop
  | construct {s : Session W X} {id : Nat} (throws : Bool)
      (here : id < s.made ∧ (s.requests id).phase = .constructing) :
      ServiceStep s (s.construct id throws)
  | push {s : Session W X} {id : Nat}
      (here : id < s.made ∧ (s.requests id).phase = .constructed) : ServiceStep s (s.push id)
  /-- The queue may find no memory for the request. -/
  | unqueued {s : Session W X} {id : Nat}
      (here : id < s.made ∧ (s.requests id).phase = .constructed) :
      ServiceStep s (s.move id .refunding)
  | refund {s : Session W X} {id : Nat}
      (here : id < s.made ∧ (s.requests id).phase = .refunding) : ServiceStep s (s.refund id)
  | cancelled {s : Session W X} {id : Nat}
      (here : id < s.made ∧ (s.requests id).phase = .cancelling) : ServiceStep s (s.cancelled id)
  | decide {s : Session W X} {pending : Bool} (ready : Except X Bool)
      (here : s.worker = .deciding pending) : ServiceStep s (s.decide pending ready)
  | claim {s : Session W X} {pending ready : Bool} (here : s.worker = .waiting pending ready)
      (wakes : s.wakes pending = true) : ServiceStep s (s.claim ready)
  | contribute {s : Session W X} {id : Nat} (result : Except X W) (certified : Bool)
      (here : s.worker = .executing id) : ServiceStep s (s.contribute id result certified)
  | produce {s : Session W X} {id : Nat} {world : W} (pending : Except X Bool)
      (here : s.worker = .producing id world) : ServiceStep s (s.produce id world pending)
  | settle {s : Session W X} {id : Nat} {publication : SessionPublication W} {pending : Bool}
      (here : s.worker = .settling id publication pending) :
      ServiceStep s (s.settle id publication pending)
  | decline {s : Session W X} {id : Nat} {error : SessionError X} (pending : Except X Bool)
      (here : s.worker = .declining id error) : ServiceStep s (s.decline id error pending)
  | reject {s : Session W X} {id : Nat} {error : SessionError X} {pending : Bool}
      (here : s.worker = .rejecting id error pending) : ServiceStep s (s.reject id error pending)
  | advance {s : Session W X} (result : Except X (Option W)) (here : s.worker = .maintaining) :
      ServiceStep s (s.advance result)
  | maintain {s : Session W X} (pending : Except X Bool) (here : s.worker = .maintained) :
      ServiceStep s (s.maintain pending)
  | fail {s : Session W X} {active : Option Nat} {error : SessionError X}
      (here : s.worker = .failing active error) : ServiceStep s (s.fail active error)
  | abandon {s : Session W X} {id : Nat} {rest : List Nat} {error : SessionError X}
      (here : s.worker = .abandoning (id :: rest) error) : ServiceStep s (s.abandon id rest error)
  | drained {s : Session W X} {error : SessionError X} (here : s.worker = .abandoning [] error)
      (settled : s.count = 0) : ServiceStep s (s.goto .finished)

/-- Any step, in any order. -/
def SessionStep (s t : Session W X) : Prop := ClientStep s t ∨ ServiceStep s t

/-- Sessions which any interleaving of calls with the worker can lead to. -/
def Session.Reachable (limits : SessionLimits) (s : Session W X) : Prop :=
  ∃ world pending, Relation.ReflTransGen SessionStep (Session.start limits world pending) s

end Everett

import Everett.Catalog.Operation

/-!
# Handles and transactions

Any number of handles share one catalog.  A write transaction runs under the writer lock of SQLite,
so transactions follow one another, and the calls of different handles interleave between them.  How
SQLite answers is not known: every statement may fail, and a failed commit may have taken effect.
-/

namespace Everett.Catalog

open Outcome

/-! ## Answers of SQLite -/

/-- What became of a commit. -/
inductive CommitAnswer
  /-- It is durable and acknowledged. -/
  | acknowledged
  /-- It is durable, and an error is reported. -/
  | lost (code : Nat)
  /-- It has no effect, and an error is reported. -/
  | refused (code : Nat)
  /-- It has no effect, no error is reported, and the transaction is still open. -/
  | skipped
  deriving DecidableEq, Repr

/-- How SQLite answers the statements of one transaction: an error code where a statement fails. -/
structure Answers where
  /-- `BEGIN IMMEDIATE`. -/
  start : Option Nat
  /-- The lookup of the journal. -/
  lookup : Option Nat
  /-- `ROLLBACK` before a recorded outcome is returned. -/
  replay : Option Nat
  /-- A statement of the apply step. -/
  apply : Option Nat
  /-- The insertion into the journal. -/
  record : Option Nat
  commit : CommitAnswer
  /-- Whether a failure has already ended the transaction. -/
  ended : Bool
  /-- Whether the `ROLLBACK` of a failure succeeds. -/
  rolledBack : Bool

/-- SQLite does all it is asked. -/
def Answers.clean : Answers := ⟨none, none, none, none, none, .acknowledged, false, true⟩

/-- A statement and what it gives when it does not fail. -/
def statement (failure : Option Nat) : Answer Unit :=
  match failure with
  | none => .ok ()
  | some code => .error (.catalog "SQLite error" code false)

/-! ## Transactions -/

/-- The text of a reused identity. -/
def reusedText : String := "Everett operation identity reused with a different request"

/-- What the body of a transaction leads to before its commit: the recorded outcome of a replay, or
the tables and the outcome of the apply step. -/
inductive Body
  | replayed (outcome : List UInt8)
  | applied (tables : Tables) (outcome : List UInt8)

/-- The statements of a transaction between its start and its commit. -/
def transactionBody (C : Context) (disk : Disk) (answers : Answers) (c : Database) (call : Call) :
    Answer Body := do
  statement answers.lookup
  match c.lookupOperation call.id with
  | some old => do
      demands (old.kind = call.work.action.kind ∧ old.request = call.work.action.request) reusedText
      statement answers.replay
      .ok (.replayed old.outcome)
  | none => do
      statement answers.apply
      let (tables, outcome) ← call.work.apply C disk c.tables
      statement answers.record
      .ok (.applied tables outcome)

/-- The journal with one more entry. -/
def Database.commit (c : Database) (call : Call) (tables : Tables) (outcome : List UInt8) : Database :=
  ⟨c.journal ++ [⟨call.id, call.work.action.kind, call.work.action.request, outcome⟩], tables⟩

/-- What a transaction leaves: the catalog, whether its handle is poisoned, and its answer. -/
structure Settled where
  catalog : Database
  poisons : Bool
  answer : Answer (List UInt8)

/-- The handler of a failure before the commit. -/
def settleFailure (c : Database) (answers : Answers) (failure : Failure) : Settled :=
  let stuck := !answers.ended && !answers.rolledBack
  match failure with
  | .catalog message code _ =>
      ⟨c, storageError code || stuck, .error (.catalog message code (storageError code || stuck))⟩
  | .exception message => ⟨c, stuck, .error (.exception message)⟩

/-- The commit of a transaction. -/
def settleCommit (c committed : Database) (answer : CommitAnswer) (outcome : List UInt8) : Settled :=
  match answer with
  | .acknowledged => ⟨committed, false, .ok outcome⟩
  | .lost code => ⟨committed, true, .error (.catalog "SQLite error" code true)⟩
  | .refused code => ⟨c, true, .error (.catalog "SQLite error" code true)⟩
  -- `SQLITE_PROTOCOL`
  | .skipped => ⟨c, true, .error (.catalog "SQLite error" 15 true)⟩

/-- `transaction`. -/
def transaction (C : Context) (disk : Disk) (answers : Answers) (c : Database) (call : Call) :
    Settled :=
  match statement answers.start with
  -- Nothing has begun, so there is nothing to roll back.
  | .error failure => settleFailure c { answers with ended := true } failure
  | .ok _ =>
      match transactionBody C disk answers c call with
      | .error failure => settleFailure c answers failure
      | .ok (.replayed outcome) => ⟨c, false, .ok outcome⟩
      | .ok (.applied tables outcome) =>
          settleCommit c (c.commit call tables outcome) answers.commit outcome

/-! ## Handles -/

/-- Where a handle is in its call. -/
inductive Task
  | idle
  | ready (call : Call)
  | settled (action : Action) (outcome : List UInt8)

/-- `sqlite_catalog`. -/
structure Handle where
  poisoned : Bool
  privateScope : Option ObjectId
  task : Task

/-- A handle which was just opened. -/
def Handle.opened : Handle := ⟨false, none, .idle⟩

/-- The catalog and its handles. -/
structure System where
  catalog : Database
  handles : Nat → Handle

/-- A new catalog, and handles which are opened as they are used. -/
def System.created : System := ⟨⟨[], .empty⟩, fun _ => .opened⟩

/-- Read-only calls. -/
inductive Query
  | lookupOperation (id : Text)
  | findSave (name : Text)
  | findTimeline (name : Text)
  | findSession (name : Text)
  | findSavedSession (name : Text)
  | sealedReceipt (id : ObjectId) (kind : FileKind)
  | verifySealed (receipt : Receipt) (kind : FileKind)

/-- What a read-only call returns. -/
inductive Found
  | operation (value : Option Entry)
  | save (value : Option BlobIdentity)
  | timeline (value : Option TimelineHead)
  | session (value : Option SessionHead)
  | receipt (value : Receipt)
  | verified

variable (C : Context)

/-- `find_session`. -/
def Tables.findSession (t : Tables) (name : Text) : Answer (Option SessionHead) :=
  match t.lastTimeline name with
  | none => .ok none
  | some head => do
      let session ← t.attachCheckpoint head
      .ok (some session)

/-- `find_saved_session`. -/
def Tables.findSavedSession (t : Tables) (name : Text) : Answer (Option SessionHead) :=
  match t.sessionSaves.find? (·.name = name) with
  | none => .ok none
  | some row => do
      let head ← demand (t.timelineAt row.sessionName row.generation)
        (.catalog "saved session generation disappeared" 11 false)
      let session ← t.attachCheckpoint head
      .ok (some session)

/-- A read-only call. -/
def Query.run (disk : Disk) (c : Database) : Query → Answer Found
  | .lookupOperation id => .ok (.operation (c.lookupOperation id))
  | .findSave name => .ok (.save (c.tables.findSave name))
  | .findTimeline timeline => do
      requireTimelines C
      name timeline
      .ok (.timeline (c.tables.lastTimeline timeline))
  | .findSession session => do
      requireSessions C
      name session
      let head ← c.tables.findSession session
      .ok (.session head)
  | .findSavedSession save => do
      requireSessions C
      name save
      let head ← c.tables.findSavedSession save
      .ok (.session head)
  | .sealedReceipt id kind => do
      let receipt ← Everett.Catalog.sealedReceipt C disk c.tables id kind
      .ok (.receipt receipt)
  | .verifySealed receipt kind => do
      Everett.Catalog.verifySealed C disk c.tables receipt kind
      .ok .verified

/-! ## Steps -/

/-- A step of one handle.  `failure` is an error of a read which the step makes. -/
inductive Event
  /-- A call starts. -/
  | start (handle : Nat) (id : Text) (operation : Operation) (disk : Disk) (failure : Option Nat)
  /-- The transaction of a call. -/
  | transact (handle : Nat) (disk : Disk) (answers : Answers)
  /-- A call returns. -/
  | finish (handle : Nat) (disk : Disk) (failure : Option Nat)
  /-- A read-only call. -/
  | query (handle : Nat) (query : Query) (disk : Disk) (failure : Option Nat)
  /-- `set_private_scope`. -/
  | setPrivateScope (handle : Nat) (id : ObjectId) (failure : Option Nat)

/-- What a step tells its caller. -/
inductive Response
  /-- The handle is not at such a step. -/
  | unused
  | refused (failure : Failure)
  | prepared (call : Call)
  | missed
  | acknowledged (call : Call) (outcome : List UInt8)
  | returned (action : Action) (value : Value)
  | found (value : Found)
  | entered

namespace System

variable (s : System)

/-- Replace a handle. -/
def setHandle (handle : Nat) (value : Handle) : System :=
  { s with handles := fun other => if other = handle then value else s.handles other }

/-- `require_active`. -/
def inactive : Failure := .exception "Everett catalog handle is inactive or poisoned"

/-- A failure on a read path: `read` poisons the handle on a storage error. -/
def refuse (handle : Nat) (failure : Failure) : System × Response :=
  let poisons := match failure with
    | .catalog _ code _ => storageError code
    | .exception _ => false
  let old := s.handles handle
  (s.setHandle handle { old with poisoned := old.poisoned || poisons, task := .idle },
    .refused failure)

/-- What a call reads before its transaction. -/
def prepared (handle : Nat) (id : Text) (operation : Operation) (disk : Disk)
    (failure : Option Nat) : Answer (Option Work) := do
  statement failure
  prepare C disk s.catalog (s.handles handle).privateScope id operation

/-- A call starts. -/
def start (handle : Nat) (id : Text) (operation : Operation) (disk : Disk)
    (failure : Option Nat) : System × Response :=
  match s.prepared C handle id operation disk failure with
  | .error failure => s.refuse handle failure
  | .ok none => (s, .missed)
  | .ok (some work) =>
      (s.setHandle handle { s.handles handle with task := .ready ⟨id, work⟩ }, .prepared ⟨id, work⟩)

/-- The handle and the response after a transaction. -/
def settle (handle : Nat) (call : Call) (result : Settled) : System × Response :=
  let next : System := { s with catalog := result.catalog }
  let old := s.handles handle
  match result.answer with
  | .ok outcome =>
      (next.setHandle handle { old with task := .settled call.work.action outcome },
        .acknowledged call outcome)
  | .error failure =>
      (next.setHandle handle { old with poisoned := old.poisoned || result.poisons, task := .idle },
        .refused failure)

/-- What a call reads after its transaction. -/
def finished (action : Action) (outcome : List UInt8) (disk : Disk) (failure : Option Nat) :
    Answer Value := do
  statement failure
  finish C disk s.catalog.tables outcome action

/-- A call returns. -/
def conclude (handle : Nat) (action : Action) (outcome : List UInt8) (disk : Disk)
    (failure : Option Nat) : System × Response :=
  match s.finished C action outcome disk failure with
  | .error failure => s.refuse handle failure
  | .ok value =>
      (s.setHandle handle { s.handles handle with task := .idle }, .returned action value)

/-- What a read-only call reads. -/
def answered (query : Query) (disk : Disk) (failure : Option Nat) : Answer Found := do
  statement failure
  query.run C disk s.catalog

/-- What `set_private_scope` reads. -/
def scopeActive (id : ObjectId) (failure : Option Nat) : Answer Unit := do
  requireSessions C
  statement failure
  requirePrivateScope s.catalog.tables id

/-- One step.  A poisoned handle refuses every call. -/
def step : Event → System × Response
  | .start handle id operation disk failure =>
      match (s.handles handle).poisoned, (s.handles handle).task with
      | true, _ => s.refuse handle inactive
      | false, .idle => s.start C handle id operation disk failure
      | false, _ => (s, .unused)
  | .transact handle disk answers =>
      match (s.handles handle).poisoned, (s.handles handle).task with
      | true, _ => s.refuse handle inactive
      | false, .ready call =>
          s.settle handle call (transaction C disk answers s.catalog call)
      | false, _ => (s, .unused)
  | .finish handle disk failure =>
      match (s.handles handle).poisoned, (s.handles handle).task with
      | true, _ => s.refuse handle inactive
      | false, .settled action outcome => s.conclude C handle action outcome disk failure
      | false, _ => (s, .unused)
  | .query handle query disk failure =>
      match (s.handles handle).poisoned, (s.handles handle).task with
      | true, _ => s.refuse handle inactive
      | false, .idle =>
          match s.answered C query disk failure with
          | .error failure => s.refuse handle failure
          | .ok value => (s, .found value)
      | false, _ => (s, .unused)
  | .setPrivateScope handle id failure =>
      match (s.handles handle).poisoned, (s.handles handle).task with
      | true, _ => s.refuse handle inactive
      | false, .idle =>
          match s.scopeActive C id failure with
          | .error failure => s.refuse handle failure
          | .ok _ => (s.setHandle handle { s.handles handle with privateScope := some id }, .entered)
      | false, _ => (s, .unused)

/-- Some steps, with what each told its caller. -/
def run : System → List Event → System × List Response
  | s, [] => (s, [])
  | s, event :: rest =>
      let (next, response) := s.step C event
      let (last, responses) := run next rest
      (last, response :: responses)

end System

end Everett.Catalog

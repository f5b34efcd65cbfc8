import Everett.Nursery.Version
import Everett.Connection.Install

/-!
# Transactions

A transaction edits a private nursery over a staged world over the world which it began with.  A
flush brings the nursery to a private core and stages its world; snapshots and branches share what
was frozen.
-/

namespace Everett

/-- `sort_semantics` of every sort.  States of some sorts are arrows. -/
structure SortSemantics {S : Type} (Key State Arrow : S → Type) where
  initial : (s : S) → Key s → State s
  apply : (s : S) → Key s → State s → Arrow s → State s
  compose : (s : S) → Key s → Arrow s → Arrow s → Arrow s
  present : (s : S) → Key s → State s → Bool
  erase : (s : S) → Key s → Arrow s
  replacement : S → Bool
  stateIsArrow : S → Bool
  /-- A state as the arrow which it is. -/
  quote : (s : S) → State s → Arrow s

/-- The transport of keys, and the codecs of arrows. -/
structure SortTransport {S : Type} (Key Arrow : S → Type) (E B X : Type) where
  encode : (s : S) → Key s → Except X E
  dispatch : E → Except X ((s : S) × Key s)
  value : (s : S) → Arrow s → Except X B
  arrow : (s : S) → B → Except X (Arrow s)

/-- Sorts whose arrows compose lawfully, and whose codecs round trip. -/
structure SortLaws {S : Type} {Key State Arrow : S → Type} {E B X : Type}
    (semantics : SortSemantics Key State Arrow) (transport : SortTransport Key Arrow E B X) :
    Prop where
  apply_compose : ∀ s key state older newer, semantics.replacement s = false →
    semantics.apply s key state (semantics.compose s key older newer) =
      semantics.apply s key (semantics.apply s key state older) newer
  apply_replacement : ∀ s key state state' arrow, semantics.replacement s = true →
    semantics.apply s key state arrow = semantics.apply s key state' arrow
  present_erase : ∀ s key state, semantics.replacement s = true →
    semantics.present s key (semantics.apply s key state (semantics.erase s key)) = false
  apply_quote : ∀ s key state state', semantics.stateIsArrow s = true →
    semantics.apply s key state (semantics.quote s state') = state'
  dispatch_encode : ∀ {s key e}, transport.encode s key = .ok e →
    transport.dispatch e = .ok ⟨s, key⟩
  arrow_value : ∀ {s arrow b}, transport.value s arrow = .ok b → transport.arrow s b = .ok arrow

/-- What a transaction throws. -/
inductive TransactionError (X : Type)
  | raised (error : X)
  /-- "closed Everett transaction" -/
  | closed
  /-- "failed Everett transaction; abort it" -/
  | failed
  /-- "transaction deletion targets an absent key" -/
  | absent
  /-- "duplicate key in typed batch" -/
  | duplicate
  /-- The session is gone. -/
  | sessionClosed
  /-- No memory holds a node; never thrown. -/
  | memory

/-- `nursery_value`. -/
structure NurseryValue (B : Type) where
  arrow : B
  original : Option B

/-- `stage`, without its construction scope. -/
structure TransactionStage (R : Type) where
  world : TypedWorld R
  changed : Bool

/-- A change of a key. -/
structure TypedEdit {S : Type} (Key Arrow : S → Type) where
  sort : S
  key : Key sort
  arrow : Arrow sort

section
variable {S : Type} {Key State Arrow : S → Type} {R C E B X : Type}

/-- `transaction`, with the edits which it accepted and the batches which its core was given. -/
structure Transaction (R C E B : Type) (Key Arrow : S → Type) where
  origin : StoredWorld R
  stage : TransactionStage R
  nursery : NurseryMap
  core : Option C
  closed : Bool
  failed : Bool
  edits : List (TypedEdit Key Arrow)
  flushed : List (List (E × B))

/-- `snapshot_type` of a transaction, with the same history. -/
structure TransactionSnapshot (R E B : Type) (Key Arrow : S → Type) where
  origin : StoredWorld R
  stage : TransactionStage R
  nursery : NurserySnapshot
  edits : List (TypedEdit Key Arrow)
  flushed : List (List (E × B))

/-- What a transaction works with. -/
structure TransactionEnv (S R C E B X : Type) (Key State Arrow : S → Type) where
  semantics : SortSemantics Key State Arrow
  transport : SortTransport Key Arrow E B X
  ops : CoreOps R C (List (E × B)) X
  /-- What a runtime says of every key. -/
  values : R → (p : (s : S) × Key s) → State p.1
  /-- `admission_ready`. -/
  ready : C → Bool
  budget : Nat
  /-- `prepare` of the store. -/
  persist : R → Except X Unit

/-- The error of the sorts, the core or the store. -/
def raise {α : Type} : Except X α → Except (TransactionError X) α
  | .ok a => .ok a
  | .error error => .error (.raised error)

namespace TransactionEnv

variable (env : TransactionEnv S R C E B X Key State Arrow)

/-- What `batch.change` records of an entry of the nursery. -/
def record (entry : E × NurseryValue B) : Except X (E × B) := do
  let decoded ← env.transport.dispatch entry.1
  let arrow ← env.transport.arrow decoded.1 entry.2.arrow
  let key ← env.transport.encode decoded.1 decoded.2
  let value ← env.transport.value decoded.1 arrow
  .ok (key, value)

/-- `while (!core_->admission_ready()) core_->advance(budget)`, to a bounded number of turns. -/
def serve : Nat → C → Option (Except X C)
  | 0, _ => none
  | turns + 1, core =>
      if env.ready core then some (.ok core)
      else match env.ops.advance core env.budget with
        | (.error error, _) => some (.error error)
        | (.ok _, core) => serve turns core

variable [LinearOrder E]

/-- `get`, of a nursery over a staged world. -/
def read (h : NurseryHeap E (NurseryValue B)) (root : Option Nat) (world : TypedWorld R) (s : S)
    (key : Key s) : Except (TransactionError X) (State s) := do
  let encoded ← raise (env.transport.encode s key)
  match NurseryMap.find h root encoded with
  | none => .error .memory
  | some none => .ok (env.values world.runtime ⟨s, key⟩)
  | some (some entry) =>
      let arrow ← raise (env.transport.arrow s entry.arrow)
      let before := if env.semantics.replacement s then env.semantics.initial s key
        else env.values world.runtime ⟨s, key⟩
      .ok (env.semantics.apply s key before arrow)

/-- `finish` of a batch: sort it and refuse a duplicate key. -/
def finish (records : List (E × B)) : Except (TransactionError X) (List (E × B)) :=
  let sorted := records.mergeSort fun a b => a.1 ≤ b.1
  if (sorted.map Prod.fst).IsChain (· ≠ ·) then .ok sorted else .error .duplicate

end TransactionEnv

namespace Transaction

variable (env : TransactionEnv S R C E B X Key State Arrow)

/-- `transaction(connection)`, over the world of its snapshot. -/
def start (world : StoredWorld R) : Transaction R C E B Key Arrow where
  origin := world
  stage := ⟨world.world, false⟩
  nursery := .empty
  core := none
  closed := false
  failed := false
  edits := []
  flushed := []

variable (h : NurseryHeap E (NurseryValue B)) (tx : Transaction R C E B Key Arrow)

/-- `require_active`. -/
def requireActive : Except (TransactionError X) Unit :=
  if tx.closed then .error .closed else if tx.failed then .error .failed else .ok ()

/-- `snapshot`. -/
def snapshot : TransactionSnapshot R E B Key Arrow × NurseryHeap E (NurseryValue B) :=
  let (nursery, h) := tx.nursery.freeze h
  (⟨tx.origin, tx.stage, nursery, tx.edits, tx.flushed⟩, h)

/-- `ensure_core`, without its construction scope and catalog connection. -/
def ensureCore : Except X C :=
  match tx.core with
  | some core => .ok core
  | none => env.ops.fromSnapshot tx.stage.world

variable [LinearOrder E]

/-- `get`. -/
def get (s : S) (key : Key s) : Except (TransactionError X) (State s) := do
  tx.requireActive
  env.read h tx.nursery.root tx.stage.world s key

/-- The staged state of a key, which a nursery of some sorts remembers. -/
def base (s : S) (key : Key s) (previous : Option (NurseryValue B)) :
    Except (TransactionError X) (State s) :=
  match previous, env.semantics.stateIsArrow s with
  | some entry, true => do
      let original ← Outcome.demand entry.original .memory
      let arrow ← raise (env.transport.arrow s original)
      .ok (env.semantics.apply s key (env.semantics.initial s key) arrow)
  | _, _ => .ok (env.values tx.stage.world.runtime ⟨s, key⟩)

/-- The state of a key with its buffered arrow. -/
def before (s : S) (key : Key s) (previous : Option (NurseryValue B)) (base : State s) :
    Except (TransactionError X) (State s) :=
  match previous with
  | none => .ok base
  | some entry => do
      let arrow ← raise (env.transport.arrow s entry.arrow)
      .ok (env.semantics.apply s key base arrow)

/-- The arrow which the nursery is to hold. -/
def combine (s : S) (key : Key s) (previous : Option (NurseryValue B)) (arrow : Arrow s) :
    Except (TransactionError X) (Arrow s) :=
  if env.semantics.replacement s then .ok arrow
  else match previous with
    | none => .ok arrow
    | some entry => do
        let older ← raise (env.transport.arrow s entry.arrow)
        .ok (env.semantics.compose s key older arrow)

/-- The original of a buffered entry. -/
def original (s : S) (base : State s) : Except (TransactionError X) (Option B) :=
  if env.semantics.stateIsArrow s then do
    let original ← raise (env.transport.value s (env.semantics.quote s base))
    .ok (some original)
  else .ok none

/-- The end of `change`: buffer an arrow to the new state, or nothing where that is the staged one. -/
def buffer [∀ s, DecidableEq (State s)] (s : S) (key : Key s) (arrow : Arrow s) (encoded : E)
    (previous : Option (NurseryValue B)) (base after : State s) :
    Except (TransactionError X) (Transaction R C E B Key Arrow × NurseryHeap E (NurseryValue B)) := do
  let combined ← combine env s key previous arrow
  let value ← raise (env.transport.value s combined)
  let edits := tx.edits ++ [⟨s, key, arrow⟩]
  if env.semantics.replacement s ∧ after = base then do
    let (nursery, h) ← Outcome.demand (tx.nursery.erase h encoded) .memory
    .ok ({ tx with nursery, edits }, h)
  else do
    let original ← original env s base
    let (nursery, h) ←
      Outcome.demand (tx.nursery.insertOrAssign h encoded ⟨value, original⟩) .memory
    .ok ({ tx with nursery, edits }, h)

/-- `change`; an exception leaves the transaction as it was. -/
def change [∀ s, DecidableEq (State s)] (s : S) (key : Key s) (arrow : Arrow s) :
    Except (TransactionError X) (Transaction R C E B Key Arrow × NurseryHeap E (NurseryValue B)) := do
  tx.requireActive
  let encoded ← raise (env.transport.encode s key)
  let previous ← Outcome.demand (NurseryMap.find h tx.nursery.root encoded) .memory
  let base ← tx.base env s key previous
  let before ← before env s key previous base
  let after := env.semantics.apply s key before arrow
  if env.semantics.replacement s ∧ env.semantics.present s key before = false ∧
      env.semantics.present s key after = false then .error .absent
  else tx.buffer env h s key arrow encoded previous base after

/-- `put` of a replacement sort; its states are arrows. -/
def put [∀ s, DecidableEq (State s)] (s : S) (key : Key s) (state : State s) :
    Except (TransactionError X) (Transaction R C E B Key Arrow × NurseryHeap E (NurseryValue B)) :=
  tx.change env h s key (env.semantics.quote s state)

/-- `erase`. -/
def erase [∀ s, DecidableEq (State s)] (s : S) (key : Key s) :
    Except (TransactionError X) (Transaction R C E B Key Arrow × NurseryHeap E (NurseryValue B)) :=
  tx.change env h s key (env.semantics.erase s key)

/-- The batch of a flush. -/
def batch : Except (TransactionError X) (List (E × B)) := do
  let entries ← Outcome.demand (NurseryMap.entries h tx.nursery.root) .memory
  let records ← raise (entries.mapM env.record)
  TransactionEnv.finish records

/-- What a flush does before its snapshot; it may go on for ever waiting for its core. -/
def stageBatch (turns : Nat) :
    Option (Except (TransactionError X) Unit × Transaction R C E B Key Arrow) :=
  match tx.requireActive with
  | .error error => some (.error error, tx)
  | .ok () =>
      if tx.nursery.size = 0 then some (.ok (), tx)
      else match tx.batch env h with
        | .error error => some (.error error, tx)
        | .ok input =>
            match tx.ensureCore env with
            | .error error => some (.error (.raised error), { tx with failed := true })
            | .ok core =>
                match env.serve turns core with
                | none => none
                | some (.error error) => some (.error (.raised error), { tx with failed := true })
                | some (.ok core) =>
                    match env.ops.contribute core input with
                    | (.error error, core) => some (.error (.raised error), { tx with
                        core := some core
                        failed := true })
                    | (.ok updated, core) =>
                        match env.persist updated.runtime with
                        | .error error => some (.error (.raised error), { tx with
                            core := some core
                            failed := true })
                        | .ok () => some (.ok (), { tx with
                            core := some core
                            stage := ⟨updated, true⟩
                            nursery := .empty
                            flushed := tx.flushed ++ [input] })

/-- What `commit_async` submits, once its nursery is staged. -/
def prepare : Except (TransactionError X) (PreparedTransaction R C (List (E × B))) :=
  if tx.stage.changed then do
    let core ← raise (tx.ensureCore env)
    .ok ⟨tx.origin, some core, tx.flushed⟩
  else .ok ⟨tx.origin, tx.core, tx.flushed⟩

/-- `abort`, and the release of a committed transaction. -/
def release : Transaction R C E B Key Arrow :=
  { tx with
    closed := true
    core := none }

end Transaction

namespace TransactionSnapshot

variable (env : TransactionEnv S R C E B X Key State Arrow) (h : NurseryHeap E (NurseryValue B))
  (saved : TransactionSnapshot R E B Key Arrow)

/-- `get`. -/
def get [LinearOrder E] (s : S) (key : Key s) : Except (TransactionError X) (State s) :=
  env.read h saved.nursery.root saved.stage.world s key

/-- `branch`. -/
def branch : Transaction R C E B Key Arrow where
  origin := saved.origin
  stage := saved.stage
  nursery := .thaw saved.nursery
  core := none
  closed := false
  failed := false
  edits := saved.edits
  flushed := saved.flushed

end TransactionSnapshot

/-! ## Transactions and snapshots side by side -/

/-- All transactions and snapshots over the worlds of a session. -/
structure TransactionSystem (R C E B : Type) (Key Arrow : S → Type) where
  heap : NurseryHeap E (NurseryValue B)
  transactions : Nat → Option (Transaction R C E B Key Arrow)
  snapshots : Nat → Option (TransactionSnapshot R E B Key Arrow)
  /-- Number of transactions so far. -/
  begun : Nat
  /-- Number of snapshots so far. -/
  taken : Nat

namespace TransactionSystem

/-- Before the first transaction. -/
def initial : TransactionSystem R C E B Key Arrow :=
  ⟨.initial, fun _ => none, fun _ => none, 0, 0⟩

variable (sys : TransactionSystem R C E B Key Arrow)

/-- Begin a transaction. -/
def enter (tx : Transaction R C E B Key Arrow) : TransactionSystem R C E B Key Arrow :=
  { sys with
    transactions := Function.update sys.transactions sys.begun (some tx)
    begun := sys.begun + 1 }

/-- A transaction goes on. -/
def update (i : Nat) (tx : Transaction R C E B Key Arrow) (heap : NurseryHeap E (NurseryValue B)) :
    TransactionSystem R C E B Key Arrow :=
  { sys with
    heap
    transactions := Function.update sys.transactions i (some tx) }

/-- Take a snapshot of a transaction. -/
def take (i : Nat) (tx : Transaction R C E B Key Arrow) : TransactionSystem R C E B Key Arrow :=
  let (saved, heap) := tx.snapshot sys.heap
  { sys with
    heap
    transactions := Function.update sys.transactions i (some tx)
    snapshots := Function.update sys.snapshots sys.taken (some saved)
    taken := sys.taken + 1 }

end TransactionSystem

/-- Calls by one transaction, or which begin it; a call that throws may fail its transaction.
Transactions begin with worlds which the session published. -/
inductive TransactionStep [LinearOrder E] [∀ s, DecidableEq (State s)]
    (env : TransactionEnv S R C E B X Key State Arrow) (published : StoredWorld R → Prop) :
    Nat → TransactionSystem R C E B Key Arrow → TransactionSystem R C E B Key Arrow → Prop
  | start {sys : TransactionSystem R C E B Key Arrow} {world : StoredWorld R}
      (current : published world) :
      TransactionStep env published sys.begun sys (sys.enter (.start world))
  | branch {sys : TransactionSystem R C E B Key Arrow} {j : Nat}
      {saved : TransactionSnapshot R E B Key Arrow} (here : sys.snapshots j = some saved) :
      TransactionStep env published sys.begun sys (sys.enter saved.branch)
  | change {sys : TransactionSystem R C E B Key Arrow} {i : Nat}
      {tx tx' : Transaction R C E B Key Arrow} {heap : NurseryHeap E (NurseryValue B)}
      (here : sys.transactions i = some tx) (s : S) (key : Key s) (arrow : Arrow s)
      (accepted : tx.change env sys.heap s key arrow = .ok (tx', heap)) :
      TransactionStep env published i sys (sys.update i tx' heap)
  | snapshot {sys : TransactionSystem R C E B Key Arrow} {i : Nat}
      {tx : Transaction R C E B Key Arrow} (here : sys.transactions i = some tx)
      (active : tx.requireActive (X := X) = .ok ()) :
      TransactionStep env published i sys (sys.take i tx)
  | flush {sys : TransactionSystem R C E B Key Arrow} {i : Nat}
      {tx tx' : Transaction R C E B Key Arrow} (here : sys.transactions i = some tx) (turns : Nat)
      (staged : tx.stageBatch env sys.heap turns = some (.ok (), tx')) :
      TransactionStep env published i sys (sys.take i tx')
  | flushFailed {sys : TransactionSystem R C E B Key Arrow} {i : Nat}
      {tx tx' : Transaction R C E B Key Arrow} (here : sys.transactions i = some tx) (turns : Nat)
      {error : TransactionError X}
      (thrown : tx.stageBatch env sys.heap turns = some (.error error, tx')) :
      TransactionStep env published i sys (sys.update i tx' sys.heap)
  | commit {sys : TransactionSystem R C E B Key Arrow} {i : Nat}
      {tx tx' : Transaction R C E B Key Arrow} (here : sys.transactions i = some tx) (turns : Nat)
      (staged : tx.stageBatch env sys.heap turns = some (.ok (), tx'))
      {prepared : PreparedTransaction R C (List (E × B))}
      (submitted : tx'.prepare env = .ok prepared) :
      TransactionStep env published i sys
        ((sys.take i tx').update i tx'.release (sys.take i tx').heap)
  | abort {sys : TransactionSystem R C E B Key Arrow} {i : Nat}
      {tx : Transaction R C E B Key Arrow} (here : sys.transactions i = some tx) :
      TransactionStep env published i sys (sys.update i tx.release sys.heap)

end

end Everett

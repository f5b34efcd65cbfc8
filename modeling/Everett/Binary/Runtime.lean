import Everett.Cola.Assembly

/-!
# The binary runtime

Every admission is at once a run of mass one.  When the two newest runs have equal mass, one carry
merges runs while the next older one has the mass of what was merged so far, and indexes the result
over the runs before it.  Of the 64-bit counters the two totals of the work are checked, which bound
all others.
-/

namespace Everett

open Outcome

variable (P : StoragePolicy)

/-- `cola_runtime_run`, with a node that is not null. -/
structure ColaRun where
  first : Nat
  last : Nat
  node : Shared (ColaIndex P)
  /-- `node->main_target()`. -/
  main : MainPointer P

/-- `cola_runtime_snapshot`. -/
structure ColaSnapshot where
  query : MainPointer P
  /-- Oldest first. -/
  runs : List (ColaRun P)
  admissions : Nat

/-- `phase` of a carry. -/
inductive ColaPhase
  | mergeStart
  | mergeStep
  | mergeFinish
  | indexStart
  | indexStep
  | indexFinish
  | publish
  deriving DecidableEq, Repr

/-- `continuation`. -/
structure ColaContinuation where
  /-- Runs before the ones which are merged. -/
  earlier : List (ColaRun P)
  older : ColaRun P
  carry : Shared (NativeArray P)
  first : Nat
  last : Nat
  target : MainPointer P
  head : MainPointer P
  resultNode : MainPointer P
  carrier : Bool
  stage : ColaPhase
  merge : Option (NativeMerge P)
  index : Option (ColaIndexBuilder P)

/-- `execution`. -/
structure ColaRuntime where
  composition : Composition P
  /-- Addresses handed out to arrays and nodes. -/
  allocated : Nat
  empty : Shared (NativeArray P)
  published : ColaSnapshot P
  job : Option (ColaContinuation P)
  charged : Nat
  granted : Nat
  credit : Nat
  failed : Bool

variable {P}

namespace ColaRun

/-- `node`. -/
def pointer (run : ColaRun P) : MainPointer P := run.node :: run.main

/-- `native_owner()`. -/
def native (run : ColaRun P) : Shared (NativeArray P) := run.node.value.native

/-- `mass()`. -/
def mass (run : ColaRun P) : Nat := run.last - run.first

end ColaRun

namespace ColaSnapshot

/-- `settled()`, of the newest runs first. -/
def settledRuns : List (ColaRun P) → Bool
  | newest :: older :: _ => older.mass ≠ newest.mass
  | _ => true

/-- `settled()`. -/
def settled (snapshot : ColaSnapshot P) : Bool := settledRuns snapshot.runs.reverse

/-- Nodes of a chain with a native run, newest first. -/
def sources : MainPointer P → List (Shared (ColaIndex P) × MainPointer P)
  | [] => []
  | node :: main =>
      if node.value.native.value.size ≠ 0 then (node, main) :: sources main else sources main

/-- `std::has_single_bit`. -/
def hasSingleBit (n : Nat) : Bool := n = 2 ^ n.log2

/-- The loop of `restore`, after an interval which ended at some admission. -/
def restoreRuns : Nat → Option Nat → List (Nat × Nat) → List (Shared (ColaIndex P) × MainPointer P) →
    Result (List (ColaRun P) × Nat)
  | next, previous, (first, last) :: intervals, (node, main) :: nodes => do
      let mass := last - first
      require (first = next ∧ first < last ∧ hasSingleBit mass = true ∧ ∀ before ∈ previous,
        mass < before ∨ (intervals = [] ∧ before = 1 ∧ mass = 1)) "invalid runtime admission frontier"
      require (node.value.native.value.size ≤ mass) "runtime native exceeds admission mass"
      let (runs, next) ← restoreRuns last (some mass) intervals nodes
      .ok (⟨first, last, node, main⟩ :: runs, next)
  | next, _, _, _ => .ok ([], next)

/-- `restore`. -/
def restore (head : MainPointer P) (intervals : List (Nat × Nat)) : Result (ColaSnapshot P) := do
  let query ← adoptPrepared head
  let nodes := (sources query).reverse
  require (nodes.length = intervals.length) "runtime interval count differs from query graph"
  let (runs, next) ← restoreRuns 0 none intervals nodes
  .ok ⟨query, runs, next⟩

/-- The intervals of the runs. -/
def intervals (snapshot : ColaSnapshot P) : List (Nat × Nat) :=
  snapshot.runs.map fun run => (run.first, run.last)

end ColaSnapshot

/-- `near`: drop empty routing ancestors up to a virtual size. -/
def nearWithin (limit : Nat) : MainPointer P → MainPointer P
  | node :: next :: main =>
      if node.value.native.value.size = 0 ∧ MainPointer.virtualSize (next :: main) ≤ limit then
        nearWithin limit (next :: main)
      else node :: next :: main
  | target => target

/-- `near`. -/
def near (target : MainPointer P) (mass : Nat) : MainPointer P :=
  nearWithin (if maximum64 / P.groupSize < mass then maximum64 else mass * P.groupSize) target

namespace ColaContinuation

/-- `continuation(source)`, which needs two runs. -/
def start (source : ColaSnapshot P) : Result (ColaContinuation P) :=
  match source.runs.reverse with
  | newest :: older :: earlier => .ok {
      earlier := earlier.reverse
      older
      carry := newest.native
      first := newest.first
      last := newest.last
      target := older.main
      head := []
      resultNode := []
      carrier := false
      stage := .mergeStart
      merge := none
      index := none }
  | _ => .error "runtime carry needs two runs"

end ColaContinuation

namespace ColaRuntime

/-- `grant`. -/
def grant (e : ColaRuntime P) (amount : Nat) : Result (ColaRuntime P) := do
  let credit ← ProfileDetail.add e.credit amount
  let granted ← ProfileDetail.add e.granted amount
  .ok { e with credit, granted }

/-- `direct`: grant and charge at once. -/
def direct (e : ColaRuntime P) (amount : Nat) : Result (ColaRuntime P) := do
  let charged ← ProfileDetail.add e.charged amount
  let granted ← ProfileDetail.add e.granted amount
  .ok { e with charged, granted }

/-- `charge`. -/
def charge (e : ColaRuntime P) (amount : Nat) : Result (ColaRuntime P) := do
  let charged ← ProfileDetail.add e.charged amount
  .ok { e with charged, credit := e.credit - amount }

/-- Give an array an address. -/
def shareNative (e : ColaRuntime P) (native : NativeArray P) :
    ColaRuntime P × Shared (NativeArray P) :=
  ({ e with allocated := e.allocated + 1 }, ⟨e.allocated, native⟩)

/-- `from_built`: give an index an address. -/
def shareNode (e : ColaRuntime P) (index : ColaIndex P) :
    ColaRuntime P × Shared (ColaIndex P) :=
  ({ e with allocated := e.allocated + 1 }, ⟨e.allocated, index⟩)

/-- The loop of `immediate_index`. -/
def indexAll : Nat → ColaRuntime P → ColaIndexBuilder P →
    Result (ColaRuntime P × ColaIndexBuilder P)
  | 0, e, builder => .ok (e, builder)
  | fuel + 1, e, builder =>
      if builder.done then .ok (e, builder)
      else do
        let e ← e.direct 1
        let e ← e.direct P.groupSize
        let e ← e.direct 5
        let (builder, _) ← builder.step 1
        indexAll fuel e builder

/-- `immediate_index`. -/
def immediateIndex (e : ColaRuntime P) (native : Shared (NativeArray P)) (target : MainPointer P) :
    Result (ColaRuntime P × Shared (ColaIndex P)) := do
  let e ← e.direct 5
  let builder ← ColaIndexBuilder.start native target none
  let (e, builder) ← indexAll (ColaIndexBuilder.extent native target none + 1) e builder
  let entries ← ProfileDetail.add (ceilDiv target.groupCount P.codecBlockSize) 2
  let e ← e.direct entries
  let e ← e.direct 3
  let (_, index) ← builder.finish
  .ok (e.shareNode index)

/-- `start_job`. -/
def startJob (e : ColaRuntime P) : Result (ColaRuntime P) := do
  let entries ← ProfileDetail.add e.published.runs.length 1
  let e ← e.direct entries
  let job ← ColaContinuation.start e.published
  .ok { e with job := some job }

/-- Start a carry unless the published runs are settled. -/
def carry (e : ColaRuntime P) : Result (ColaRuntime P) :=
  if e.published.settled = true then .ok e else e.startJob

/-- `admit`. -/
def admitRecord (e : ColaRuntime P) (record : ProfileRecord) : Result (ColaRuntime P) := do
  let e ← e.direct 1
  let writer ← NativeWriter.start P
  let e ← e.direct 1
  let writer ← writer.append P record
  let e ← e.direct 2
  let (_, frames) ← writer.finish
  let array ← NativeArray.fromOwned P frames
  let (e, native) := e.shareNative array
  let main := e.published.query
  let (e, node) ← e.immediateIndex native main
  let next ← ProfileDetail.add e.published.admissions 1
  let runs := e.published.runs ++ [⟨e.published.admissions, next, node, main⟩]
  let entries ← ProfileDetail.add runs.length (main.length + 1)
  let entries ← ProfileDetail.add entries 1
  let e ← e.direct entries
  let query ← adoptPrepared (node :: main)
  { e with published := ⟨query, runs, next⟩ }.carry

/-- `price`. -/
def price (j : ColaContinuation P) : Result Nat :=
  match j.stage with
  | .mergeStart => .ok 3
  | .mergeStep => .ok 3
  | .mergeFinish => do
      let merge ← demand j.merge "null runtime merge"
      ProfileDetail.add (ceilDiv merge.progress.keys P.codecBlockSize) 2
  | .indexStart => .ok 5
  | .indexStep => ProfileDetail.add P.groupSize 6
  | .indexFinish => ProfileDetail.add (ceilDiv j.target.groupCount P.codecBlockSize) 5
  | .publish => do
      let entries ← ProfileDetail.add j.earlier.length j.head.length
      ProfileDetail.add entries 2

/-- What is merged next, or indexed when the run before has another mass. -/
def afterMerge (j : ColaContinuation P) : ColaContinuation P :=
  match j.earlier.reverse with
  | before :: rest =>
      if before.mass = j.last - j.first then { j with
        older := before
        earlier := rest.reverse
        target := before.main
        stage := .mergeStart }
      else { j with
        target := near j.target (j.last - j.first)
        stage := .indexStart }
  | [] => { j with
      target := near j.target (j.last - j.first)
      stage := .indexStart }

/-- What is done with an index: the result, or a carrier, gets a carrier while it is large. -/
def afterIndex (j : ColaContinuation P) (node : Shared (ColaIndex P)) : ColaContinuation P :=
  let head := node :: j.target
  let resultNode := if j.carrier then j.resultNode else head
  if P.groupSize < node.value.virtualSize then { j with
    index := none
    head
    resultNode
    target := head
    carrier := true
    stage := .indexStart }
  else { j with
    index := none
    head
    resultNode
    stage := .publish }

/-- `perform`. -/
def perform (e : ColaRuntime P) (j : ColaContinuation P) : Result (ColaRuntime P) :=
  match j.stage with
  | .mergeStart => do
      let merge ← NativeMerge.start e.composition j.older.native.value j.carry.value
      .ok { e with job := some { j with
        merge := some merge
        stage := if merge.done then .mergeFinish else .mergeStep } }
  | .mergeStep => do
      let merge ← demand j.merge "null runtime merge"
      let (merge, _) ← merge.step 1
      .ok { e with job := some { j with
        merge := some merge
        stage := if merge.done then .mergeFinish else j.stage } }
  | .mergeFinish => do
      let merge ← demand j.merge "null runtime merge"
      let (_, frames) ← merge.finish
      let array ← NativeArray.fromOwned P frames
      let (e, carry) := e.shareNative array
      .ok { e with job := some (afterMerge { j with
        carry
        merge := none
        first := j.older.first }) }
  | .indexStart => do
      let index ← ColaIndexBuilder.start (if j.carrier then e.empty else j.carry) j.target none
      .ok { e with job := some { j with
        index := some index
        stage := if index.done then .indexFinish else .indexStep } }
  | .indexStep => do
      let index ← demand j.index "null runtime index"
      let (index, _) ← index.step 1
      .ok { e with job := some { j with
        index := some index
        stage := if index.done then .indexFinish else j.stage } }
  | .indexFinish => do
      let index ← demand j.index "null runtime index"
      let (_, built) ← index.finish
      let (e, node) := e.shareNode built
      .ok { e with job := some (afterIndex j node) }
  | .publish =>
      match j.resultNode with
      | [] => .error "null runtime result"
      | node :: main => do
          let query ← adoptPrepared j.head
          .ok { e with
            published := ⟨query, j.earlier ++ [⟨j.first, j.last, node, main⟩], j.last⟩
            job := none
            credit := 0 }

/-- The loop of `serve`; every turn spends credit. -/
def serveLoop : Nat → ColaRuntime P → Result (ColaRuntime P)
  | 0, e => .ok e
  | fuel + 1, e =>
      match e.job with
      | none => .ok e
      | some j => do
          let amount ← price j
          if e.credit < amount then .ok e
          else do
            let e ← e.charge amount
            let e ← e.perform j
            serveLoop fuel e

/-- `serve`. -/
def serve (e : ColaRuntime P) : Result (ColaRuntime P) := serveLoop (e.credit + 1) e

/-- Grant what an action lacks. -/
def afford (e : ColaRuntime P) (amount : Nat) : Result (ColaRuntime P) :=
  if e.credit < amount then e.grant (amount - e.credit) else .ok e

/-- A turn of `drain`: grant what the next action lacks, and serve. -/
def drainTurn (e : ColaRuntime P) (j : ColaContinuation P) : Result (ColaRuntime P) := do
  let amount ← price j
  let e ← e.afford amount
  e.serve

/-- `drain`, to a bounded number of turns. -/
def drain : Nat → ColaRuntime P → Option (Result (ColaRuntime P))
  | 0, _ => none
  | turns + 1, e =>
      match e.job with
      | none => some (.ok e)
      | some j =>
          match e.drainTurn j with
          | .ok e => drain turns e
          | .error error => some (.error error)

/-- Admit a record and serve. -/
def admitServed (e : ColaRuntime P) (record : ProfileRecord) (serviceBudget : Nat) :
    Result (ColaRuntime P) := do
  let e ← e.admitRecord record
  if serviceBudget ≠ 0 ∧ e.job.isSome = true then do
    let e ← e.grant serviceBudget
    e.serve
  else .ok e

/-- The loop of `contribute`. -/
def admitAll (turns serviceBudget : Nat) :
    List ProfileRecord → ColaRuntime P → Option (Result (ColaRuntime P))
  | [], e => some (.ok e)
  | record :: records, e =>
      match e.drain turns with
      | none => none
      | some (.error error) => some (.error error)
      | some (.ok e) =>
          match e.admitServed record serviceBudget with
          | .error error => some (.error error)
          | .ok e => admitAll turns serviceBudget records e

/-- Preflight of `contribute`, after a record with some key. -/
def preflight : Option BitString → List ProfileRecord → Result Unit
  | _, [] => .ok ()
  | previous, record :: records => do
      require (P.Aligned record.key ∧ P.ValidValue record.value ∧
        ∀ before ∈ previous, before ≤ record.key) "invalid encoded runtime contribution"
      preflight (some record.key) records

/-! ## Calls -/

/-- `cola_runtime(compose)`. -/
def start (composition : Composition P) : Result (ColaRuntime P) := do
  let empty : Shared (NativeArray P) := ⟨0, ProfileArray.empty⟩
  let builder ← ColaIndexBuilder.start empty [] none
  let (_, index) ← builder.finish
  let query ← adoptPrepared [⟨1, index⟩]
  let e : ColaRuntime P := {
    composition
    allocated := 2
    empty
    published := ⟨query, [], 0⟩
    job := none
    charged := 0
    granted := 0
    credit := 0
    failed := false }
  let e ← e.direct 2
  let e ← e.direct 3
  e.direct 2

/-- `from_snapshot`. -/
def fromSnapshot (allocated : Nat) (source : ColaSnapshot P) (composition : Composition P) :
    Result (ColaRuntime P) := do
  let e : ColaRuntime P := {
    composition
    allocated := allocated + 1
    empty := ⟨allocated, ProfileArray.empty⟩
    published := source
    job := none
    charged := 0
    granted := 0
    credit := 0
    failed := false }
  let e ← e.direct 1
  let e ← e.direct 1
  e.carry

/-- What an exception leaves: the snapshot before the call. -/
def poison (e : ColaRuntime P) : ColaRuntime P := { e with failed := true }

/-- `contribute` of a batch. -/
def contribute (e : ColaRuntime P) (records : List ProfileRecord) (serviceBudget turns : Nat) :
    Option (Result (ColaSnapshot P) × ColaRuntime P) :=
  if e.failed then some (.error "failed COLA runtime", e)
  else match (do
      let _ ← ProfileDetail.add e.published.admissions records.length
      preflight (P := P) none records) with
    | .error error => some (.error error, e)
    | .ok _ =>
        match admitAll turns serviceBudget records e with
        | none => none
        | some (.error error) => some (.error error, e.poison)
        | some (.ok next) => some (.ok next.published, next)

/-- `try_contribute`: a pending carry refuses. -/
def tryContribute (e : ColaRuntime P) (record : ProfileRecord) (serviceBudget turns : Nat) :
    Option (Result (Option (ColaSnapshot P)) × ColaRuntime P) :=
  if e.failed then some (.error "failed COLA runtime", e)
  else if e.job.isSome = true then some (.ok none, e)
  else (e.contribute [record] serviceBudget turns).map fun answer =>
    (some <$> answer.1, answer.2)

/-- `advance`. -/
def advance (e : ColaRuntime P) (budget : Nat) : Result (ColaSnapshot P) × ColaRuntime P :=
  if e.failed then (.error "failed COLA runtime", e)
  else if budget = 0 ∨ e.job.isNone = true then (.ok e.published, e)
  else match e.grant budget >>= serve with
    | .error error => (.error error, e.poison)
    | .ok next => (.ok next.published, next)

end ColaRuntime

end Everett

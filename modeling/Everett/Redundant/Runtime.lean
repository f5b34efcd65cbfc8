import Everett.Redundant.Execution

/-!
# The redundant runtime

The calls of `redundant_runtime`.  A call which throws poisons the runtime, so a sequence of calls
ends with the first error.
-/

namespace Everett

open Outcome

variable {P : StoragePolicy}

/-- `validate`: whole units, and the common width if there is one. -/
def validateContribution (record : ProfileRecord) : Result Unit :=
  require (P.Aligned record.key ∧ P.ValidValue record.value)
    "invalid encoded redundant contribution"

namespace Execution

/-- `initial`: the snapshot of no admissions. -/
def initialSnapshot (pair : MainPointer P) : RedundantSnapshot P :=
  ⟨⟨0, 1, 0, .none, [.fresh P]⟩, pair, []⟩

/-- A fresh executor. -/
def start (composition : Composition P) : Result (Execution P) := do
  let empty : Shared (NativeArray P) := ⟨0, ProfileArray.empty⟩
  let builder ← ColaIndexBuilder.start empty [] none
  let (_, index) ← builder.finish
  let pair : MainPointer P := [⟨1, index⟩]
  let query ← adoptPrepared pair
  let e : Execution P := {
    composition
    allocated := 2
    emptyNative := empty
    emptyPair := pair
    levels := fun _ => .fresh P
    workers := fun _ => none
    height := 1
    admissions := 0
    nextIdentity := 1
    unsafeLevels := ∅
    credit := 0
    serviceDue := 0
    root := .none
    query
    published := initialSnapshot pair
    work := ⟨0, 0, 0⟩
    failed := false
    recovery := false
    checkpointPending := false
    changed := false }
  e.direct 8

/-- `writable`. -/
def writable (e : Execution P) : Result Unit :=
  require (e.failed = false) "failed redundant runtime"

/-- `pending`. -/
def pending (e : Execution P) : Bool := e.unsafeLevels ≠ ∅ || e.checkpointPending

/-- `checkpoint` of the runtime: charge and publish a full frontier. -/
def checkpointNow (e : Execution P) : Result (Execution P) := do
  e.writable
  let e ← e.direct e.checkpointPrice
  e.checkpoint

/-- Grant a budget, pay what is due from it and work as far as it goes. -/
def fund (e : Execution P) (budget : Nat) : Result (Execution P) := do
  let e ← e.grant budget
  { e with serviceDue := e.serviceDue - min e.serviceDue budget }.serve

/-- `advance`. -/
def advance (e : Execution P) (budget : Nat) : Result (Execution P) := do
  e.writable
  if budget = 0 ∨ e.pending = false then .ok e else e.fund budget

/-- `try_contribute`: admit when ready, and say whether it did. -/
def tryContribute (e : Execution P) (record : ProfileRecord) (budget : Nat) :
    Result (Execution P × Bool) := do
  e.writable
  if e.ready = false then .ok (e, false)
  else do
    validateContribution (P := P) record
    let e ← e.admitRecord record
    if budget = 0 then .ok (e, true)
    else do
      let e ← e.fund budget
      .ok (e, true)

/-- Work on what keeps a runtime from admitting. -/
def makeReady (e : Execution P) (allowance : Nat) : Result (Execution P) :=
  if e.ready = true then .ok e else e.advance allowance

/-- `contribute`. -/
def contribute (e : Execution P) (record : ProfileRecord) : Result (Execution P) := do
  e.writable
  validateContribution (P := P) record
  let allowance := serviceBudget P (e.admissions + 1)
  let e ← e.makeReady allowance
  require (e.ready = true) "redundant admission needs additional recovery service"
  let (e, _) ← e.tryContribute record allowance
  .ok e

end Execution

/-- A call of the runtime. -/
inductive RedundantCall
  | contribute (record : ProfileRecord)
  | tryContribute (record : ProfileRecord) (budget : Nat)
  | advance (budget : Nat)
  | checkpoint
  deriving DecidableEq, Repr

namespace RedundantCall

/-- What a call does to the runtime. -/
def run (call : RedundantCall) (e : Execution P) : Result (Execution P) :=
  match call with
  | contribute record => e.contribute record
  | tryContribute record budget => Prod.fst <$> e.tryContribute record budget
  | advance budget => e.advance budget
  | checkpoint => e.checkpointNow

/-- Records of the admissions which a call asks for. -/
def records : RedundantCall → List ProfileRecord
  | contribute record => [record]
  | tryContribute record _ => [record]
  | advance _ => []
  | checkpoint => []

/-- Calls in order, up to the first error. -/
def runAll (calls : List RedundantCall) (e : Execution P) : Result (Execution P) :=
  calls.foldlM (fun e call => call.run e) e

end RedundantCall

end Everett

import Everett.Catalog.Files
import Everett.Library.Traced

/-!
# Operations of the object writer

System calls on the four handles of one output, their outcomes, and the private operation of
`object_writer`, which opens, writes and finishes it.
-/

namespace Everett.Object

open Catalog (ObjectId)
open Traced

/-- The handles `fds`: root, first shard, leaf and object. -/
inductive Handle
  | root
  | first
  | leaf
  | object
  deriving DecidableEq, Repr

/-- Calls of the operating system; handles stand for the descriptors which they hold. -/
inductive Syscall
  | openRoot (path : List UInt8)
  | makeDirectory (parent : Handle) (name : List UInt8)
  | openDirectory (parent : Handle) (name : List UInt8) (opened : Handle)
  | createPrivate (parent : Handle) (name : List UInt8)
  | write (bytes : List UInt8)
  | writeAt (bytes : List UInt8) (position : Nat)
  | makeReadOnly
  | syncFile
  | syncDirectory (directory : Handle)
  | install (parent : Handle) (source target : List UInt8)
  | removePrivate (parent : Handle) (name : List UInt8)
  | close (handle : Handle)
  deriving DecidableEq, Repr

/-- Returned value of a call, with `errno`. -/
structure SyscallResult where
  value : Int
  errno : Int
  deriving DecidableEq, Repr

/-- A call with its outcome. -/
abbrev Event := Syscall × SyscallResult

/-- `EINTR`. -/
def eintr : Int := 4

/-- `EIO`. -/
def eio : Int := 5

/-- `EEXIST`. -/
def eexist : Int := 17

/-- `object_write_stage`. -/
inductive Stage
  | starting
  | privateCreated
  | bodyWritten
  | contentSynced
  | nameInstalled
  | namesSynced
  | privateRemoved
  | complete
  deriving DecidableEq, Repr

/-- A path under a root, by its components. -/
structure Path where
  root : List UInt8
  names : List (List UInt8)
  deriving DecidableEq, Repr

/-- `object_write_paths`. -/
structure WritePaths where
  final : Path
  privateOutput : Path
  deriving DecidableEq, Repr

/-- What one operation is about. -/
structure Target where
  root : List UInt8
  id : ObjectId
  attempt : ObjectId
  kind : FileKind

namespace Target

variable (target : Target)

/-- The extension of a file kind. -/
def extension (kind : FileKind) : List UInt8 :=
  match kind with
  | .nativeBlob => ".kv".toUTF8.toList
  | .fractionalIndex => ".index".toUTF8.toList

def firstName : List UInt8 := target.id.hex.take 2

def secondName : List UInt8 := (target.id.hex.drop 2).take 2

def finalName : List UInt8 := target.id.hex.drop 4 ++ extension target.kind

def privateName : List UInt8 :=
  ".".toUTF8.toList ++ target.finalName ++ ".attempt-".toUTF8.toList ++ target.attempt.hex

/-- `object_output_paths`. -/
def paths : WritePaths where
  final := ⟨target.root, [target.firstName, target.secondName, target.finalName]⟩
  privateOutput := ⟨target.root, [target.firstName, target.secondName, target.privateName]⟩

end Target

/-- `object_write_error`. -/
structure WriteError where
  errno : Int
  operation : String
  object : ObjectId
  attempt : ObjectId
  paths : WritePaths
  stage : Stage

/-- Mutable fields of `operation`. -/
structure Operation where
  fds : Handle → Int
  stage : Stage

/-- What a failing writer throws. -/
inductive Fault
  /-- Rejected before any system call. -/
  | rejected (text : String)
  | failed (error : WriteError)

/-- A program over system calls. -/
abbrev Program := Traced Syscall SyscallResult Operation Fault

namespace Operation

/-- Before the first call. -/
def fresh : Operation := ⟨fun _ => -1, .starting⟩

/-- The handle which a call opens. -/
def opens : Syscall → Option Handle
  | .openRoot _ => some .root
  | .openDirectory _ _ opened => some opened
  | .createPrivate _ _ => some .object
  | _ => none

/-- `std::exchange` before a call which closes a handle. -/
def issued (request : Syscall) (operation : Operation) : Operation :=
  match request with
  | .close handle => { operation with fds := Function.update operation.fds handle (-1) }
  | _ => operation

/-- The assignment of a descriptor which a call returns. -/
def returned (request : Syscall) (outcome : SyscallResult) (operation : Operation) : Operation :=
  match opens request with
  | some handle => { operation with fds := Function.update operation.fds handle outcome.value }
  | none => operation

end Operation

/-- Whether the writer goes on after a call. -/
def accepted : Syscall → SyscallResult → Bool
  | .makeDirectory _ _, outcome => 0 ≤ outcome.value || outcome.errno == eexist
  | _, outcome => 0 ≤ outcome.value

variable (target : Target)

/-- `fail`: the stage is the one of the moment. -/
def failure (what : String) (errno : Int) (operation : Operation) : Fault :=
  .failed
    { errno := if errno = 0 then eio else errno
      operation := what
      object := target.id
      attempt := target.attempt
      paths := target.paths
      stage := operation.stage }

def failWith {α : Type} (what : String) (errno : Int) : Program α := do
  let operation ← read
  fail (failure target what errno operation)

/-- One call, and `fail` unless it succeeds. -/
def perform (request : Syscall) (what : String) : Program Unit := do
  update (Operation.issued request)
  let outcome ← issue request
  update (Operation.returned request outcome)
  if accepted request outcome then pure () else failWith target what outcome.errno

/-- `stage = …`. -/
def reach (stage : Stage) : Program Unit :=
  update fun operation => { operation with stage := stage }

/-- `create object shard`, `open object shard`. -/
def openShard (parent : Handle) (name : List UInt8) (child : Handle) : Program Unit := do
  perform target (.makeDirectory parent name) "create object shard"
  perform target (.openDirectory parent name child) "open object shard"

/-- `operation::open`. -/
def openFiles : Program Unit := do
  perform target (.openRoot target.root) "open object root"
  openShard target .root target.firstName .first
  openShard target .first target.secondName .leaf
  perform target (.createPrivate .leaf target.privateName) "create private object"
  reach .privateCreated

/-- Largest request of one write. -/
def writeUnit : Nat := 2 ^ 20

/-- The loop of `write_all` and `write_at`: interrupted calls are issued again, short writes go on
behind what was written. -/
def transferLoop (request : List UInt8 → Nat → Syscall) (what : String) (operation : Operation) :
    List UInt8 → Nat → List SyscallResult → Ran Syscall SyscallResult Operation Fault Unit
  | [], _, outcomes => ⟨[], operation, some (.ok ()), outcomes⟩
  | _ :: _, _, [] => ⟨[], operation, none, []⟩
  | byte :: bytes, position, outcome :: rest =>
      let part := (byte :: bytes).take writeUnit
      let event := (request part position, outcome)
      let next :=
        if outcome.value < 0 then
          if outcome.errno = eintr then
            transferLoop request what operation (byte :: bytes) position rest
          else ⟨[], operation, some (.error (failure target what outcome.errno operation)), rest⟩
        else if outcome.value = 0 ∨ part.length < outcome.value.toNat then
          ⟨[], operation, some (.error (failure target what eio operation)), rest⟩
        else
          transferLoop request what operation ((byte :: bytes).drop outcome.value.toNat)
            (position + outcome.value.toNat) rest
      { next with events := event :: next.events }
termination_by structural _ _ outcomes => outcomes

/-- `write_all`. -/
def writeAll (bytes : List UInt8) : Program Unit := fun operation outcomes =>
  transferLoop target (fun part _ => .write part) "write object body" operation bytes 0 outcomes

/-- `write_at`. -/
def writeAt (bytes : List UInt8) (position : Nat) (what : String) : Program Unit :=
  fun operation outcomes =>
    transferLoop target Syscall.writeAt what operation bytes position outcomes

/-- `write_header`. -/
def writeHeader (bytes : List UInt8) : Program Unit :=
  writeAt target bytes 0 "write object header"

/-- `operation::finish`. -/
def finish : Program Unit := do
  perform target .makeReadOnly "protect object"
  perform target .syncFile "sync object contents"
  reach .contentSynced
  perform target (.install .leaf target.privateName target.finalName)
    "install object without replacement"
  reach .nameInstalled
  perform target (.syncDirectory .leaf) "sync object directory"
  perform target (.syncDirectory .first) "sync object directory"
  perform target (.syncDirectory .root) "sync object directory"
  reach .namesSynced
  perform target (.removePrivate .leaf target.privateName) "remove private object name"
  reach .privateRemoved
  perform target (.syncDirectory .leaf) "sync private name removal"
  perform target .syncFile "sync installed object"
  perform target (.close .object) "close sealed object handles"
  perform target (.close .leaf) "close sealed object handles"
  perform target (.close .first) "close sealed object handles"
  perform target (.close .root) "close sealed object handles"
  reach .complete

/-- Close one handle if it is open, whatever the call returns. -/
def closeOpen (handle : Handle) : Program Unit := do
  let operation ← read
  if 0 ≤ operation.fds handle then
    update (Operation.issued (.close handle))
    let _ ← issue (.close handle)
    pure ()
  else pure ()

/-- The destructor of an operation. -/
def destroy : Program Unit := do
  closeOpen .object
  closeOpen .leaf
  closeOpen .first
  closeOpen .root

end Everett.Object

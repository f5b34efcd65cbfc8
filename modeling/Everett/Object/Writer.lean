import Everett.File.Canonical
import Everett.Object.Trace

/-!
# The object writer

`object_writer::seal`: checks without a system call, then one private file with a blank header,
the body in parts, the header in front of it, and the calls which install it.
-/

namespace Everett.Object

open Traced FileDetail Outcome
open Catalog (ObjectId)

/-- `object_sync_barrier`. -/
inductive SyncBarrier
  | fsync
  | appleFullFsync
  deriving DecidableEq, Repr

/-- `object_seal_receipt`. -/
structure SealReceipt where
  object : ObjectId
  attempt : ObjectId
  path : Path
  bytes : UInt64
  bodyCrc32c : UInt32
  barrier : SyncBarrier

/-- `crc32c` with the checksum of the bytes before. -/
def crc32cFrom (bytes : List UInt8) (previous : UInt32) : UInt32 :=
  ~~~ (bytes.foldl Crc32c.update (~~~ previous))

theorem crc32cFrom_zero (bytes : List UInt8) : crc32cFrom bytes 0 = crc32c bytes := rfl

theorem crc32cFrom_append (front back : List UInt8) (previous : UInt32) :
    crc32cFrom (front ++ back) previous = crc32cFrom back (crc32cFrom front previous) := by
  unfold crc32cFrom
  rw [List.foldl_append, UInt32.not_not]

theorem crc32cFrom_nil (previous : UInt32) : crc32cFrom [] previous = previous :=
  UInt32.not_not

variable (P : StoragePolicy) (target : Target)

/-- The loop over the chunks: bytes supplied so far, and the last one of them. -/
def supply (bodySize : UInt64) : Nat → UInt8 → List (List UInt8) → Result (Nat × UInt8)
  | supplied, last, [] => .ok (supplied, last)
  | supplied, last, chunk :: rest => do
      require (chunk.length ≤ bodySize.toNat - supplied) "Everett body extent mismatch"
      supply bodySize (supplied + chunk.length) (chunk.getLast?.getD last) rest

/-- The padding of a bit profile, from the last body byte. -/
def requirePadding (extent : UInt64) (last : UInt8) : Result Unit :=
  require (¬(P.unit = .bit ∧ extent.toNat % 8 ≠ 0 ∧
      last.toNat % 2 ^ (8 - extent.toNat % 8) ≠ 0))
    "noncanonical bit-profile tail padding"

/-- The checks before the first system call; they answer the size of the file. -/
def checkSeal (header : FileHeader) (chunks : List (List UInt8)) : Result UInt64 := do
  validateMetadata P header
  let bodySize := bodyBytes P header.extent
  let totalSize ← totalBytes P header.extent
  require (totalSize ≤ 0x7fffffffffffffff) "Everett object exceeds supported file offsets"
  let (supplied, last) ← supply bodySize 0 0 chunks
  require (supplied = bodySize.toNat) "Everett body extent mismatch"
  requirePadding P header.extent last
  .ok totalSize

/-- The parts of one chunk. -/
def writeChunk (chunk : List UInt8) (crc : UInt32) : Program UInt32 :=
  if chunk = [] then pure crc
  else do
    writeAll target (chunk.take writeUnit)
    writeChunk (chunk.drop writeUnit) (crc32cFrom (chunk.take writeUnit) crc)
termination_by chunk.length
decreasing_by
  rename_i present
  rw [List.length_drop]
  exact Nat.sub_lt (List.length_pos_iff.mpr present) (by decide)

/-- The loop over the chunks. -/
def writeChunks : List (List UInt8) → UInt32 → Program UInt32
  | [], crc => pure crc
  | chunk :: rest, crc => do
      let crc ← writeChunk target chunk crc
      writeChunks rest crc

/-- The header behind the body, and the end of the operation. -/
def sealHeader (header : FileHeader) (crc : UInt32) : Program UInt32 :=
  match encodeFileHeader P header crc with
  | .error text => fail (.rejected text)
  | .ok encoded => do
      writeHeader target encoded
      reach .bodyWritten
      finish target
      pure crc

/-- The system calls of `seal`. -/
def sealFile (header : FileHeader) (chunks : List (List UInt8)) : Program UInt32 := do
  openFiles target
  writeAll target (List.replicate headerBytes 0)
  let crc ← writeChunks target chunks 0
  sealHeader P target header crc

/-- `seal`, with the outcomes of its system calls. -/
def «seal» (barrier : SyncBarrier) (header : FileHeader) (chunks : List (List UInt8)) :
    Program SealReceipt :=
  match checkSeal P header chunks with
  | .error text => fail (.rejected text)
  | .ok totalSize => onFailure destroy do
      let crc ← sealFile P target header chunks
      pure
        { object := target.id
          attempt := target.attempt
          path := target.paths.final
          bytes := totalSize
          bodyCrc32c := crc
          barrier := barrier }

/-! ## The body -/

/-- Acknowledged sequential writes of some bytes. -/
structure Written (bytes : List UInt8) (events : List Event) : Prop where
  sequential : ∀ event ∈ events, ∃ part, event.1 = .write part ∧ Delivered part event.2
  extends_file : ∀ content, File.replay ⟨content, content.length⟩ events =
    ⟨content ++ bytes, (content ++ bytes).length⟩

theorem Written.nil : Written [] [] where
  sequential := fun event member => absurd member List.not_mem_nil
  extends_file := by simp

theorem Written.append {front back : List UInt8} {events later : List Event}
    (one : Written front events) (two : Written back later) :
    Written (front ++ back) (events ++ later) where
  sequential := by
    rw [List.forall_mem_append]
    exact ⟨one.sequential, two.sequential⟩
  extends_file := by
    intro content
    rw [File.replay_append, one.extends_file, two.extends_file, List.append_assoc]

/-- Sequential writes whose last one was not acknowledged. -/
def BrokenWrites (operation : Operation) (events : List Event) (fault : Fault) : Prop :=
  ∃ before part outcome what errno, events = before ++ [(.write part, outcome)] ∧
    (∀ event ∈ before, ∃ part, event.1 = .write part ∧ Delivered part event.2) ∧
    ¬Delivered part outcome ∧ fault = failure target what errno operation

/-- The runs which write some bytes and answer a value. -/
def streams {α : Type} (bytes : List UInt8) (value : α) :
    Task Syscall SyscallResult Operation Fault α where
  completes operation events answer last := last = operation ∧ answer = value ∧
    Written bytes events
  breaks operation events fault last := last = operation ∧
    BrokenWrites target operation events fault
  waits _ events := ∀ event ∈ events, ∃ part, event.1 = .write part ∧ Delivered part event.2

variable {target}

theorem follows_writeAll (bytes : List UInt8) :
    Traced.Follows (writeAll target bytes) (streams target bytes ()) := by
  have sequential : ∀ {bytes left : List UInt8} {position last : Nat} {events : List Event},
      Transfers (fun part _ => .write part) bytes position events left last →
      ∀ event ∈ events, ∃ part, event.1 = .write part ∧ Delivered part event.2 := by
    intro bytes left position last events transfers
    induction transfers with
    | stop => exact fun event member => absurd member List.not_mem_nil
    | interrupted present negative signal more induction =>
        rw [List.forall_mem_cons]
        exact ⟨⟨_, rfl, .inl ⟨negative, signal⟩⟩, induction⟩
    | advanced present positive within more induction =>
        rw [List.forall_mem_cons]
        exact ⟨⟨_, rfl, .inr ⟨positive, within⟩⟩, induction⟩
  have loop : Traced.Follows (writeAll target bytes)
      (transfer target (fun part _ => .write part) "write object body" bytes 0) :=
    fun operation outcomes => transferLoop_spec target _ _ operation bytes 0 outcomes
  refine loop.mono ?_ ?_ ?_
  · rintro operation events _ last ⟨same, transfers⟩
    refine ⟨same, rfl, sequential transfers, fun content => ?_⟩
    obtain ⟨written, split, replayed⟩ := transfers.replay_append content
    rw [List.append_nil] at split
    rw [replayed, split]
  · rintro operation events fault last ⟨same, before, left, current, outcome, errno, present,
      transfers, rfl, refuses, rfl⟩
    exact ⟨same, before, _, outcome, _, errno, rfl, sequential transfers, refuses, rfl⟩
  · rintro operation events ⟨left, current, present, transfers⟩
    exact sequential transfers

/-- Bytes written one after the other. -/
theorem follows_stream {α β : Type} {first : Program α} {next : α → Program β}
    {front back : List UInt8} {a : α} {value : α → β} (one : Traced.Follows first (streams target front a))
    (two : ∀ a, Traced.Follows (next a) (streams target back (value a))) :
    Traced.Follows (first >>= next) (streams target (front ++ back) (value a)) := by
  refine (one.bind two).mono ?_ ?_ ?_
  · rintro operation _ answer last ⟨before, later, _, middle, rfl, ⟨rfl, rfl, written⟩,
      ⟨rfl, rfl, more⟩⟩
    exact ⟨rfl, rfl, written.append more⟩
  · rintro operation events fault last (⟨same, broken⟩ |
      ⟨before, later, _, middle, rfl, ⟨rfl, rfl, written⟩, ⟨same, broken⟩⟩)
    · exact ⟨same, broken⟩
    · obtain ⟨early, part, outcome, what, errno, rfl, sequential, refuses, rfl⟩ := broken
      refine ⟨same, before ++ early, part, outcome, what, errno, by simp, ?_, refuses, rfl⟩
      rw [List.forall_mem_append]
      exact ⟨written.sequential, sequential⟩
  · rintro operation events (waits | ⟨before, later, _, middle, rfl, ⟨rfl, rfl, written⟩, waits⟩)
    · exact waits
    · show ∀ event ∈ before ++ later, _
      rw [List.forall_mem_append]
      exact ⟨written.sequential, waits⟩

theorem follows_writeChunk (chunk : List UInt8) (crc : UInt32) :
    Traced.Follows (writeChunk target chunk crc) (streams target chunk (crc32cFrom chunk crc)) := by
  induction length : chunk.length using Nat.strong_induction_on generalizing chunk crc with
  | _ size induction =>
      rw [writeChunk]
      split
      · rename_i empty
        subst empty
        rw [crc32cFrom_nil]
        exact fun _ _ => ⟨rfl, rfl, .nil⟩
      · rename_i present
        have shorter : (chunk.drop writeUnit).length < size := by
          rw [List.length_drop, ← length]
          exact Nat.sub_lt (List.length_pos_iff.mpr present) (by decide)
        have stream := follows_stream (follows_writeAll (chunk.take writeUnit)) fun _ =>
          induction _ shorter (chunk.drop writeUnit) (crc32cFrom (chunk.take writeUnit) crc) rfl
        rw [List.take_append_drop, ← crc32cFrom_append, List.take_append_drop] at stream
        exact stream

theorem follows_writeChunks (chunks : List (List UInt8)) (crc : UInt32) :
    Traced.Follows (writeChunks target chunks crc)
      (streams target chunks.flatten (crc32cFrom chunks.flatten crc)) := by
  induction chunks generalizing crc with
  | nil =>
      rw [List.flatten_nil, crc32cFrom_nil]
      exact fun _ _ => ⟨rfl, rfl, .nil⟩
  | cons chunk rest induction =>
      have stream := follows_stream (follows_writeChunk chunk crc) induction
      rw [← crc32cFrom_append] at stream
      exact stream

/-! ## The header -/

/-- Acknowledged positioned writes which patch the header. -/
def PositionedWrites (events : List Event) : Prop :=
  ∀ event ∈ events, ∃ part position, event.1 = .writeAt part position ∧ Delivered part event.2

/-- Writing of a header notes the stage with its last byte. -/
theorem Transfers.noteStage {bytes left : List UInt8} {position last : Nat}
    {events : List Event} (transfers : Transfers Syscall.writeAt bytes position events left last)
    (ends : position + bytes.length = headerBytes) (stage : Stage) :
    events.foldl Object.noteStage stage =
      if left = [] ∧ bytes ≠ [] then .bodyWritten else stage := by
  induction transfers with
  | stop => simp +contextual
  | @interrupted bytes left position last outcome events present negative signal more induction =>
      have kept : Object.noteStage stage (.writeAt (bytes.take writeUnit) position, outcome) =
          stage := if_neg fun noted => absurd noted.1 (not_lt.mpr negative.le)
      rw [List.foldl_cons, kept]
      exact induction ends
  | @advanced bytes left position last outcome events present positive within more induction =>
      have covered := within.trans (List.length_take_le' _ _)
      rw [List.foldl_cons]
      by_cases complete : outcome.value.toNat = bytes.length
      · have noted : Object.noteStage stage (.writeAt (bytes.take writeUnit) position, outcome) =
            .bodyWritten := if_pos ⟨positive, by rw [complete]; exact ends⟩
        rw [complete, List.drop_length] at more
        cases more with
        | stop =>
            rw [noted]
            simp [present]
        | interrupted empty _ _ _ => exact absurd rfl empty
        | advanced empty _ _ _ => exact absurd rfl empty
      · have kept : Object.noteStage stage (.writeAt (bytes.take writeUnit) position, outcome) =
            stage := if_neg fun noted => complete (by omega)
        have rest : bytes.drop outcome.value.toNat ≠ [] := by
          rw [Ne, List.drop_eq_nil_iff]
          omega
        rw [kept, induction (by rw [List.length_drop]; omega)]
        simp [rest, present]

theorem Transfers.positioned {bytes left : List UInt8} {position last : Nat}
    {events : List Event}
    (transfers : Transfers Syscall.writeAt bytes position events left last) :
    PositionedWrites events := by
  induction transfers with
  | stop => exact fun event member => absurd member List.not_mem_nil
  | interrupted present negative signal more induction =>
      unfold PositionedWrites
      rw [List.forall_mem_cons]
      exact ⟨⟨_, _, rfl, .inl ⟨negative, signal⟩⟩, induction⟩
  | advanced present positive within more induction =>
      unfold PositionedWrites
      rw [List.forall_mem_cons]
      exact ⟨⟨_, _, rfl, .inr ⟨positive, within⟩⟩, induction⟩

/-! ## Phases -/

/-- Writes do not touch descriptors. -/
theorem replay_writes {events : List Event} (writes : ∀ event ∈ events, IsWrite event.1)
    (operation : Operation) : operation.replay events = operation := by
  induction events generalizing operation with
  | nil => rfl
  | cons event events induction =>
      rw [List.forall_mem_cons] at writes
      have same : operation.after event = operation := by
        rcases event with ⟨request, outcome⟩
        cases request with
        | write bytes => rfl
        | writeAt bytes position => rfl
        | _ => exact absurd writes.1 id
      rw [Operation.replay, List.foldl_cons, same]
      exact induction writes.2 operation

theorem sequential_notes {events : List Event}
    (sequential : ∀ event ∈ events, ∃ part, event.1 = .write part ∧ Delivered part event.2)
    (stage : Stage) : events.foldl Object.noteStage stage = stage := by
  induction events with
  | nil => rfl
  | cons event events induction =>
      rw [List.forall_mem_cons] at sequential
      obtain ⟨part, same, -⟩ := sequential.1
      rcases event with ⟨request, outcome⟩
      cases same
      exact induction sequential.2

theorem sequential_writes {events : List Event}
    (sequential : ∀ event ∈ events, ∃ part, event.1 = .write part ∧ Delivered part event.2) :
    ∀ event ∈ events, IsWrite event.1 ∧ Acknowledged event := by
  intro event member
  obtain ⟨part, same, delivered⟩ := sequential event member
  rcases event with ⟨request, outcome⟩
  cases same
  exact ⟨trivial, delivered⟩

theorem positioned_writes {events : List Event} (positioned : PositionedWrites events) :
    ∀ event ∈ events, IsWrite event.1 ∧ Acknowledged event := by
  intro event member
  obtain ⟨part, position, same, delivered⟩ := positioned event member
  rcases event with ⟨request, outcome⟩
  cases same
  exact ⟨trivial, delivered⟩

/-- What a writer has done so far: acknowledged calls in the order of the protocol. -/
structure Progress (target : Target) (image : List UInt8) (operation : Operation)
    (opened written finished : List Event) : Prop where
  ordered : Ordered target image opened written finished
  acknowledged : ∀ event ∈ opened ++ written ++ finished, Acknowledged event
  stage : operation.stage = stageOf (opened ++ written ++ finished)
  fds : operation.fds = (Operation.fresh.replay (opened ++ written ++ finished)).fds

/-- How a writer may stop: the last call was not acknowledged. -/
def Stops (target : Target) (image : List UInt8) (events : List Event) (fault : Fault)
    (last : Operation) : Prop :=
  ∃ opened written finished before bad what errno operation,
    events = opened ++ written ++ finished ∧ Ordered target image opened written finished ∧
      events = before ++ [bad] ∧ (∀ event ∈ before, Acknowledged event) ∧ ¬Acknowledged bad ∧
      operation.stage = stageOf before ∧ fault = failure target what errno operation ∧
      last.fds = (Operation.fresh.replay events).fds

/-- The header is complete, and the file is finished. -/
def sealing (target : Target) (crc : UInt32) :
    Task Syscall SyscallResult Operation Fault UInt32 where
  completes operation events answer last := answer = crc ∧
    Completes (finishSteps target) { operation with stage := .bodyWritten } events last
  breaks operation events fault last :=
    (script target (finishSteps target)).breaks { operation with stage := .bodyWritten } events
      fault last
  waits operation events :=
    (script target (finishSteps target)).waits { operation with stage := .bodyWritten } events

theorem follows_sealing (crc : UInt32) :
    Traced.Follows (reach .bodyWritten >>= fun _ => finish target >>= fun _ => pure crc)
      (sealing target crc) := by
  intro operation outcomes
  have whole : ((script target (finishSteps target)).andThen fun _ => Task.done crc).Allows _ _ :=
    (follows_finish target).bind (fun _ => follows_pure crc)
      { operation with stage := .bodyWritten } outcomes
  change (sealing target crc).Allows operation ((finish target >>= fun _ => pure crc)
    { operation with stage := .bodyWritten } outcomes)
  refine whole.imp ?_ ?_ ?_
  · rintro events answer last ⟨before, later, _, middle, rfl, completes, rfl, rfl, rfl⟩
    rw [List.append_nil]
    exact ⟨rfl, completes⟩
  · rintro events fault last (breaks | ⟨_, _, _, _, _, _, impossible⟩)
    · exact breaks
    · exact impossible.elim
  · rintro events (waits | ⟨_, _, _, _, _, _, impossible⟩)
    · exact waits
    · exact impossible.elim

variable {P} {header : FileHeader}

theorem follows_sealHeader {crc : UInt32} {encoded : List UInt8}
    (encodes : encodeFileHeader P header crc = .ok encoded) :
    Traced.Follows (sealHeader P target header crc)
      ((transfer target Syscall.writeAt "write object header" encoded 0).andThen
        fun _ => sealing target crc) := by
  unfold sealHeader
  rw [encodes]
  exact Traced.Follows.bind (fun operation outcomes => transferLoop_spec target _ _ operation encoded 0
    outcomes) fun _ => follows_sealing crc

/-- All phases of a writer. -/
def writing (P : StoragePolicy) (target : Target) (header : FileHeader) (total : UInt64)
    (body : List UInt8) : Task Syscall SyscallResult Operation Fault UInt32 :=
  (script target (openSteps target)).andThen fun _ =>
    (streams target (List.replicate headerBytes 0 ++ body) (crc32cFrom body 0)).andThen fun crc =>
      (transfer target Syscall.writeAt "write object header" (headerImage P header crc total)
        0).andThen fun _ => sealing target crc

theorem follows_sealFile {total : UInt64} {chunks : List (List UInt8)}
    (metadata : validateMetadata P header = .ok ())
    (sized : totalBytes P header.extent = .ok total) :
    Traced.Follows (sealFile P target header chunks) (writing P target header total chunks.flatten) := by
  unfold sealFile
  refine Traced.Follows.bind (follows_openFiles target) fun _ => ?_
  rw [← bind_assoc]
  refine Traced.Follows.bind ?_ fun crc => follows_sealHeader (encodeFileHeader_ok metadata sized)
  let checksum : Unit → UInt32 := fun _ => crc32cFrom chunks.flatten 0
  have chunked : ∀ u, Traced.Follows (writeChunks target chunks 0)
      (streams target chunks.flatten (checksum u)) := fun _ => follows_writeChunks chunks 0
  exact follows_stream (follows_writeAll (List.replicate headerBytes 0)) chunked

/-- Outcomes of a writer: it returns after the whole protocol, stops, or waits. -/
def sealed (target : Target) (image : List UInt8) (crc : UInt32) :
    Task Syscall SyscallResult Operation Fault UInt32 where
  completes _ events answer last := answer = crc ∧ ∃ opened written finished,
    events = opened ++ written ++ finished ∧ Progress target image last opened written finished ∧
      opened.map Prod.fst = openCalls target ∧ finished.map Prod.fst = finishCalls target
  breaks _ events fault last := Stops target image events fault last
  waits _ events := ∃ opened written finished, events = opened ++ written ++ finished ∧
    Ordered target image opened written finished ∧ ∀ event ∈ events, Acknowledged event

/-- The header in front of the body. -/
theorem patch_header {encoded body : List UInt8} (length : encoded.length = headerBytes) :
    File.patch (List.replicate headerBytes 0 ++ body) 0 encoded = encoded ++ body := by
  simp [File.patch, ByteFields.overwrite, length]

theorem written_content {encoded body : List UInt8} {events later : List Event} {last : Nat}
    (length : encoded.length = headerBytes)
    (written : Written (List.replicate headerBytes 0 ++ body) events)
    (transfers : Transfers Syscall.writeAt encoded 0 later [] last) :
    (File.blank.replay (events ++ later)).content = encoded ++ body := by
  have start : File.blank.replay events = _ := written.extends_file []
  obtain ⟨all, split, -, replayed⟩ := transfers.replay_patch
    (File.replay ⟨[], 0⟩ events) (by
      rw [show File.replay ⟨[], 0⟩ events = _ from start]
      simp [length])
  rw [List.append_nil] at split
  subst split
  rw [File.replay_append, show File.blank.replay events = File.replay ⟨[], 0⟩ events from rfl,
    replayed, show File.replay ⟨[], 0⟩ events = _ from start]
  exact patch_header length

/-- The handles of a new file. -/
theorem opened_progress {events : List Event} {last : Operation}
    (completes : Completes (openSteps target) .fresh events last) :
    events.map Prod.fst = openCalls target ∧ (∀ event ∈ events, Acknowledged event) ∧
      last.stage = stageOf events ∧ last.fds = (Operation.fresh.replay events).fds :=
  ⟨completes.calls, completes.acknowledged (openSteps_calls target), completes.stage (openSteps_agree target),
    completes.fds⟩

theorem replay_append (operation : Operation) (events later : List Event) :
    operation.replay (events ++ later) = (operation.replay events).replay later :=
  List.foldl_append

theorem stageOf_append (events later : List Event) :
    stageOf (events ++ later) = later.foldl Object.noteStage (stageOf events) :=
  List.foldl_append

/-- Acknowledged calls behind the complete image. -/
theorem finished_progress {image : List UInt8} {opened written finished : List Event}
    {first last : Operation} {steps rest : List Step}
    (opened_all : opened.map Prod.fst = openCalls target)
    (opened_acknowledged : ∀ event ∈ opened, Acknowledged event)
    (writes : ∀ event ∈ written, IsWrite event.1 ∧ Acknowledged event)
    (content : (File.blank.replay written).content = image)
    (stage : stageOf (opened ++ written) = .bodyWritten)
    (fds : first.fds = (Operation.fresh.replay opened).fds)
    (split : finishSteps target = steps ++ rest)
    (completes : Completes steps { first with stage := .bodyWritten } finished last) :
    Progress target image last opened written finished where
  ordered :=
    { opened_calls := opened_all ▸ List.prefix_rfl
      opened_all := fun _ => opened_all
      writes := fun event member => (writes event member).1
      finished_calls := by
        rw [completes.calls, finishCalls, split, List.map_append]
        exact List.prefix_append _ _
      content := fun _ => content }
  acknowledged := by
    rw [List.forall_mem_append, List.forall_mem_append]
    refine ⟨⟨opened_acknowledged, fun event member => (writes event member).2⟩, ?_⟩
    have calls := finishSteps_calls target
    rw [split] at calls
    exact completes.acknowledged fun step member => calls step (List.mem_append_left _ member)
  stage := by
    have agrees := finishSteps_agree target
    rw [split] at agrees
    rw [completes.stage agrees.of_append, stageOf_append, stage]
  fds := by
    rw [completes.fds, replay_append, replay_append,
      replay_writes (fun event member => (writes event member).1)]
    exact replay_fds _ fds

/-- Calls before the image is complete. -/
theorem writes_ordered {image : List UInt8} {opened written : List Event}
    (opened_all : opened.map Prod.fst = openCalls target)
    (writes : ∀ event ∈ written, IsWrite event.1) : Ordered target image opened written [] where
  opened_calls := opened_all ▸ List.prefix_rfl
  opened_all := fun _ => opened_all
  writes := writes
  finished_calls := List.nil_prefix
  content := fun present => absurd rfl present

/-- A write which was not acknowledged stops the writer. -/
theorem write_stops {image : List UInt8} {opened before : List Event} {bad : Event}
    {what : String} {errno : Int} {operation : Operation}
    (opened_all : opened.map Prod.fst = openCalls target)
    (opened_acknowledged : ∀ event ∈ opened, Acknowledged event)
    (writes : ∀ event ∈ before, IsWrite event.1 ∧ Acknowledged event) (write : IsWrite bad.1)
    (refuses : ¬Acknowledged bad) (stage : operation.stage = stageOf (opened ++ before))
    (fds : operation.fds = (Operation.fresh.replay opened).fds) :
    Stops target image (opened ++ (before ++ [bad])) (failure target what errno operation)
      operation := by
  have all : ∀ event ∈ before ++ [bad], IsWrite event.1 := by
    rw [List.forall_mem_append]
    exact ⟨fun event member => (writes event member).1, by simpa using write⟩
  refine ⟨opened, before ++ [bad], [], opened ++ before, bad, what, errno, operation, by simp,
    writes_ordered opened_all all, by simp, ?_, refuses, stage, rfl, ?_⟩
  · rw [List.forall_mem_append]
    exact ⟨opened_acknowledged, fun event member => (writes event member).2⟩
  · rw [replay_append, replay_writes all, fds]

theorem sealFile_spec {total : UInt64} {body : List UInt8}
    {ran : Ran Syscall SyscallResult Operation Fault UInt32}
    (allowed : (writing P target header total body).Allows .fresh ran) :
    (sealed target (headerImage P header (crc32c body) total ++ body) (crc32c body)).Allows
      .fresh ran := by
  have length := length_headerImage P header (crc32c body) total
  -- the header and the body behind it, once both are written
  have whole : ∀ {opened events later : List Event} {first : Operation} {last : Nat},
      Completes (openSteps target) .fresh opened first →
      Written (List.replicate headerBytes 0 ++ body) events →
      Transfers Syscall.writeAt (headerImage P header (crc32c body) total) 0 later [] last →
      (∀ event ∈ events ++ later, IsWrite event.1 ∧ Acknowledged event) ∧
        stageOf (opened ++ (events ++ later)) = .bodyWritten := by
    intro opened events later first last completes written transfers
    constructor
    · rw [List.forall_mem_append]
      exact ⟨sequential_writes written.sequential, positioned_writes transfers.positioned⟩
    · have present : headerImage P header (crc32c body) total ≠ [] := by
        intro empty
        rw [empty] at length
        cases length
      rw [stageOf_append, List.foldl_append, sequential_notes written.sequential,
        transfers.noteStage (by rw [length, Nat.zero_add]), if_pos ⟨rfl, present⟩]
  refine allowed.imp ?_ ?_ ?_
  · rintro _ answer last ⟨opened, _, _, first, rfl, completes, events, _, _, middle, rfl,
      ⟨rfl, rfl, written⟩, later, finished, _, same, rfl, ⟨rfl, transfers⟩, rfl, finishes⟩
    obtain ⟨all, acknowledged, -, fds⟩ := opened_progress completes
    obtain ⟨writes, stage⟩ := whole completes written transfers
    refine ⟨rfl, opened, events ++ later, finished, by simp, ?_, all, finishes.calls⟩
    exact finished_progress all acknowledged writes (written_content length written transfers)
      stage fds (List.append_nil _).symm finishes
  · rintro events fault last (breaks | ⟨opened, _, _, first, rfl, completes, breaks⟩)
    · -- a call before the first write
      obtain ⟨made, step, rest, before, outcome, middle, split, completes, refuses, rfl, rfl,
        rfl⟩ := breaks
      have part : ((before ++ [(step.request, outcome)]).map Prod.fst) <+: openCalls target := by
        rw [List.map_append, completes.calls, openCalls, split]
        simp
      have calls := openSteps_calls target
      have agrees := openSteps_agree target
      rw [split] at calls agrees
      refine ⟨before ++ [(step.request, outcome)], [], [], before, (step.request, outcome),
        step.what, outcome.errno, middle, by simp, ?_, rfl, ?_, ?_, ?_, rfl, ?_⟩
      · exact ⟨part, by simp, by simp, by simp, by simp⟩
      · exact completes.acknowledged fun other member => calls other (by simp [member])
      · exact refused_call (calls step (by simp)) refuses
      · exact completes.stage agrees.of_append
      · rw [replay_append]
        exact after_fds _ completes.fds
    · obtain ⟨all, acknowledged, firstStage, fds⟩ := opened_progress completes
      rcases breaks with ⟨rfl, broken⟩ |
        ⟨events, _, _, middle, rfl, ⟨rfl, rfl, written⟩, ⟨rfl, broken⟩ |
          ⟨later, _, _, inner, rfl, ⟨rfl, transfers⟩, breaks⟩⟩
      · -- a write of the body
        obtain ⟨before, part, outcome, what, errno, rfl, sequential, refuses, rfl⟩ := broken
        refine write_stops all acknowledged (sequential_writes sequential) trivial refuses ?_ fds
        rw [stageOf_append, sequential_notes sequential, firstStage]
      · -- a write of the header
        obtain ⟨before, left, current, outcome, errno, present, transfers, rfl, refuses, rfl⟩ :=
          broken
        rw [← List.append_assoc events]
        refine write_stops all acknowledged ?_ trivial refuses ?_ fds
        · rw [List.forall_mem_append]
          exact ⟨sequential_writes written.sequential, positioned_writes transfers.positioned⟩
        · rw [stageOf_append, List.foldl_append, sequential_notes written.sequential,
            transfers.noteStage (by rw [crc32cFrom_zero, length, Nat.zero_add]),
            if_neg fun ends => present ends.1, firstStage]
      · -- a call behind the complete image
        obtain ⟨made, step, rest, before, outcome, reached, split, finishes, refuses, rfl, rfl,
          rfl⟩ := breaks
        obtain ⟨writes, stage⟩ := whole completes written transfers
        have progress := finished_progress all acknowledged writes
          (written_content length written transfers) stage fds split finishes
        have calls := finishSteps_calls target
        rw [split] at calls
        refine ⟨opened, events ++ later, before ++ [(step.request, outcome)],
          opened ++ (events ++ later) ++ before, (step.request, outcome), step.what,
          outcome.errno, reached, by simp, ?_, by simp, progress.acknowledged,
          refused_call (calls step (by simp)) refuses, progress.stage, rfl, ?_⟩
        · refine ⟨all ▸ List.prefix_rfl, fun _ => all, fun event member => (writes event member).1,
            ?_, fun _ => written_content length written transfers⟩
          rw [List.map_append, finishes.calls, finishCalls, split]
          simp
        · rw [show opened ++ (events ++ (later ++ (before ++ [(step.request, outcome)]))) =
            opened ++ (events ++ later) ++ before ++ [(step.request, outcome)] by simp,
            replay_append]
          exact after_fds _ progress.fds
  · rintro events (waits | ⟨opened, _, _, first, rfl, completes, waits⟩)
    · obtain ⟨made, step, rest, middle, split, completes⟩ := waits
      have calls := openSteps_calls target
      rw [split] at calls
      refine ⟨events, [], [], by simp, ⟨?_, by simp, by simp, by simp, by simp⟩,
        completes.acknowledged fun other member => calls other (by simp [member])⟩
      rw [completes.calls, openCalls, split, List.map_append]
      exact List.prefix_append _ _
    · obtain ⟨all, acknowledged, -, fds⟩ := opened_progress completes
      -- acknowledged writes, none of which completed the image
      have partly : ∀ {written : List Event},
          (∀ event ∈ written, IsWrite event.1 ∧ Acknowledged event) →
          (sealed target (headerImage P header (crc32c body) total ++ body) (crc32c body)).waits
            .fresh (opened ++ written) := by
        intro written writes
        refine ⟨opened, written, [], by simp,
          writes_ordered all fun event member => (writes event member).1, ?_⟩
        rw [List.forall_mem_append]
        exact ⟨acknowledged, fun event member => (writes event member).2⟩
      rcases waits with sequential | ⟨events, _, _, middle, rfl, ⟨rfl, rfl, written⟩,
        ⟨left, current, present, transfers⟩ |
          ⟨later, _, _, inner, rfl, ⟨rfl, transfers⟩, waits⟩⟩
      · exact partly (sequential_writes sequential)
      · refine partly ?_
        rw [List.forall_mem_append]
        exact ⟨sequential_writes written.sequential, positioned_writes transfers.positioned⟩
      · obtain ⟨made, step, rest, reached, split, finishes⟩ := waits
        obtain ⟨writes, stage⟩ := whole completes written transfers
        have progress := finished_progress all acknowledged writes
          (written_content length written transfers) stage fds split finishes
        refine ⟨opened, events ++ later, _, by simp, progress.ordered, ?_⟩
        have done := progress.acknowledged
        simpa using done

end Everett.Object

import Everett.Object.Release

/-!
# Contract of the object writer

Whatever the system calls answer, a receipt stands for the complete protocol over the encoded file,
and a failure is the last call before the handles are closed.
-/

namespace Everett.Object

open Traced FileDetail Outcome

variable {P : StoragePolicy} {target : Target} {barrier : SyncBarrier} {header : FileHeader}
  {chunks : List (List UInt8)}

/-! ## Checks before the first call -/

theorem supply_ok {bodySize : UInt64} {supplied count : Nat} {last final : UInt8}
    (accepted : supply bodySize supplied last chunks = .ok (count, final)) :
    count = supplied + chunks.flatten.length ∧ final = chunks.flatten.getLast?.getD last := by
  induction chunks generalizing supplied last with
  | nil =>
      cases accepted
      exact ⟨rfl, rfl⟩
  | cons chunk rest induction =>
      obtain ⟨_, -, more⟩ := bind_eq_ok.mp accepted
      obtain ⟨total, ends⟩ := induction more
      rw [List.flatten_cons]
      refine ⟨by rw [total, List.length_append, Nat.add_assoc], ?_⟩
      rw [ends, List.getLast?_append]
      cases rest.flatten.getLast? <;> rfl

theorem checkSeal_ok {total : UInt64} (checked : checkSeal P header chunks = .ok total) :
    validateMetadata P header = .ok () ∧ totalBytes P header.extent = .ok total ∧
      validateBody P header chunks.flatten = .ok () := by
  obtain ⟨_, metadata, checked⟩ := bind_eq_ok.mp checked
  obtain ⟨size, sized, checked⟩ := bind_eq_ok.mp checked
  obtain ⟨_, -, checked⟩ := bind_eq_ok.mp checked
  obtain ⟨⟨count, last⟩, supplied, checked⟩ := bind_eq_ok.mp checked
  obtain ⟨_, whole, checked⟩ := bind_eq_ok.mp checked
  obtain ⟨_, padded, checked⟩ := bind_eq_ok.mp checked
  cases checked
  obtain ⟨rfl, rfl⟩ := supply_ok supplied
  have size := require_eq_ok.mp whole
  have padding := require_eq_ok.mp padded
  refine ⟨metadata, sized, ?_⟩
  have length : (bodyBytes P header.extent).toNat = chunks.flatten.length := by omega
  have tail : ¬(P.unit = .bit ∧ header.extent.toNat % 8 ≠ 0 ∧
      tailPadded header.extent chunks.flatten = false) := by
    rintro ⟨bits, cut, unpadded⟩
    exact padding ⟨bits, cut, by simpa [tailPadded] using unpadded⟩
  rw [validateBody, require_true length, ok_bind, require_true tail]

/-! ## Outcomes of a run -/

theorem consumes_perform (request : Syscall) (what : String) :
    Consumes (perform target request what) := by
  unfold perform
  refine (consumes_update _).bind fun _ => (consumes_issue _).bind fun outcome =>
    (consumes_update _).bind fun _ => ?_
  split
  · exact consumes_pure ()
  · exact consumes_read.bind fun operation => consumes_fail _

theorem consumes_transferLoop (request : List UInt8 → Nat → Syscall) (what : String)
    (bytes : List UInt8) (position : Nat) :
    Consumes fun operation outcomes =>
      transferLoop target request what operation bytes position outcomes := by
  intro operation outcomes
  dsimp only
  induction outcomes generalizing bytes position with
  | nil => cases bytes <;> exact ⟨rfl, fun _ => rfl⟩
  | cons outcome rest induction =>
      cases bytes with
      | nil => exact ⟨rfl, fun ended => absurd ended (Option.some_ne_none _)⟩
      | cons byte bytes =>
          rw [transferLoop]
          have further : ∀ {next : Ran Syscall SyscallResult Operation Fault Unit},
              (rest = next.events.map Prod.snd ++ next.rest ∧ (next.result = none → next.rest = [])) →
              outcome :: rest = ((request ((byte :: bytes).take writeUnit) position, outcome) ::
                next.events).map Prod.snd ++ next.rest ∧ (next.result = none → next.rest = []) :=
            fun next => ⟨congrArg (outcome :: ·) next.1, next.2⟩
          split
          · split
            · exact further (induction _ _)
            · exact further ⟨rfl, fun ended => absurd ended (Option.some_ne_none _)⟩
          · split
            · exact further ⟨rfl, fun ended => absurd ended (Option.some_ne_none _)⟩
            · exact further (induction _ _)

theorem consumes_openFiles : Consumes (openFiles target) := by
  unfold openFiles openShard
  refine (consumes_perform _ _).bind fun _ => ?_
  refine ((consumes_perform _ _).bind fun _ => consumes_perform _ _).bind fun _ => ?_
  refine ((consumes_perform _ _).bind fun _ => consumes_perform _ _).bind fun _ => ?_
  exact (consumes_perform _ _).bind fun _ => consumes_update _

theorem consumes_finish : Consumes (finish target) := by
  have step : ∀ {request : Syscall} {what : String} {next : Program Unit}, Consumes next →
      Consumes (perform target request what >>= fun _ => next) :=
    fun more => (consumes_perform _ _).bind fun _ => more
  have marked : ∀ {request : Syscall} {what : String} {stage : Stage} {next : Program Unit},
      Consumes next →
      Consumes (perform target request what >>= fun _ => reach stage >>= fun _ => next) :=
    fun more => step ((consumes_update _).bind fun _ => more)
  have closes : Consumes (perform target (.close .object) "close sealed object handles" >>=
      fun _ => perform target (.close .leaf) "close sealed object handles" >>=
      fun _ => perform target (.close .first) "close sealed object handles" >>=
      fun _ => perform target (.close .root) "close sealed object handles" >>=
      fun _ => reach .complete) :=
    step (step (step (step (consumes_update _))))
  exact step (marked (marked (step (step (marked (marked (step (step closes))))))))

theorem consumes_writeChunk (chunk : List UInt8) (crc : UInt32) :
    Consumes (writeChunk target chunk crc) := by
  induction length : chunk.length using Nat.strong_induction_on generalizing chunk crc with
  | _ size induction =>
      rw [writeChunk]
      split
      · exact consumes_pure crc
      · rename_i present
        refine (consumes_transferLoop _ _ _ _).bind fun _ => induction _ ?_ _ _ rfl
        rw [List.length_drop, ← length]
        exact Nat.sub_lt (List.length_pos_iff.mpr present) (by decide)

theorem consumes_writeChunks (chunks : List (List UInt8)) (crc : UInt32) :
    Consumes (writeChunks target chunks crc) := by
  induction chunks generalizing crc with
  | nil => exact consumes_pure crc
  | cons chunk rest induction => exact (consumes_writeChunk _ _).bind induction

theorem consumes_sealHeader (crc : UInt32) : Consumes (sealHeader P target header crc) := by
  unfold sealHeader
  split
  · exact consumes_fail _
  · exact (consumes_transferLoop _ _ _ _).bind fun _ => (consumes_update _).bind fun _ =>
      consumes_finish.bind fun _ => consumes_pure crc

theorem consumes_closeOpen (handle : Handle) : Consumes (closeOpen handle) := by
  unfold closeOpen
  refine consumes_read.bind fun operation => ?_
  split
  · exact (consumes_update _).bind fun _ => (consumes_issue _).bind fun _ => consumes_pure ()
  · exact consumes_pure ()

theorem consumes_destroy : Consumes destroy :=
  (consumes_closeOpen _).bind fun _ => (consumes_closeOpen _).bind fun _ =>
    (consumes_closeOpen _).bind fun _ => consumes_closeOpen _

theorem consumes_seal : Consumes («seal» P target barrier header chunks) := by
  unfold «seal»
  split
  · exact consumes_fail _
  · refine Consumes.onFailure (Consumes.bind ?_ fun crc => consumes_pure _) consumes_destroy
    exact consumes_openFiles.bind fun _ => (consumes_transferLoop _ _ _ _).bind fun _ =>
      (consumes_writeChunks _ _).bind fun crc => consumes_sealHeader crc

/-! ## Handles -/

section Released

variable {image : List UInt8} {opened written finished : List Event}

theorem closings_append (handle : Handle) (events later : List Event) :
    closings handle (events ++ later) = closings handle events + closings handle later := by
  unfold closings
  rw [List.map_append, List.count_append]

theorem released_complete (ordered : Ordered target image opened written finished)
    (all : finished.map Prod.fst = finishCalls target) (ended : Prop) :
    Released (opened ++ written ++ finished) ended where
  once := ordered.closings_le
  none_left := fun _ handle _ => by
    refine le_antisymm (ordered.closings_le handle) ?_
    rw [closings_append, closings, closings, all, finishCalls_closings]
    exact Nat.le_add_left _ _

/-- The destructor closes what the protocol left open. -/
theorem released_destroy {operation : Operation} {closed : List Event} {ended : Prop}
    (ordered : Ordered target image opened written finished)
    (fds : operation.fds = (Operation.fresh.replay (opened ++ written ++ finished)).fds)
    (closes : closed.map Prod.fst <+: closesOf releaseOrder operation)
    (whole : ended → closed.map Prod.fst = closesOf releaseOrder operation) :
    Released (opened ++ written ++ finished ++ closed) ended := by
  classical
  have left : ∀ handle, (closesOf releaseOrder operation).count (.close handle) =
      if Opened handle (opened ++ written ++ finished) ∧
        closings handle (opened ++ written ++ finished) = 0 then 1 else 0 := by
    intro handle
    rw [releaseOrder_count, fds]
    refine if_congr ?_ rfl rfl
    rw [open_handle ordered.once, closings, List.count_eq_zero]
  have quiet : ∀ handle, Opened handle (opened ++ written ++ finished ++ closed) →
      Opened handle (opened ++ written ++ finished) := by
    rintro handle ⟨event, member, opens, valid⟩
    rcases List.mem_append.mp member with inside | outside
    · exact ⟨event, inside, opens, valid⟩
    · obtain ⟨other, same⟩ := closesOf_calls (closes.subset (List.mem_map_of_mem outside))
      rw [same] at opens
      cases opens
  refine ⟨fun handle => ?_, fun finishes handle some_open => ?_⟩
  · have before := ordered.closings_le handle
    have after := (closes.sublist.count_le (.close handle)).trans (left handle).le
    rw [closings_append]
    split at after
    · rename_i unclosed
      rw [unclosed.2, Nat.zero_add]
      exact after
    · exact Nat.add_le_add before after
  · have before := ordered.closings_le handle
    have after : closings handle closed = _ := (congrArg _ (whole finishes)).trans (left handle)
    rw [closings_append, after]
    split
    · rename_i unclosed
      rw [unclosed.2]
    · rename_i other
      have unclosed : closings handle (opened ++ written ++ finished) ≠ 0 :=
        fun zero => other ⟨quiet handle some_open, zero⟩
      omega

end Released

/-! ## Order -/

section Installed

variable {image : List UInt8} {opened written finished : List Event}

theorem replay_quiet {events : List Event} (quiet : ∀ event ∈ events, ¬IsWrite event.1)
    (file : File) : file.replay events = file := by
  induction events generalizing file with
  | nil => rfl
  | cons event events induction =>
      rw [List.forall_mem_cons] at quiet
      have same : file.effect event = file := by
        rcases event with ⟨request, outcome⟩
        cases request with
        | write bytes => exact absurd trivial quiet.1
        | writeAt bytes position => exact absurd trivial quiet.1
        | _ => rfl
      rw [File.replay_cons, same]
      exact induction quiet.2 file

/-- A call of the list of calls, at its place. -/
theorem installed_third {event : Event} {parent : Handle} {source name : List UInt8}
    (calls : finished.map Prod.fst <+: finishCalls target) (member : event ∈ finished)
    (install : event.1 = .install parent source name) :
    ∃ protect sync more, finished = protect :: sync :: event :: more ∧
      protect.1 = .makeReadOnly ∧ sync.1 = .syncFile := by
  rcases finished with _ | ⟨protect, _ | ⟨sync, _ | ⟨third, more⟩⟩⟩
  · cases member
  · simp [finishCalls, finishSteps] at calls
    simp_all
  · simp [finishCalls, finishSteps] at calls
    rcases List.mem_pair.mp member with rfl | rfl
    · rw [calls.1] at install
      cases install
    · rw [calls.2] at install
      cases install
  · simp only [finishCalls, finishSteps, List.map_cons, List.cons_prefix_cons] at calls
    obtain ⟨first, second, installs, rest⟩ := calls
    refine ⟨protect, sync, more, ?_, first, second⟩
    have later : event ∉ more := by
      intro inside
      have listed := rest.subset (List.mem_map_of_mem inside)
      rw [install] at listed
      simp at listed
    simp only [List.mem_cons] at member
    rcases member with rfl | rfl | rfl | inside
    · rw [first] at install
      cases install
    · rw [second] at install
      cases install
    · rfl
    · exact absurd inside later

theorem openCalls_writes : ∀ request ∈ openCalls target, ¬IsWrite request := by
  simp [openCalls, openSteps, IsWrite]

/-- The content is complete and synced before the final name is installed. -/
theorem Ordered.installed (ordered : Ordered target image opened written finished)
    (acknowledged : ∀ event ∈ (opened ++ written ++ finished).dropLast, Acknowledged event)
    {event : Event} {parent : Handle} {source name : List UInt8} (member : event ∈ finished)
    (install : event.1 = .install parent source name) :
    ∃ early synced late, opened ++ written ++ finished =
      early ++ (.syncFile, synced) :: event :: late ∧ accepted .syncFile synced = true ∧
        (File.blank.replay early).content = image := by
  obtain ⟨protect, ⟨request, synced⟩, more, rfl, protects, syncs⟩ :=
    installed_third ordered.finished_calls member install
  cases syncs
  refine ⟨opened ++ written ++ [protect], synced, more, by simp, ?_, ?_⟩
  · have before : (opened ++ written ++ protect :: (.syncFile, synced) :: event :: more).dropLast =
        opened ++ written ++ protect :: (.syncFile, synced) :: (event :: more).dropLast := by
      rw [List.dropLast_append_cons]
      rfl
    rw [before] at acknowledged
    exact acknowledged (.syncFile, synced) (by simp)
  · have content := ordered.content (List.cons_ne_nil _ _)
    have quiet : ∀ one ∈ opened, ¬IsWrite one.1 := fun one inside =>
      openCalls_writes _ (ordered.opened_calls.subset (List.mem_map_of_mem inside))
    have last : ∀ one ∈ [protect], ¬IsWrite one.1 := by
      intro one inside
      rw [List.mem_singleton.mp inside, protects]
      exact id
    rw [File.replay_append, File.replay_append, replay_quiet quiet, replay_quiet last, content]

end Installed

/-! ## The protocol -/

/-- A failure names the file and the last acknowledged stage. -/
structure Reports (target : Target) (before : List Event) (fault : Fault) (error : WriteError) :
    Prop where
  thrown : fault = .failed error
  stage : error.stage = stageOf before
  object : error.object = target.id
  attempt : error.attempt = target.attempt
  paths : error.paths = target.paths
  errno : error.errno ≠ 0

/-- The last call was not acknowledged, and every call before it was. -/
structure Broken (events before : List Event) (bad : Event) : Prop where
  last : events = before ++ [bad]
  acknowledged : ∀ event ∈ before, Acknowledged event
  refused : ¬Acknowledged bad

/-- How the run of a writer ends; `closed` are the closes of the destructor. -/
def Ending (target : Target) (receipt : SealReceipt) (opened written finished closed : List Event) :
    Option (Except Fault SealReceipt) → Prop
  | some (.ok answer) => answer = receipt ∧ closed = [] ∧
      opened.map Prod.fst = openCalls target ∧ finished.map Prod.fst = finishCalls target ∧
      ∀ event ∈ opened ++ written ++ finished, Acknowledged event
  | some (.error fault) => ∃ before bad error,
      Broken (opened ++ written ++ finished) before bad ∧ Reports target before fault error
  | none => (closed = [] ∧ ∀ event ∈ opened ++ written ++ finished, Acknowledged event) ∨
      ∃ before bad, Broken (opened ++ written ++ finished) before bad

/-- What an accepted call of `seal` leaves behind. -/
structure Protocol (target : Target) (image : List UInt8) (receipt : SealReceipt)
    (ran : Ran Syscall SyscallResult Operation Fault SealReceipt) : Prop where
  /-- Calls in their order; the destructor issues closes alone. -/
  ordered : ∃ opened written finished closed, ran.events = opened ++ written ++ finished ++ closed ∧
    Ordered target image opened written finished ∧
    (∀ event ∈ closed, ∃ handle, event.1 = .close handle) ∧
    Ending target receipt opened written finished closed ran.result
  /-- The content is complete and synced when a name is installed. -/
  installed : ∀ event ∈ ran.events, ∀ parent source name, event.1 = .install parent source name →
    ∃ early synced late, ran.events = early ++ (.syncFile, synced) :: event :: late ∧
      accepted .syncFile synced = true ∧ (File.blank.replay early).content = image
  /-- Every descriptor is closed once, and at most once while the run goes on. -/
  released : Released ran.events ran.result.isSome

theorem Ordered.protocol {image : List UInt8} {receipt : SealReceipt}
    {opened written finished closed : List Event}
    {ran : Ran Syscall SyscallResult Operation Fault SealReceipt}
    (ordered : Ordered target image opened written finished)
    (events : ran.events = opened ++ written ++ finished ++ closed)
    (acknowledged : ∀ event ∈ (opened ++ written ++ finished).dropLast, Acknowledged event)
    (closes : ∀ event ∈ closed, ∃ handle, event.1 = .close handle)
    (ending : Ending target receipt opened written finished closed ran.result)
    (released : Released ran.events ran.result.isSome) : Protocol target image receipt ran where
  ordered := ⟨opened, written, finished, closed, events, ordered, closes, ending⟩
  installed := by
    intro event member parent source name install
    have inside : event ∈ finished := by
      rw [events] at member
      simp only [List.mem_append] at member
      rcases member with ((first | write) | last) | close
      · have listed := ordered.opened_calls.subset (List.mem_map_of_mem first)
        rw [install] at listed
        simp [openCalls, openSteps] at listed
      · have writes := ordered.writes event write
        rw [install] at writes
        exact writes.elim
      · exact last
      · obtain ⟨handle, same⟩ := closes event close
        rw [same] at install
        cases install
    obtain ⟨early, synced, late, split, accepts, content⟩ :=
      ordered.installed acknowledged inside install
    exact ⟨early, synced, late ++ closed, by rw [events, split]; simp, accepts, content⟩
  released := released

theorem Broken.dropLast {events before : List Event} {bad : Event}
    (broken : Broken events before bad) : ∀ event ∈ events.dropLast, Acknowledged event := by
  rw [broken.last, List.dropLast_concat]
  exact broken.acknowledged

theorem failure_reports {before : List Event} {what : String} {errno : Int}
    {operation : Operation} (stage : operation.stage = stageOf before) :
    ∃ error, Reports target before (failure target what errno operation) error := by
  refine ⟨_, rfl, stage, rfl, rfl, rfl, ?_⟩
  dsimp only
  split
  · decide
  · assumption

/-- The receipt of a file. -/
def receiptOf (target : Target) (barrier : SyncBarrier) (total : UInt64) (body : List UInt8) :
    SealReceipt where
  object := target.id
  attempt := target.attempt
  path := target.paths.final
  bytes := total
  bodyCrc32c := crc32c body
  barrier := barrier

/-- The protocol behind the checks. -/
theorem seal_protocol {total : UInt64} {outcomes : List SyscallResult}
    (checked : checkSeal P header chunks = .ok total) :
    Protocol target (headerImage P header (crc32c chunks.flatten) total ++ chunks.flatten)
      (receiptOf target barrier total chunks.flatten)
      («seal» P target barrier header chunks .fresh outcomes) := by
  obtain ⟨metadata, sized, -⟩ := checkSeal_ok checked
  have follows : Traced.Follows (sealFile P target header chunks)
      (writing P target header total chunks.flatten) := follows_sealFile metadata sized
  have allowed := sealFile_spec (follows .fresh outcomes)
  unfold «seal»
  rw [checked]
  dsimp only
  unfold Task.Allows at allowed
  rcases result : (sealFile P target header chunks .fresh outcomes).result with _ | (fault | crc)
  · rw [result] at allowed
    obtain ⟨opened, written, finished, events, ordered, acknowledged⟩ := allowed
    rw [onFailure_waiting (by rw [bind_waiting result]), bind_waiting result]
    refine ordered.protocol (by rw [List.append_nil]; exact events) ?_ (by simp) (.inl ⟨rfl, ?_⟩) ?_
    · exact fun event member => acknowledged event (events ▸ List.mem_of_mem_dropLast member)
    · exact fun event member => acknowledged event (events ▸ member)
    · refine ⟨?_, nofun⟩
      rw [show Ran.events _ = _ from events]
      exact ordered.closings_le
  · rw [result] at allowed
    obtain ⟨opened, written, finished, before, bad, what, errno, operation, events, ordered, last,
      acknowledged, refuses, stage, rfl, fds⟩ := allowed
    rw [onFailure_failed (by rw [bind_failed result]), bind_failed result]
    have broken : Broken (opened ++ written ++ finished) before bad :=
      ⟨events ▸ last, acknowledged, refuses⟩
    have closes := follows_destroy (sealFile P target header chunks .fresh outcomes).state
      (sealFile P target header chunks .fresh outcomes).rest
    rw [events] at fds
    unfold Task.Allows at closes
    rcases closed : (destroy (sealFile P target header chunks .fresh outcomes).state
      (sealFile P target header chunks .fresh outcomes).rest).result with _ | (impossible | u)
    · rw [closed] at closes
      refine ordered.protocol (congrArg (· ++ _) events) broken.dropLast ?_ ?_ ?_
      · exact fun event member => closesOf_calls (closes.subset (List.mem_map_of_mem member))
      · exact .inr ⟨before, bad, broken⟩
      · rw [show Ran.events _ = _ from congrArg (· ++ _) events]
        exact released_destroy ordered fds closes nofun
    · rw [closed] at closes
      exact closes.elim
    · rw [closed] at closes
      obtain ⟨error, reports⟩ : ∃ error, Reports target before
          (failure target what errno operation) error := failure_reports stage
      refine ordered.protocol (congrArg (· ++ _) events) broken.dropLast ?_ ?_ ?_
      · exact fun event member => closesOf_calls (closes.1 ▸ List.mem_map_of_mem member)
      · exact ⟨before, bad, error, broken, reports⟩
      · rw [show Ran.events _ = _ from congrArg (· ++ _) events]
        exact released_destroy ordered fds (closes.1 ▸ List.prefix_rfl) fun _ => closes.1
  · rw [result] at allowed
    obtain ⟨rfl, opened, written, finished, events, progress, all, finishes⟩ := allowed
    rw [onFailure_returned (by rw [bind_returned result]; rfl), bind_returned result]
    have whole : (sealFile P target header chunks .fresh outcomes).events ++ [] =
        opened ++ written ++ finished ++ [] := by rw [events]
    refine progress.ordered.protocol whole ?_ (by simp) ?_ ?_
    · exact fun event member => progress.acknowledged event (List.mem_of_mem_dropLast member)
    · exact ⟨rfl, rfl, all, finishes, progress.acknowledged⟩
    · rw [show Ran.events _ = _ from whole, List.append_nil]
      exact released_complete progress.ordered finishes _

/-- Over all outcomes of the system calls, a rejected call of `seal` makes none of them, and an
accepted one follows the protocol over the encoded file. -/
theorem object_writer_protocol (P : StoragePolicy) (target : Target) (barrier : SyncBarrier)
    (header : FileHeader) (chunks : List (List UInt8)) (outcomes : List SyscallResult) :
    let ran := «seal» P target barrier header chunks .fresh outcomes
    (outcomes = ran.events.map Prod.snd ++ ran.rest ∧ (ran.result = none → ran.rest = [])) ∧
      match checkSeal P header chunks with
      | .error text => ran.events = [] ∧ ran.result = some (.error (.rejected text))
      | .ok total => ∃ image, encodeFile P header chunks.flatten = .ok image ∧
          image.length = total.toNat ∧
          Protocol target image (receiptOf target barrier total chunks.flatten) ran := by
  refine ⟨consumes_seal .fresh outcomes, ?_⟩
  cases checked : checkSeal P header chunks with
  | error text =>
      unfold «seal»
      rw [checked]
      exact ⟨rfl, rfl⟩
  | ok total =>
      obtain ⟨metadata, sized, valid⟩ := checkSeal_ok checked
      refine ⟨_, encodeFile_ok metadata valid sized, ?_, seal_protocol checked⟩
      rw [List.length_append, length_headerImage, (totalBytes_ok sized).1,
        validateBody_length valid, Nat.add_comm]

end Everett.Object

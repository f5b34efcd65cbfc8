import Everett.Object.Tasks

/-!
# Write loops

A file as the writes of a trace leave it, and the write loops, which either write all bytes or stop
at a write which was not acknowledged.
-/

namespace Everett.Object

open Traced ByteFields

/-- Bytes of the private file, and the position of its descriptor. -/
@[ext]
structure File where
  content : List UInt8
  position : Nat
  deriving DecidableEq, Repr

namespace File

/-- A file which was just created. -/
def blank : File := ⟨[], 0⟩

/-- Bytes at a position, behind a hole if the file ends before it. -/
def patch (content : List UInt8) (position : Nat) (data : List UInt8) : List UInt8 :=
  overwrite (content ++ List.replicate (position - content.length) 0) position data

/-- What a call does to the file; a write covers as many bytes as it returns. -/
def effect (file : File) : Event → File
  | (.write bytes, outcome) =>
      if 0 < outcome.value then
        ⟨patch file.content file.position (bytes.take outcome.value.toNat),
          file.position + (bytes.take outcome.value.toNat).length⟩
      else file
  | (.writeAt bytes position, outcome) =>
      if 0 < outcome.value then
        { file with content := patch file.content position (bytes.take outcome.value.toNat) }
      else file
  | _ => file

/-- The file after some events. -/
def replay (file : File) (events : List Event) : File := events.foldl effect file

@[simp]
theorem replay_nil (file : File) : file.replay [] = file := rfl

@[simp]
theorem replay_cons (file : File) (event : Event) (events : List Event) :
    file.replay (event :: events) = (file.effect event).replay events := rfl

theorem replay_append (file : File) (events later : List Event) :
    file.replay (events ++ later) = (file.replay events).replay later :=
  List.foldl_append

end File

/-- A write of the private file. -/
def IsWrite : Syscall → Prop
  | .write _ => True
  | .writeAt _ _ => True
  | _ => False

/-- A write which was interrupted, or returned the number of its bytes which it wrote. -/
def Delivered (bytes : List UInt8) (outcome : SyscallResult) : Prop :=
  outcome.value < 0 ∧ outcome.errno = eintr ∨
    0 < outcome.value ∧ outcome.value.toNat ≤ bytes.length

/-- A call after which the writer goes on. -/
def Acknowledged : Event → Prop
  | (.write bytes, outcome) => Delivered bytes outcome
  | (.writeAt bytes _, outcome) => Delivered bytes outcome
  | (request, outcome) => accepted request outcome = true

/-- Progress of a write loop: the bytes left and their position. -/
inductive Transfers (request : List UInt8 → Nat → Syscall) :
    List UInt8 → Nat → List Event → List UInt8 → Nat → Prop
  | stop {bytes : List UInt8} {position : Nat} : Transfers request bytes position [] bytes position
  | interrupted {bytes left : List UInt8} {position last : Nat} {outcome : SyscallResult}
      {events : List Event} (present : bytes ≠ []) (negative : outcome.value < 0)
      (signal : outcome.errno = eintr)
      (more : Transfers request bytes position events left last) :
      Transfers request bytes position
        ((request (bytes.take writeUnit) position, outcome) :: events) left last
  | advanced {bytes left : List UInt8} {position last : Nat} {outcome : SyscallResult}
      {events : List Event} (present : bytes ≠ []) (positive : 0 < outcome.value)
      (within : outcome.value.toNat ≤ (bytes.take writeUnit).length)
      (more : Transfers request (bytes.drop outcome.value.toNat)
        (position + outcome.value.toNat) events left last) :
      Transfers request bytes position
        ((request (bytes.take writeUnit) position, outcome) :: events) left last

variable (target : Target)

/-- The runs of a write loop. -/
def transfer (request : List UInt8 → Nat → Syscall) (what : String) (bytes : List UInt8)
    (position : Nat) : Task Syscall SyscallResult Operation Fault Unit where
  completes operation events _ last := last = operation ∧
    Transfers request bytes position events [] (position + bytes.length)
  breaks operation events fault last := last = operation ∧ ∃ before left current outcome errno,
    left ≠ [] ∧ Transfers request bytes position before left current ∧
      events = before ++ [(request (left.take writeUnit) current, outcome)] ∧
      ¬Delivered (left.take writeUnit) outcome ∧ fault = failure target what errno operation
  waits _ events := ∃ left current, left ≠ [] ∧
    Transfers request bytes position events left current

theorem transferLoop_spec (request : List UInt8 → Nat → Syscall) (what : String)
    (operation : Operation) (bytes : List UInt8) (position : Nat) (outcomes : List SyscallResult) :
    (transfer target request what bytes position).Allows operation
      (transferLoop target request what operation bytes position outcomes) := by
  induction outcomes generalizing bytes position with
  | nil =>
      cases bytes with
      | nil => exact ⟨rfl, .stop⟩
      | cons byte bytes => exact ⟨_, _, List.cons_ne_nil _ _, .stop⟩
  | cons outcome outcomes induction =>
      cases bytes with
      | nil => exact ⟨rfl, .stop⟩
      | cons byte bytes =>
          rw [transferLoop]
          have present : byte :: bytes ≠ [] := List.cons_ne_nil _ _
          have refused : ∀ errno, ¬Delivered ((byte :: bytes).take writeUnit) outcome →
              (transfer target request what (byte :: bytes) position).Allows operation
                ⟨[(request ((byte :: bytes).take writeUnit) position, outcome)], operation,
                  some (.error (failure target what errno operation)), outcomes⟩ :=
            fun errno refuses =>
              ⟨rfl, [], _, position, outcome, errno, present, .stop, rfl, refuses, rfl⟩
          split
          · rename_i negative
            split
            · rename_i signal
              refine (induction (byte :: bytes) position).cons ?_ ?_ ?_
              · rintro events _ _ ⟨same, transfers⟩
                exact ⟨same, .interrupted present negative signal transfers⟩
              · rintro events fault _ ⟨same, before, left, current, last, errno, some_left,
                  transfers, rfl, refuses, rfl⟩
                exact ⟨same, _ :: before, left, current, last, errno, some_left,
                  .interrupted present negative signal transfers, rfl, refuses, rfl⟩
              · rintro events ⟨left, current, some_left, transfers⟩
                exact ⟨left, current, some_left, .interrupted present negative signal transfers⟩
            · rename_i other
              refine refused outcome.errno ?_
              rintro (⟨-, signal⟩ | ⟨positive, -⟩)
              · exact other signal
              · omega
          · rename_i nonnegative
            split
            · rename_i invalid
              refine refused eio ?_
              rintro (⟨negative, -⟩ | ⟨positive, within⟩)
              · exact nonnegative negative
              · omega
            · rename_i valid
              have positive : 0 < outcome.value := by omega
              have within : outcome.value.toNat ≤ ((byte :: bytes).take writeUnit).length := by
                omega
              have covered : outcome.value.toNat ≤ (byte :: bytes).length :=
                within.trans (List.length_take_le' _ _)
              refine (induction ((byte :: bytes).drop outcome.value.toNat)
                (position + outcome.value.toNat)).cons ?_ ?_ ?_
              · rintro events _ _ ⟨same, transfers⟩
                refine ⟨same, .advanced present positive within ?_⟩
                rw [List.length_drop, Nat.add_assoc, Nat.add_sub_cancel' covered] at transfers
                exact transfers
              · rintro events fault _ ⟨same, before, left, current, last, errno, some_left,
                  transfers, rfl, refuses, rfl⟩
                exact ⟨same, _ :: before, left, current, last, errno, some_left,
                  .advanced present positive within transfers, rfl, refuses, rfl⟩
              · rintro events ⟨left, current, some_left, transfers⟩
                exact ⟨left, current, some_left, .advanced present positive within transfers⟩

/-- What a write loop asks for is a delivered write. -/
theorem Transfers.acknowledged {request : List UInt8 → Nat → Syscall}
    (writes : ∀ part position outcome, Delivered part outcome →
      IsWrite (request part position) ∧ Acknowledged (request part position, outcome))
    {bytes left : List UInt8} {position last : Nat} {events : List Event}
    (transfers : Transfers request bytes position events left last) :
    ∀ event ∈ events, IsWrite event.1 ∧ Acknowledged event := by
  induction transfers with
  | stop => exact fun event member => absurd member List.not_mem_nil
  | interrupted present negative signal more induction =>
      rw [List.forall_mem_cons]
      exact ⟨writes _ _ _ (.inl ⟨negative, signal⟩), induction⟩
  | advanced present positive within more induction =>
      rw [List.forall_mem_cons]
      exact ⟨writes _ _ _ (.inr ⟨positive, within⟩), induction⟩

theorem write_delivered (part : List UInt8) (position : Nat) (outcome : SyscallResult)
    (delivered : Delivered part outcome) :
    IsWrite ((fun part _ => Syscall.write part) part position) ∧
      Acknowledged ((fun part _ => Syscall.write part) part position, outcome) :=
  ⟨trivial, delivered⟩

theorem writeAt_delivered (part : List UInt8) (position : Nat) (outcome : SyscallResult)
    (delivered : Delivered part outcome) :
    IsWrite (Syscall.writeAt part position) ∧
      Acknowledged (Syscall.writeAt part position, outcome) :=
  ⟨trivial, delivered⟩

theorem patch_end (content data : List UInt8) :
    File.patch content content.length data = content ++ data := by
  simp [File.patch, overwrite]

/-- A complete loop of sequential writes extends the file. -/
theorem Transfers.replay_append {bytes left : List UInt8} {position last : Nat}
    {events : List Event}
    (transfers : Transfers (fun part _ => .write part) bytes position events left last)
    (content : List UInt8) :
    ∃ written, written ++ left = bytes ∧ File.replay ⟨content, content.length⟩ events =
      ⟨content ++ written, (content ++ written).length⟩ := by
  induction transfers generalizing content with
  | stop => exact ⟨[], rfl, by simp⟩
  | interrupted present negative signal more induction =>
      obtain ⟨written, split, replayed⟩ := induction content
      refine ⟨written, split, ?_⟩
      rw [File.replay_cons, File.effect, if_neg (by omega), replayed]
  | @advanced bytes left position last outcome events present positive within more induction =>
      have part : (bytes.take writeUnit).take outcome.value.toNat =
          bytes.take outcome.value.toNat := by
        rw [List.take_take, min_eq_left (within.trans (List.length_take_le _ _))]
      obtain ⟨written, split, replayed⟩ := induction (content ++ bytes.take outcome.value.toNat)
      refine ⟨bytes.take outcome.value.toNat ++ written, ?_, ?_⟩
      · rw [List.append_assoc, split, List.take_append_drop]
      · rw [File.replay_cons, File.effect, if_pos positive, part, patch_end,
          ← List.length_append, replayed, List.append_assoc]

/-- Patches of neighbouring parts. -/
theorem patch_patch {content front back : List UInt8} {position : Nat}
    (fits : position + (front ++ back).length ≤ content.length) :
    File.patch (File.patch content position front) (position + front.length) back =
      File.patch content position (front ++ back) := by
  rw [List.length_append] at fits
  have padded : ∀ data : List UInt8, data.length = content.length →
      data ++ List.replicate (position + front.length - data.length) 0 = data := by
    intro data same
    rw [Nat.sub_eq_zero_of_le (by omega), List.replicate_zero, List.append_nil]
  have start : content ++ List.replicate (position - content.length) 0 = content := by
    rw [Nat.sub_eq_zero_of_le (by omega), List.replicate_zero, List.append_nil]
  unfold File.patch
  rw [start, padded _ (length_overwrite (by omega))]
  unfold overwrite
  rw [List.take_left' (by simp; omega), List.drop_append, List.drop_of_length_le (by simp; omega)]
  simp only [List.length_append, List.length_take, List.nil_append, List.drop_drop,
    List.append_assoc]
  congr 4
  omega

theorem length_patch {content data : List UInt8} {position : Nat}
    (fits : position + data.length ≤ content.length) :
    (File.patch content position data).length = content.length := by
  unfold File.patch
  rw [Nat.sub_eq_zero_of_le (by omega), List.replicate_zero, List.append_nil,
    length_overwrite fits]

/-- A loop of positioned writes patches what it delivers. -/
theorem Transfers.replay_patch {bytes left : List UInt8} {position last : Nat}
    {events : List Event} (transfers : Transfers Syscall.writeAt bytes position events left last)
    (file : File) (fits : position + bytes.length ≤ file.content.length) :
    ∃ written, written ++ left = bytes ∧ last = position + written.length ∧
      file.replay events =
        { file with content := File.patch file.content position written } := by
  induction transfers generalizing file with
  | @stop bytes position =>
      refine ⟨[], rfl, rfl, ?_⟩
      have same : File.patch file.content position [] = file.content := by
        unfold File.patch overwrite
        rw [Nat.sub_eq_zero_of_le (by omega)]
        simp
      rw [same]
      rfl
  | interrupted present negative signal more induction =>
      obtain ⟨written, split, ends, replayed⟩ := induction file fits
      refine ⟨written, split, ends, ?_⟩
      rw [File.replay_cons, File.effect, if_neg (by omega), replayed]
  | @advanced bytes left position last outcome events present positive within more induction =>
      have covered : outcome.value.toNat ≤ bytes.length :=
        within.trans (List.length_take_le' _ _)
      have part : (bytes.take writeUnit).take outcome.value.toNat =
          bytes.take outcome.value.toNat := by
        rw [List.take_take, min_eq_left (within.trans (List.length_take_le _ _))]
      have size : (bytes.take outcome.value.toNat).length = outcome.value.toNat :=
        List.length_take_of_le covered
      obtain ⟨written, split, ends, replayed⟩ := induction
        { file with content := File.patch file.content position (bytes.take outcome.value.toNat) }
        (by
          rw [length_patch (by rw [size]; omega), List.length_drop]
          omega)
      refine ⟨bytes.take outcome.value.toNat ++ written, ?_, ?_, ?_⟩
      · rw [List.append_assoc, split, List.take_append_drop]
      · rw [ends, List.length_append, size, Nat.add_assoc]
      · have wrote : written.length ≤ (bytes.drop outcome.value.toNat).length := by
          rw [← split, List.length_append]
          omega
        have joined : File.patch (File.patch file.content position
              (bytes.take outcome.value.toNat)) (position + outcome.value.toNat) written =
            File.patch file.content position (bytes.take outcome.value.toNat ++ written) := by
          rw [← patch_patch (by
            rw [List.length_append, size]
            rw [List.length_drop] at wrote
            omega), size]
        rw [File.replay_cons, File.effect, if_pos positive, part, replayed, joined]

end Everett.Object

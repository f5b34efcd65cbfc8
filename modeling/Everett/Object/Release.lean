import Everett.Object.Writer

/-!
# Handles after an error

The destructor of an operation closes what is still open.  Together with the closes of the protocol
itself every handle is closed at most once, and no handle stays open after the end of a run.
-/

namespace Everett.Object

open Traced

/-- Handles in the order of the destructor. -/
def releaseOrder : List Handle := [.object, .leaf, .first, .root]

theorem mem_releaseOrder (handle : Handle) : handle ∈ releaseOrder := by
  cases handle <;> simp [releaseOrder]

/-- Closes of the open handles among some handles. -/
def closesOf (handles : List Handle) (operation : Operation) : List Syscall :=
  (handles.filter fun handle => 0 ≤ operation.fds handle).map .close

/-- The runs which close the open handles among some handles. -/
def closing (handles : List Handle) : Task Syscall SyscallResult Operation Fault Unit where
  completes operation events _ last := events.map Prod.fst = closesOf handles operation ∧
    ∀ handle ∉ handles, last.fds handle = operation.fds handle
  breaks _ _ _ _ := False
  waits operation events := events.map Prod.fst <+: closesOf handles operation

theorem follows_closeOpen (handle : Handle) : Traced.Follows (closeOpen handle) (closing [handle]) := by
  intro operation outcomes
  unfold closeOpen
  rw [read_bind]
  by_cases opened : 0 ≤ operation.fds handle
  · have calls : closesOf [handle] operation = [.close handle] := by simp [closesOf, opened]
    rw [if_pos opened, bind_returned rfl]
    cases outcomes with
    | nil =>
        rw [bind_waiting rfl]
        exact List.nil_prefix
    | cons outcome outcomes =>
        rw [bind_returned rfl]
        refine ⟨calls.symm, fun other apart => ?_⟩
        rw [List.mem_singleton] at apart
        exact Function.update_of_ne apart _ _
  · have calls : closesOf [handle] operation = [] := by simp [closesOf, opened]
    rw [if_neg opened]
    exact ⟨calls.symm, fun _ _ => rfl⟩

theorem closesOf_congr {handles : List Handle} {first second : Operation}
    (same : ∀ handle ∈ handles, first.fds handle = second.fds handle) :
    closesOf handles first = closesOf handles second := by
  unfold closesOf
  congr 1
  refine List.filter_congr fun handle member => ?_
  rw [same handle member]

theorem follows_closings {first : Program Unit} {next : Unit → Program Unit} {handle : Handle}
    {handles : List Handle} (apart : handle ∉ handles) (one : Traced.Follows first (closing [handle]))
    (two : ∀ u, Traced.Follows (next u) (closing handles)) :
    Traced.Follows (first >>= next) (closing (handle :: handles)) := by
  have split : ∀ {operation middle : Operation},
      (∀ other ∉ [handle], middle.fds other = operation.fds other) →
      closesOf (handle :: handles) operation =
        closesOf [handle] operation ++ closesOf handles middle := by
    intro operation middle kept
    have same : closesOf handles middle = closesOf handles operation := by
      refine closesOf_congr fun other member => kept other ?_
      rw [List.mem_singleton]
      exact fun equal => apart (equal ▸ member)
    rw [same, closesOf, closesOf, closesOf, ← List.map_append, ← List.filter_append,
      List.singleton_append]
  refine (one.bind two).mono ?_ ?_ ?_
  · rintro operation _ _ last ⟨before, later, _, middle, rfl, ⟨calls, kept⟩, more, rest⟩
    refine ⟨by rw [List.map_append, calls, more, split kept], fun other outside => ?_⟩
    rw [List.mem_cons, not_or] at outside
    rw [rest other outside.2, kept other (by simpa using outside.1)]
  · rintro operation _ _ last (impossible | ⟨_, _, _, _, _, _, impossible⟩)
    · exact impossible
    · exact impossible
  · rintro operation _ (waits | ⟨before, later, _, middle, rfl, ⟨calls, kept⟩, more⟩)
    · rw [show (closing (handle :: handles)).waits operation _ =
        (_ <+: closesOf (handle :: handles) operation) from rfl, split fun _ _ => rfl]
      exact waits.trans (List.prefix_append _ _)
    · show (before ++ later).map Prod.fst <+: closesOf (handle :: handles) operation
      rw [List.map_append, calls, split kept]
      exact (List.prefix_append_right_inj _).mpr more

theorem follows_destroy : Traced.Follows destroy (closing releaseOrder) := by
  unfold destroy
  refine follows_closings (by decide) (follows_closeOpen _) fun _ => ?_
  refine follows_closings (by decide) (follows_closeOpen _) fun _ => ?_
  refine follows_closings (by decide) (follows_closeOpen _) fun _ => ?_
  exact follows_closeOpen _

theorem releaseOrder_count (operation : Operation) (handle : Handle) :
    (closesOf releaseOrder operation).count (.close handle) =
      if 0 ≤ operation.fds handle then 1 else 0 := by
  have nodup : releaseOrder.Nodup := by decide
  rw [closesOf, List.count_map_of_injective _ _ fun one two same => by cases same; rfl]
  split
  · rename_i opened
    exact List.count_eq_one_of_mem (nodup.filter _)
      (List.mem_filter.mpr ⟨mem_releaseOrder handle, by simpa using opened⟩)
  · rename_i closed
    exact List.count_eq_zero.mpr fun member => closed (by simpa using (List.mem_filter.mp member).2)

theorem closesOf_calls {handles : List Handle} {operation : Operation} {request : Syscall}
    (member : request ∈ closesOf handles operation) : ∃ handle, request = .close handle := by
  obtain ⟨handle, -, rfl⟩ := List.mem_map.mp member
  exact ⟨handle, rfl⟩

/-- What a run and the destructor behind it do to handles. -/
structure Released (events : List Event) (ended : Prop) : Prop where
  /-- No descriptor is closed twice. -/
  once : ∀ handle, closings handle events ≤ 1
  /-- Only opened handles are closed by the destructor, and none is left open. -/
  none_left : ended → ∀ handle, Opened handle events → closings handle events = 1

end Everett.Object

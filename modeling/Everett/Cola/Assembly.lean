import Everett.Cola.Lookup
import Everett.Redundant.Execution

/-!
# Assembling nodes step by step

An executor opens a builder over built targets, steps it by single occurrences and finishes it into
a node.  What it has to know of the builder is how many occurrences are left.
-/

namespace Everett

open Word Outcome Occurrences

variable {P : StoragePolicy}

/-- A node over a native array and its targets, produced by the index builder. -/
structure MainPointer.Assembles (pair : MainPointer P) (native : Shared (NativeArray P))
    (main : MainPointer P) (secondary : Option (Shared (NativeArray P))) : Prop where
  shape : ∃ address index, pair = ⟨address, index⟩ :: main ∧ index.native = native ∧
    index.secondary = secondary ∧
    index.count = ColaIndexBuilder.extent native main secondary
  built : MainPointer.Built pair

namespace MainPointer.Assembles

variable {pair main : MainPointer P} {native : Shared (NativeArray P)}
  {secondary : Option (Shared (NativeArray P))}

theorem ne_nil (assembles : pair.Assembles native main secondary) : pair ≠ [] := by
  obtain ⟨address, index, rfl, -⟩ := assembles.shape
  exact List.cons_ne_nil _ _

theorem isEmpty_eq (assembles : pair.Assembles native main secondary) : pair.isEmpty = false := by
  obtain ⟨address, index, rfl, -⟩ := assembles.shape
  rfl

theorem virtualSize_eq (assembles : pair.Assembles native main secondary) :
    MainPointer.virtualSize pair = ColaIndexBuilder.extent native main secondary := by
  obtain ⟨address, index, rfl, -, -, count⟩ := assembles.shape
  exact count

end MainPointer.Assembles

/-- Groups of a target are counted by its virtual size. -/
theorem MainPointer.groupCount_eq (main : MainPointer P) :
    main.groupCount = ceilDiv main.virtualSize P.groupSize := by
  cases main with
  | nil => simp [groupCount, virtualSize, ceilDiv]
  | cons node rest => rfl

namespace ColaIndexBuilder

variable {native : Shared (NativeArray P)} {main : MainPointer P}
  {secondary : Option (Shared (NativeArray P))}

/-- A builder over some sources which has taken a number of occurrences. -/
structure Ongoing (builder : ColaIndexBuilder P) (native : Shared (NativeArray P))
    (main : MainPointer P) (secondary : Option (Shared (NativeArray P))) (count : Nat) : Prop where
  main_built : MainPointer.Built main
  opened : ∃ opened budgets, start native main secondary = .ok opened ∧
    runSteps budgets opened = .ok builder
  building : ∃ target occurrences, builder.Building target occurrences
  native_eq : builder.native = native
  main_eq : builder.main = main
  secondary_eq : builder.secondary = secondary
  count_eq : builder.count = count

theorem runSteps_append (budgets : List Nat) (budget : Nat) {builder following next :
    ColaIndexBuilder P} {consumed : Nat} (run : runSteps budgets builder = .ok following)
    (stepped : following.step budget = .ok (next, consumed)) :
    runSteps (budgets ++ [budget]) builder = .ok next := by
  induction budgets generalizing builder with
  | nil =>
      cases run
      simp [runSteps, stepped]
  | cons first budgets induction =>
      obtain ⟨⟨middle, taken⟩, first_step, rest⟩ := bind_eq_ok.mp run
      rw [List.cons_append, runSteps, first_step, ok_bind]
      exact induction rest

/-- Opening a builder over a built chain. -/
theorem start_ongoing (main_built : MainPointer.Built main)
    (fits : extent native main secondary ≤ maximum64) :
    ∃ builder, start native main secondary = .ok builder ∧
      builder.Ongoing native main secondary 0 := by
  obtain ⟨target, chain⟩ := main_built.indexes
  obtain ⟨builder, occurrences, started, building, count, native_eq, main_eq, secondary_eq⟩ :=
    start_ok chain fits
  exact ⟨builder, started, main_built, ⟨builder, [], started, rfl⟩, ⟨target, occurrences, building⟩,
    native_eq, main_eq, secondary_eq, count⟩

namespace Ongoing

variable {builder : ColaIndexBuilder P} {count : Nat}

theorem done_iff (ongoing : builder.Ongoing native main secondary count) :
    builder.done = true ↔ count = extent native main secondary := by
  obtain ⟨target, occurrences, building⟩ := ongoing.building
  rw [building.done_iff, building.length_eq, ongoing.count_eq, ongoing.native_eq,
    ongoing.main_eq, ongoing.secondary_eq]
  rfl

theorem count_le (ongoing : builder.Ongoing native main secondary count) :
    count ≤ extent native main secondary := by
  obtain ⟨target, occurrences, building⟩ := ongoing.building
  have bound := building.navigates.bound
  rw [building.length_eq, ongoing.count_eq, ongoing.native_eq, ongoing.main_eq,
    ongoing.secondary_eq] at bound
  exact bound

/-- A step takes as many occurrences as its budget and the sources allow. -/
theorem step_budget_ok (ongoing : builder.Ongoing native main secondary count) (budget : Nat) :
    ∃ following, builder.step budget =
        .ok (following, min budget (extent native main secondary - count)) ∧
      following.Ongoing native main secondary
        (count + min budget (extent native main secondary - count)) := by
  obtain ⟨target, occurrences, building⟩ := ongoing.building
  obtain ⟨opened, budgets, started, ran⟩ := ongoing.opened
  obtain ⟨following, stepped, after, taken, native_eq, main_eq, secondary_eq⟩ :=
    building.step_ok budget
  have length := building.length_eq
  rw [ongoing.native_eq, ongoing.main_eq, ongoing.secondary_eq] at length
  have left : occurrences.length - builder.count = extent native main secondary - count := by
    rw [length, ongoing.count_eq]
    rfl
  rw [left] at stepped taken
  exact ⟨following, stepped, ongoing.main_built,
    ⟨opened, budgets ++ [budget], started, runSteps_append budgets budget ran stepped⟩,
    ⟨target, occurrences, after⟩, native_eq.trans ongoing.native_eq,
    main_eq.trans ongoing.main_eq, secondary_eq.trans ongoing.secondary_eq,
    by rw [taken, ongoing.count_eq]⟩

/-- A step with a budget of one takes one occurrence while some are left. -/
theorem step_ok (ongoing : builder.Ongoing native main secondary count)
    (left : count < extent native main secondary) :
    ∃ following, builder.step 1 = .ok (following, 1) ∧
      following.Ongoing native main secondary (count + 1) := by
  have one : min 1 (extent native main secondary - count) = 1 := by omega
  obtain ⟨following, stepped, after⟩ := ongoing.step_budget_ok 1
  rw [one] at stepped after
  exact ⟨following, stepped, after⟩

theorem finish_main {closed : ColaIndexBuilder P} {index : ColaIndex P}
    (finished : builder.finish = .ok (closed, index)) : closed.main = builder.main := by
  unfold finish at finished
  split at finished
  · cases finished
  · split at finished
    · cases finished
    · obtain ⟨last, close, result⟩ := bind_eq_ok.mp finished
      have kept : last.main = builder.main := by
        unfold closeLast flushGroup at close
        split at close
        · obtain ⟨_, -, close⟩ := bind_eq_ok.mp close
          obtain ⟨_, -, close⟩ := bind_eq_ok.mp close
          cases close
          rfl
        · cases close
          rfl
      cases result
      exact kept

/-- A builder which has taken every occurrence is finished into a node. -/
theorem finish_ok (ongoing : builder.Ongoing native main secondary count)
    (whole : count = extent native main secondary) :
    ∃ closed index, builder.finish = .ok (closed, index) ∧ closed.main = main ∧
      ∀ address, MainPointer.Assembles (⟨address, index⟩ :: main) native main secondary := by
  obtain ⟨target, occurrences, building⟩ := ongoing.building
  obtain ⟨opened, budgets, started, ran⟩ := ongoing.opened
  have length := building.length_eq
  rw [ongoing.native_eq, ongoing.main_eq, ongoing.secondary_eq] at length
  obtain ⟨closed, index, finished, indexes, native_eq, secondary_eq⟩ :=
    building.finish_ok (by rw [ongoing.count_eq, whole, length]; rfl)
  refine ⟨closed, index, finished, (finish_main finished).trans ongoing.main_eq, fun address => ?_⟩
  refine ⟨⟨address, index, rfl, native_eq.trans ongoing.native_eq,
    secondary_eq.trans ongoing.secondary_eq, ?_⟩, .node address ongoing.main_built started ran
    finished⟩
  rw [indexes.count, length]
  rfl

theorem stepToEnd_ok (ongoing : builder.Ongoing native main secondary count) (fuel : Nat)
    (enough : extent native main secondary - count < fuel) :
    ∃ following, stepToEnd fuel builder = .ok following ∧
      following.Ongoing native main secondary (extent native main secondary) := by
  induction fuel generalizing builder count with
  | zero => omega
  | succ fuel induction =>
      rw [stepToEnd]
      by_cases done : builder.done = true
      · rw [if_pos done]
        rw [ongoing.done_iff] at done
        subst done
        exact ⟨builder, rfl, ongoing⟩
      · rw [if_neg done]
        rw [ongoing.done_iff] at done
        have left : count < extent native main secondary := lt_of_le_of_ne ongoing.count_le done
        obtain ⟨next, stepped, after⟩ := ongoing.step_ok left
        obtain ⟨following, ran, complete⟩ := induction after (by omega)
        exact ⟨following, by rw [stepped, ok_bind]; exact ran, complete⟩

end Ongoing

end ColaIndexBuilder

/-- A node over built targets is built at once, within 64-bit counts. -/
theorem Execution.buildNode_ok (e : Execution P) {native : Shared (NativeArray P)}
    {main : MainPointer P} {secondary : Option (Shared (NativeArray P))}
    (main_built : MainPointer.Built main)
    (fits : ColaIndexBuilder.extent native main secondary ≤ maximum64) :
    ∃ pair, e.buildNode native main secondary =
        .ok ({ e with allocated := e.allocated + 1 }, pair) ∧
      pair.Assembles native main secondary := by
  obtain ⟨builder, started, ongoing⟩ := ColaIndexBuilder.start_ongoing main_built fits
  obtain ⟨following, ran, complete⟩ := ongoing.stepToEnd_ok _ (Nat.lt_succ_of_le (Nat.sub_le _ _))
  obtain ⟨closed, index, finished, closed_main, assembles⟩ := complete.finish_ok rfl
  refine ⟨⟨e.allocated, index⟩ :: main, ?_, assembles e.allocated⟩
  rw [buildNode, started, ok_bind, ran, ok_bind, finished, ok_bind]
  rfl

end Everett

import Everett.Binary.Service

/-!
# What binary runtimes publish

Every snapshot which any sequence of calls publishes is a binary frontier.
-/

namespace Everett

open Outcome ColaSnapshot

variable {P : StoragePolicy}

namespace ColaRuntime

/-- Runtimes which any sequence of calls reaches, also over a snapshot of another. -/
inductive Reachable : ColaRuntime P → Prop
  | start {composition : Composition P} {e : ColaRuntime P} (started : start composition = .ok e) :
      Reachable e
  | fromSnapshot {allocated : Nat} {composition : Composition P} {e e' : ColaRuntime P}
      (before : Reachable e) (resumed : fromSnapshot allocated e.published composition = .ok e') :
      Reachable e'
  | contribute {e e' : ColaRuntime P} {records : List ProfileRecord} {serviceBudget turns : Nat}
      {answer : Result (ColaSnapshot P)} (before : Reachable e)
      (called : e.contribute records serviceBudget turns = some (answer, e')) : Reachable e'
  | tryContribute {e e' : ColaRuntime P} {record : ProfileRecord} {serviceBudget turns : Nat}
      {answer : Result (Option (ColaSnapshot P))} (before : Reachable e)
      (called : e.tryContribute record serviceBudget turns = some (answer, e')) : Reachable e'
  | advance {e : ColaRuntime P} (before : Reachable e) (budget : Nat) :
      Reachable (e.advance budget).2

theorem Reachable.inv {e : ColaRuntime P} (reachable : e.Reachable) : e.Inv := by
  induction reachable with
  | start started => exact start_inv started
  | fromSnapshot _ resumed induction => exact induction.fromSnapshot resumed
  | contribute _ called induction => exact induction.contribute called
  | tryContribute _ called induction => exact induction.tryContribute called
  | advance _ budget induction => exact induction.advance budget

end ColaRuntime

/-- A snapshot whose runs, oldest first, partition its admissions into decreasing powers of two. -/
structure BinaryFrontier (snapshot : ColaSnapshot P) : Prop where
  first : ∀ run ∈ snapshot.runs.head?, run.first = 0
  adjacent : snapshot.runs.IsChain fun older newer => older.last = newer.first
  last : (snapshot.runs.getLast?.map ColaRun.last).getD 0 = snapshot.admissions
  mass : ∀ run ∈ snapshot.runs, run.first < run.last ∧ ∃ k, run.mass = 2 ^ k
  /-- Only the last two masses may be equal, and then both are one. -/
  decreasing : ∀ older a b newer, snapshot.runs = older ++ a :: b :: newer →
    b.mass < a.mass ∨ (newer = [] ∧ a.mass = 1 ∧ b.mass = 1)
  /-- The chain of a run reaches the natives up to it, and else only empty ones. -/
  run_natives : ∀ older run newer, snapshot.runs = older ++ run :: newer →
    natives run.pointer = ((older ++ [run]).map ColaRun.native).reverse
  query_natives : natives snapshot.query = (snapshot.runs.map ColaRun.native).reverse
  restored : restore snapshot.query snapshot.intervals = .ok snapshot

section
variable {next last : Nat} {previous : Option Nat} {runs older newer : List (ColaRun P)}

theorem Descends.append (descends : Descends next previous (older ++ newer) last) :
    ∃ next' previous', Descends next' previous' newer last := by
  induction older generalizing next previous with
  | nil => exact ⟨next, previous, descends⟩
  | cons run older induction => exact induction descends.2.2.2

theorem Descends.adjacent (descends : Descends next previous runs last) :
    runs.IsChain fun older newer => older.last = newer.first := by
  induction runs generalizing next previous with
  | nil => exact .nil
  | cons run runs induction =>
      obtain ⟨-, -, -, descends⟩ := descends
      cases runs with
      | nil => exact .singleton run
      | cons after runs => exact .cons_cons descends.2.1.symm (induction descends)

theorem Descends.last_eq (descends : Descends next previous runs last) :
    (runs.getLast?.map ColaRun.last).getD next = last := by
  induction runs generalizing next previous with
  | nil => exact descends
  | cons run runs induction =>
      have rest := induction descends.2.2.2
      cases runs with
      | nil => exact rest
      | cons after runs =>
          rw [List.getLast?_cons_cons]
          rw [List.getLast?_eq_some_getLast (List.cons_ne_nil _ _)] at rest ⊢
          exact rest

end

/-- The sources before one of a chain are those of its main target. -/
theorem ColaSnapshot.sources_append {chain main : MainPointer P} {node : Shared (ColaIndex P)}
    {newer older : List (Shared (ColaIndex P) × MainPointer P)}
    (sources_eq : sources chain = newer ++ (node, main) :: older) :
    sources (node :: main) = (node, main) :: older := by
  induction newer generalizing chain with
  | nil =>
      obtain ⟨same, runs, -⟩ := sources_main sources_eq
      rw [sources_cons runs, same]
  | cons source newer induction => exact induction (sources_main sources_eq).1

theorem ColaSnapshot.Valid.binaryFrontier {snapshot : ColaSnapshot P} (valid : snapshot.Valid) :
    BinaryFrontier snapshot := by
  have descends := valid.frontier.descends
  rw [List.reverse_reverse] at descends
  have sources_eq := valid.sources_eq
  refine ⟨?_, descends.adjacent, descends.last_eq, ?_, ?_, ?_, ?_, valid.restore_ok⟩
  · intro run first
    cases runs_eq : snapshot.runs with
    | nil =>
        rw [runs_eq] at first
        cases first
    | cons oldest runs =>
        rw [runs_eq] at first descends
        cases first
        exact descends.2.1
  · intro run member
    obtain ⟨older, newer, runs_eq⟩ := List.append_of_mem member
    rw [runs_eq] at descends
    obtain ⟨_, _, sound, -⟩ := descends.append
    exact ⟨sound.first_lt, sound.mass_pow⟩
  · intro older a b newer runs_eq
    rw [runs_eq] at descends
    obtain ⟨_, _, -, -, -, -, -, less, -⟩ := descends.append
    exact less a.mass rfl
  · intro older run newer runs_eq
    rw [runs_eq, List.reverse_append, List.reverse_cons, List.append_assoc, List.singleton_append,
      List.map_append, List.map_cons] at sources_eq
    rw [natives_eq, ColaRun.pointer, sources_append sources_eq, List.map_cons, List.map_map,
      List.map_append, List.reverse_append, List.map_reverse]
    rfl
  · rw [natives_eq, sources_eq, List.map_map, List.map_reverse]
    rfl

/-- Whatever is contributed and however it is served, every published snapshot is a binary
frontier, and its head and intervals restore it. -/
theorem binary_runtime_frontier {e : ColaRuntime P} (reachable : e.Reachable) :
    BinaryFrontier e.published :=
  reachable.inv.published.binaryFrontier

/-- A record is contributed and a carry refused. -/
theorem binary_runtime_frontier_two : ∃ e : ColaRuntime .bytes3, e.published.admissions = 2 ∧
    BinaryFrontier e.published := by
  have started := @ColaRuntime.Reachable.start .bytes3 (replaceNativeValue .bytes3) _ rfl
  have contributed := @ColaRuntime.Reachable.contribute .bytes3 _ _
    [⟨List.replicate 8 false, [], none⟩, ⟨List.replicate 8 true, [], none⟩] 4 1 _ started rfl
  exact ⟨_, rfl, binary_runtime_frontier contributed⟩

end Everett

import Everett.Binary.Runtime

/-!
# Frontiers of runs

The runs of a snapshot cover the admissions without gaps, with masses which are powers of two and
decrease with time.  The chain of each run reaches the natives of the runs up to it, and of no
others.
-/

namespace Everett

open Outcome

variable {P : StoragePolicy}

namespace ColaRun

/-- A run of one or more records, of at most as many as its mass, which is a power of two. -/
structure Sound (run : ColaRun P) : Prop where
  first_lt : run.first < run.last
  mass_pow : ∃ k, run.mass = 2 ^ k
  size_pos : 0 < run.native.value.size
  size_le : run.native.value.size ≤ run.mass
  valid : run.native.value.ValidValues

theorem Sound.mass_pos {run : ColaRun P} (sound : run.Sound) : 0 < run.mass :=
  Nat.sub_pos_of_lt sound.first_lt

/-- The node of a run and its main target. -/
def source (run : ColaRun P) : Shared (ColaIndex P) × MainPointer P := (run.node, run.main)

end ColaRun

/-- Runs newest first, up to some admission, whose masses increase with age. -/
def Tower : Nat → List (ColaRun P) → Prop
  | last, [] => last = 0
  | last, run :: older => run.Sound ∧ run.last = last ∧
      (∀ before ∈ older.head?, run.mass < before.mass) ∧ Tower run.first older

/-- Runs newest first; two runs of mass one may be the newest. -/
def Frontier (last : Nat) (runs : List (ColaRun P)) : Prop :=
  Tower last runs ∨ ∃ newest older rest, runs = newest :: older :: rest ∧ newest.Sound ∧
    newest.last = last ∧ newest.mass = 1 ∧ older.mass = 1 ∧ Tower newest.first (older :: rest)

/-- Runs oldest first, from one admission to another, after a run of some mass. -/
def Descends : Nat → Option Nat → List (ColaRun P) → Nat → Prop
  | next, _, [], last => next = last
  | next, previous, run :: runs, last => run.Sound ∧ run.first = next ∧
      (∀ before ∈ previous, run.mass < before ∨ (runs = [] ∧ before = 1 ∧ run.mass = 1)) ∧
      Descends run.last (some run.mass) runs last

theorem Tower.descends {last top : Nat} {newer : List (ColaRun P)} {runs : List (ColaRun P)}
    (tower : Tower last runs) (above : Descends last (runs.head?.map ColaRun.mass) newer top) :
    Descends 0 none (runs.reverse ++ newer) top := by
  induction runs generalizing last newer with
  | nil =>
      cases tower
      exact above
  | cons run older induction =>
      obtain ⟨sound, rfl, less, tower⟩ := tower
      rw [List.reverse_cons, List.append_assoc]
      refine induction tower ⟨sound, rfl, fun mass member => ?_, above⟩
      obtain ⟨before, first, rfl⟩ := Option.mem_map.mp member
      exact .inl (less before first)

theorem Frontier.descends {last : Nat} {runs : List (ColaRun P)} (frontier : Frontier last runs) :
    Descends 0 none runs.reverse last := by
  rcases frontier with tower | ⟨newest, older, rest, rfl, sound, rfl, newest_mass, older_mass, tower⟩
  · have whole := @Tower.descends P _ last [] _ tower rfl
    rwa [List.append_nil] at whole
  · rw [List.reverse_cons]
    refine tower.descends ⟨sound, rfl, fun mass member => ?_, rfl⟩
    cases member
    exact .inr ⟨rfl, older_mass, newest_mass⟩

/-- Settled runs have distinct masses. -/
theorem Frontier.settled {last : Nat} {runs : List (ColaRun P)} (frontier : Frontier last runs)
    (settled : ColaSnapshot.settledRuns runs = true) : Tower last runs := by
  rcases frontier with tower | ⟨newest, older, rest, rfl, -, -, newest_mass, older_mass, -⟩
  · exact tower
  · rw [ColaSnapshot.settledRuns, newest_mass, older_mass] at settled
    cases settled

/-- A run of mass one is added to settled runs. -/
theorem Tower.admission {last : Nat} {runs : List (ColaRun P)} {run : ColaRun P}
    (tower : Tower last runs) (sound : run.Sound) (first : run.first = last) (mass : run.mass = 1) :
    Frontier run.last (run :: runs) := by
  subst first
  cases runs with
  | nil => exact .inl ⟨sound, rfl, nofun, tower⟩
  | cons older rest =>
      by_cases equal : older.mass = 1
      · exact .inr ⟨run, older, rest, rfl, sound, rfl, mass, equal, tower⟩
      · refine .inl ⟨sound, rfl, fun before same => ?_, tower⟩
        cases same
        have positive := tower.1.mass_pos
        omega

theorem MainPointer.Built.main {main : MainPointer P} {node : Shared (ColaIndex P)}
    (built : MainPointer.Built (node :: main)) : MainPointer.Built main := by
  cases built
  assumption

namespace ColaSnapshot

theorem sources_cons {node : Shared (ColaIndex P)} {main : MainPointer P}
    (runs : node.value.native.value.size ≠ 0) :
    sources (node :: main) = (node, main) :: sources main := by
  rw [sources, if_pos runs]

theorem sources_routing {node : Shared (ColaIndex P)} {main : MainPointer P}
    (routes : node.value.native.value.size = 0) : sources (node :: main) = sources main := by
  rw [sources, if_neg (not_not.mpr routes)]

/-- The sources after the newest one are those of its main target. -/
theorem sources_main {chain main : MainPointer P} {node : Shared (ColaIndex P)}
    {older : List (Shared (ColaIndex P) × MainPointer P)}
    (newest : sources chain = (node, main) :: older) :
    sources main = older ∧ node.value.native.value.size ≠ 0 ∧
      (MainPointer.Built chain → MainPointer.Built (node :: main)) := by
  induction chain with
  | nil => cases newest
  | cons first rest induction =>
      by_cases runs : first.value.native.value.size ≠ 0
      · rw [sources_cons runs] at newest
        cases newest
        exact ⟨rfl, runs, id⟩
      · rw [sources_routing (not_not.mp runs)] at newest
        obtain ⟨same, positive, built⟩ := induction newest
        refine ⟨same, positive, fun whole => built ?_⟩
        cases whole
        assumption

/-- Natives which are reachable through a chain, apart from empty ones of routing nodes. -/
def natives (chain : MainPointer P) : List (Shared (NativeArray P)) :=
  (chain.map fun node => node.value.native).filter fun native => native.value.size ≠ 0

theorem natives_eq (chain : MainPointer P) :
    natives chain = (sources chain).map fun source => source.1.value.native := by
  induction chain with
  | nil => rfl
  | cons node main induction =>
      by_cases runs : node.value.native.value.size ≠ 0
      · rw [sources_cons runs, List.map_cons, ← induction, natives, natives, List.map_cons,
          List.filter_cons_of_pos (by simpa using runs)]
      · rw [sources_routing (not_not.mp runs), ← induction, natives, natives, List.map_cons,
          List.filter_cons_of_neg (by simpa using runs)]

/-- Dropping routing nodes drops no source. -/
theorem sources_nearWithin (limit : Nat) (target : MainPointer P) :
    sources (nearWithin limit target) = sources target := by
  induction target with
  | nil => rfl
  | cons node main induction =>
      cases main with
      | nil => rfl
      | cons next rest =>
          rw [nearWithin]
          split_ifs with drops
          · rw [induction, sources_routing drops.1]
          · rfl

theorem built_nearWithin (limit : Nat) {target : MainPointer P} (built : target.Built) :
    (nearWithin limit target).Built := by
  induction target with
  | nil => exact built
  | cons node main induction =>
      cases main with
      | nil => exact built
      | cons next rest =>
          rw [nearWithin]
          split_ifs
          · exact induction built.main
          · exact built

theorem adoptPrepared_eq {head query : MainPointer P} (adopted : adoptPrepared head = .ok query) :
    query = head := by
  obtain ⟨_, -, rest⟩ := bind_eq_ok.mp adopted
  obtain ⟨_, -, rest⟩ := bind_eq_ok.mp rest
  exact (Except.ok.inj rest).symm

/-- A snapshot whose query reaches its runs. -/
structure Valid (snapshot : ColaSnapshot P) : Prop where
  frontier : Frontier snapshot.admissions snapshot.runs.reverse
  sources_eq : sources snapshot.query = snapshot.runs.reverse.map ColaRun.source
  built : snapshot.query.Built
  adopted : adoptPrepared snapshot.query = .ok snapshot.query

theorem hasSingleBit_pow (k : Nat) : hasSingleBit (2 ^ k) = true := by
  rw [hasSingleBit, Nat.log2_two_pow, decide_eq_true_eq]

theorem restoreRuns_ok {next last : Nat} {previous : Option Nat} {runs : List (ColaRun P)}
    (descends : Descends next previous runs last) :
    restoreRuns next previous (runs.map fun run => (run.first, run.last))
      (runs.map ColaRun.source) = .ok (runs, last) := by
  induction runs generalizing next previous with
  | nil =>
      cases descends
      rfl
  | cons run runs induction =>
      obtain ⟨sound, rfl, less, descends⟩ := descends
      have single : hasSingleBit (run.last - run.first) = true := by
        obtain ⟨k, mass⟩ := sound.mass_pow
        rw [ColaRun.mass] at mass
        rw [mass]
        exact hasSingleBit_pow k
      have smaller : ∀ before ∈ previous, run.last - run.first < before ∨
          (runs.map (fun run => (run.first, run.last)) = [] ∧ before = 1 ∧
            run.last - run.first = 1) := by
        intro before member
        rcases less before member with smaller | ⟨rfl, ones⟩
        · exact .inl smaller
        · exact .inr ⟨rfl, ones⟩
      have small : run.node.value.native.value.size ≤ run.last - run.first := sound.size_le
      have rest := induction descends
      rw [ColaRun.mass] at rest
      rw [List.map_cons, List.map_cons, ColaRun.source, restoreRuns,
        require_true ⟨rfl, sound.first_lt, single, smaller⟩, ok_bind, require_true small, ok_bind,
        rest, ok_bind]

/-- A valid snapshot is restored from its query and its intervals. -/
theorem Valid.restore_ok {snapshot : ColaSnapshot P} (valid : snapshot.Valid) :
    restore snapshot.query snapshot.intervals = .ok snapshot := by
  have nodes : (sources snapshot.query).reverse = snapshot.runs.map ColaRun.source := by
    rw [valid.sources_eq, List.map_reverse, List.reverse_reverse]
  have descends := valid.frontier.descends
  rw [List.reverse_reverse] at descends
  have lengths : (snapshot.runs.map ColaRun.source).length = snapshot.intervals.length := by
    rw [intervals, List.length_map, List.length_map]
  rw [restore, valid.adopted, ok_bind, nodes]
  dsimp only
  rw [require_true lengths, ok_bind, intervals, restoreRuns_ok descends, ok_bind]

end ColaSnapshot

end Everett

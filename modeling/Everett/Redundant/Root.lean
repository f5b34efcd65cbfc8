import Everett.Redundant.Slots

/-!
# Preparing a query root

The root of a frontier is indexed until its head has one group.  The nodes which are added hold no
native keys: they only route a query to the root.
-/

namespace Everett

open Word Outcome

variable {P : StoragePolicy}

/-- Nodes without native keys lead from a head to a main target and a secondary array. -/
inductive RoutesTo : MainPointer P → MainPointer P → Option (Shared (NativeArray P)) → Prop
  | direct {main : MainPointer P} : RoutesTo main main none
  | carrier {head main : MainPointer P} {native : Shared (NativeArray P)}
      {secondary : Option (Shared (NativeArray P))} (bare : native.value.size = 0)
      (assembles : head.Assembles native main secondary) : RoutesTo head main secondary
  | more {upper head main : MainPointer P} {native : Shared (NativeArray P)}
      {secondary : Option (Shared (NativeArray P))} (bare : native.value.size = 0)
      (assembles : upper.Assembles native head none) (below : RoutesTo head main secondary) :
      RoutesTo upper main secondary

/-- A bounded head through which queries reach a root. -/
structure Prepared (head : MainPointer P) (root : Routes P) : Prop where
  ne_nil : head ≠ []
  built : MainPointer.Built head
  bounded : MainPointer.virtualSize head ≤ P.groupSize
  unrooted : root.main = none → ∃ native, native.value.size = 0 ∧ head.Assembles native [] none
  rooted : root.main ≠ none → RoutesTo head root.mainPair root.secondaryNative

theorem Prepared.adopt_ok {head : MainPointer P} {root : Routes P} (prepared : Prepared head root) :
    adoptPrepared head = .ok head := by
  obtain ⟨node, rest, rfl⟩ := List.exists_cons_of_ne_nil prepared.ne_nil
  have aligned : P.Aligned [] := Dvd.intro_left 0 (Nat.zero_mul _)
  exact (prepared.built.open_ok prepared.bounded aligned).1

theorem RoutesTo.trans_carrier {head middle main : MainPointer P}
    {secondary : Option (Shared (NativeArray P))} (upper : RoutesTo head middle none)
    (lower : RoutesTo middle main secondary) : RoutesTo head main secondary := by
  generalize none_eq : (none : Option (Shared (NativeArray P))) = absent at upper
  induction upper with
  | direct => exact lower
  | carrier bare assembles =>
      subst none_eq
      exact .more bare assembles lower
  | more bare assembles _ induction => exact .more bare assembles (induction lower none_eq)

namespace Execution

variable {e : Execution P}

/-- A root of several groups is indexed level by level until one group is left. -/
theorem prepareRootLoop_ok (bare : e.emptyNative.value.size = 0) (fuel : Nat)
    {main : MainPointer P} (built : MainPointer.Built main) (wide : P.groupSize < main.virtualSize)
    (fits : main.virtualSize ≤ maximum64) (enough : main.virtualSize ≤ fuel) :
    ∃ allocated head, e.prepareRootLoop fuel main none =
        .ok ({ e with allocated }, head) ∧ head ≠ [] ∧ MainPointer.Built head ∧
      MainPointer.virtualSize head ≤ P.groupSize ∧ RoutesTo head main none := by
  induction fuel generalizing main e with
  | zero =>
      have := P.groupSize_pos
      omega
  | succ fuel induction =>
      have extent : ColaIndexBuilder.extent e.emptyNative main none =
          ceilDiv main.virtualSize P.groupSize := by
        simp [ColaIndexBuilder.extent, bare, MainPointer.groupCount_eq, secondaryCount]
      have fewer : ceilDiv main.virtualSize P.groupSize < main.virtualSize := by
        have third := (ceilDiv_le_iff (n := main.virtualSize) (m := main.virtualSize - 1)
          P.groupSize_pos).mpr (by
            have three := P.groupSize_ge
            calc
              main.virtualSize ≤ (main.virtualSize - 1) * 3 := by omega
              _ ≤ (main.virtualSize - 1) * P.groupSize := Nat.mul_le_mul_left _ three)
        have := P.groupSize_pos
        omega
      obtain ⟨upper, made, assembles⟩ := @Execution.buildNode_ok P e e.emptyNative _ none built
        (by omega)
      have size := assembles.virtualSize_eq
      rw [extent] at size
      rw [prepareRootLoop, made, ok_bind]
      simp only
      by_cases still_wide : P.groupSize < upper.virtualSize
      · rw [if_pos still_wide]
        obtain ⟨allocated, head, prepared, ne_nil, head_built, bounded, routes⟩ :=
          induction (e := { e with allocated := e.allocated + 1 }) bare assembles.built still_wide
            (by omega) (by omega)
        exact ⟨allocated, head, prepared, ne_nil, head_built, bounded,
          routes.trans_carrier (.carrier bare assembles)⟩
      · rw [if_neg still_wide]
        exact ⟨e.allocated + 1, upper, rfl, assembles.ne_nil, assembles.built,
          Nat.not_lt.mp still_wide, .carrier bare assembles⟩

/-- Preparing a root over built targets succeeds and yields a bounded head. -/
theorem prepareRoot_ok (bare : e.emptyNative.value.size = 0)
    (empty_pair : ∃ native, native.value.size = 0 ∧ e.emptyPair.Assembles native [] none)
    {root : Routes P} (built : MainPointer.Built root.mainPair)
    (indexed : root.main ≠ none → root.mainPair ≠ []) (bare_root : root.main = none → root = .none)
    (fits : root.mainPair.virtualSize + secondaryCount P root.secondaryNative ≤ maximum64) :
    ∃ allocated head, e.prepareRoot root.mainPair root.secondaryNative =
      .ok ({ e with allocated }, head) ∧ Prepared head root := by
  unfold prepareRoot
  by_cases no_main : root.main = none
  · rw [bare_root no_main]
    obtain ⟨native, native_bare, assembles⟩ := empty_pair
    have size := assembles.virtualSize_eq
    have none_left : ColaIndexBuilder.extent native ([] : MainPointer P) none = 0 := by
      simp [ColaIndexBuilder.extent, native_bare, MainPointer.groupCount, secondaryCount]
    rw [none_left] at size
    exact ⟨e.allocated, e.emptyPair, rfl, assembles.ne_nil, assembles.built,
      size ▸ Nat.zero_le _, fun _ => ⟨native, native_bare, assembles⟩, fun some_main =>
        absurd rfl some_main⟩
  · have main_ne := indexed no_main
    have not_empty : ¬ root.mainPair.isEmpty = true := by
      rw [List.isEmpty_iff]
      exact main_ne
    rw [if_neg not_empty]
    have rooted : ∀ {head : MainPointer P}, head ≠ [] → MainPointer.Built head →
        MainPointer.virtualSize head ≤ P.groupSize →
        RoutesTo head root.mainPair root.secondaryNative → Prepared head root :=
      fun ne_nil head_built bounded routes =>
        ⟨ne_nil, head_built, bounded, fun none_main => absurd none_main no_main, fun _ => routes⟩
    by_cases ready : root.secondaryNative.isNone = true ∧ root.mainPair.virtualSize ≤ P.groupSize
    · rw [if_pos ready]
      have none_beside : root.secondaryNative = none := Option.isNone_iff_eq_none.mp ready.1
      exact ⟨e.allocated, root.mainPair, rfl, rooted main_ne built ready.2
        (none_beside ▸ .direct)⟩
    · rw [if_neg ready]
      have extent : ColaIndexBuilder.extent e.emptyNative root.mainPair root.secondaryNative =
          ceilDiv root.mainPair.virtualSize P.groupSize +
            secondaryCount P root.secondaryNative := by
        simp [ColaIndexBuilder.extent, bare, MainPointer.groupCount_eq]
      have groups := ceilDiv_le_self (n := root.mainPair.virtualSize) P.groupSize_pos
      have leaves : secondaryCount P root.secondaryNative ≤
          (root.secondaryNative.map fun leaf => leaf.value.size).getD 0 := by
        cases root.secondaryNative with
        | none => exact le_rfl
        | some leaf => exact ceilDiv_le_self P.groupSize_pos
      obtain ⟨upper, made, assembles⟩ := @Execution.buildNode_ok P e e.emptyNative _
        root.secondaryNative built (by omega)
      have size := assembles.virtualSize_eq
      rw [extent] at size
      rw [prepareRootLoop, made, ok_bind]
      simp only
      by_cases wide : P.groupSize < upper.virtualSize
      · rw [if_pos wide]
        obtain ⟨allocated, head, prepared, ne_nil, head_built, bounded, routes⟩ :=
          prepareRootLoop_ok (e := { e with allocated := e.allocated + 1 }) bare
            (root.mainPair.virtualSize +
              (root.secondaryNative.map fun leaf => leaf.value.size).getD 0) assembles.built wide
            (by omega) (by omega)
        exact ⟨allocated, head, prepared, rooted ne_nil head_built bounded
          (routes.trans_carrier (.carrier bare assembles))⟩
      · rw [if_neg wide]
        exact ⟨e.allocated + 1, upper, rfl, rooted assembles.ne_nil assembles.built
          (Nat.not_lt.mp wide) (.carrier bare assembles)⟩

end Execution

end Everett

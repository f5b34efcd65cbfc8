import Everett.Cola.Work
import Everett.Redundant.Root
import Everett.Redundant.Runtime

/-!
# The work of preparing a root

Root preparation adds nodes without native keys until the head has one group.  How many it adds is a
function of the sizes it starts from, and the structural events of each of them are covered by the
price which `root_price` counts for that size.
-/

namespace Everett

open Word Outcome Occurrences

variable {P : StoragePolicy}

/-! ## Sizes -/

/-- Occurrences of an optional secondary array. -/
def augmentedSecondary (secondary : Option (Shared (NativeArray P))) : Nat :=
  (secondary.map fun leaf => leaf.value.size).getD 0

variable (P) in
/-- The sizes through which the loop of `root_price` goes. -/
def rootSizesLoop : Nat → Nat → Nat → List Nat
  | 0, _, _ => []
  | fuel + 1, main, secondary =>
      let next := ceilDiv main P.groupSize + ceilDiv secondary P.groupSize
      next :: if P.groupSize < next then rootSizesLoop fuel next 0 else []

variable (P) in
/-- Virtual sizes of the nodes which `root_price` pays for. -/
def rootSizes (main secondary : Nat) : List Nat :=
  if secondary = 0 ∧ main ≤ P.groupSize then []
  else rootSizesLoop P (main + secondary + 1) main secondary

theorem secondaryCount_eq (secondary : Option (Shared (NativeArray P))) :
    secondaryCount P secondary = ceilDiv (augmentedSecondary secondary) P.groupSize := by
  cases secondary with
  | none => exact (ceilDiv_zero _).symm
  | some leaf => rfl

/-- Groups have at least three members. -/
theorem three_ceilDiv_le (n : Nat) : 3 * ceilDiv n P.groupSize ≤ n + 2 := by
  have thirds : ceilDiv n P.groupSize ≤ (n + 2) / 3 := by
    rw [ceilDiv_le_iff P.groupSize_pos]
    calc
      n ≤ (n + 2) / 3 * 3 := by omega
      _ ≤ (n + 2) / 3 * P.groupSize := Nat.mul_le_mul_left _ P.groupSize_ge
  omega

theorem augmentedSecondary_le (secondary : Option (Shared (NativeArray P))) :
    augmentedSecondary secondary ≤ maximum64 := by
  cases secondary with
  | none => exact Nat.zero_le _
  | some leaf => exact leaf.value.count

/-- A built head has a 64-bit number of occurrences. -/
theorem MainPointer.Built.virtualSize_le {main : MainPointer P} (built : main.Built) :
    main.virtualSize ≤ maximum64 := by
  obtain ⟨occurrences, chain⟩ := built.indexes
  cases main with
  | nil => exact Nat.zero_le _
  | cons node rest =>
      obtain ⟨target, -, indexes⟩ := chain
      exact indexes.count.trans_le indexes.count_le

/-- A node over built targets never overflows. -/
theorem MainPointer.Built.extent_le {native : Shared (NativeArray P)} {main : MainPointer P}
    (built : main.Built) (bare : native.value.size = 0)
    (secondary : Option (Shared (NativeArray P))) :
    ColaIndexBuilder.extent native main secondary ≤ maximum64 := by
  have main_le := built.virtualSize_le
  have secondary_le := augmentedSecondary_le secondary
  have main_groups := three_ceilDiv_le (P := P) main.virtualSize
  have secondary_groups := three_ceilDiv_le (P := P) (augmentedSecondary secondary)
  have large : 4 ≤ maximum64 := by decide
  rw [ColaIndexBuilder.extent, bare, MainPointer.groupCount_eq, secondaryCount_eq]
  omega

/-! ## Queries -/

/-- Queries through a head find the match of a secondary array and the matches of a main chain, each
once, whatever the budgets of their steps are. -/
def MainPointer.Delivers (head main : MainPointer P)
    (secondary : Option (Shared (NativeArray P))) : Prop :=
  ∀ query, P.Aligned query → ∃ cursor side,
    adoptPrepared head = .ok head ∧ QueryCursor.start head query = .ok cursor ∧
    side.map (fun hit : QueryMatch P => (hit.secondary, hit.ordinal, hit.value)) =
      ((secondary.bind fun leaf => leaf.value.find? query).map fun found =>
        (true, found.1, found.2)).toList ∧
    (∀ hit ∈ side, ∃ node rest, hit.source = node :: rest ∧ node.value.secondary = secondary) ∧
    ∀ budgets, ∃ following found, cursor.drain budgets = .ok (following, found) ∧
      found <+: side ++ MainPointer.allMatches query main ∧
      (following.done = true → found = side ++ MainPointer.allMatches query main) ∧
      (head.length ≤ budgets.countP (0 < ·) → following.done = true)

/-- Routing nodes only add the match of their secondary array. -/
theorem RoutesTo.allMatches {head main : MainPointer P}
    {secondary : Option (Shared (NativeArray P))} (routes : RoutesTo head main secondary)
    (query : BitString) : ∃ side, MainPointer.allMatches query head =
        side ++ MainPointer.allMatches query main ∧
      side.map (fun hit : QueryMatch P => (hit.secondary, hit.ordinal, hit.value)) =
        ((secondary.bind fun leaf => leaf.value.find? query).map fun found =>
          (true, found.1, found.2)).toList ∧
      ∀ hit ∈ side, ∃ node rest, hit.source = node :: rest ∧ node.value.secondary = secondary := by
  have bare_none : ∀ {native : Shared (NativeArray P)}, native.value.size = 0 →
      native.value.find? query = none := by
    intro native bare
    rw [ProfileArray.find?_eq_none, ProfileArray.keys, List.length_eq_zero_iff.mp bare]
    exact List.not_mem_nil
  induction routes with
  | direct => exact ⟨[], rfl, rfl, by simp⟩
  | @carrier head main native secondary bare assembles =>
      obtain ⟨address, index, rfl, native_eq, secondary_eq, -⟩ := assembles.shape
      refine ⟨((secondary.bind fun leaf => leaf.value.find? query).map fun found =>
        (⟨⟨address, index⟩ :: main, true, found.1, found.2⟩ : QueryMatch P)).toList, ?_, ?_, ?_⟩
      · simp [MainPointer.allMatches, native_eq, secondary_eq, bare_none bare]
      · cases secondary.bind fun leaf => leaf.value.find? query <;> rfl
      · intro hit member
        rw [Option.mem_toList, Option.map_eq_some_iff] at member
        obtain ⟨_, -, rfl⟩ := member
        exact ⟨_, _, rfl, secondary_eq⟩
  | @more upper head main native secondary bare assembles below induction =>
      obtain ⟨side, matches_eq, found, source⟩ := induction
      obtain ⟨address, index, rfl, native_eq, secondary_eq, -⟩ := assembles.shape
      refine ⟨side, ?_, found, source⟩
      rw [← matches_eq]
      simp [MainPointer.allMatches, native_eq, secondary_eq, bare_none bare]

theorem RoutesTo.delivers {head main : MainPointer P}
    {secondary : Option (Shared (NativeArray P))} (routes : RoutesTo head main secondary)
    (some_head : head ≠ []) (built : head.Built) (bounded : head.virtualSize ≤ P.groupSize) :
    head.Delivers main secondary := by
  intro query aligned
  obtain ⟨node, rest, rfl⟩ := List.exists_cons_of_ne_nil some_head
  obtain ⟨side, matches_eq, found, source⟩ := routes.allMatches query
  obtain ⟨root, cursor, accepted, started, drains⟩ := lookup_matches built bounded aligned
  have same := (built.open_ok bounded aligned).1
  rw [same] at accepted
  cases accepted
  refine ⟨cursor, side, same, started, found, source, fun budgets => ?_⟩
  obtain ⟨following, hits, ran, initial, complete, enough⟩ := drains budgets
  rw [matches_eq] at initial complete
  exact ⟨following, hits, ran, initial, complete, enough⟩

/-! ## Metered preparation -/

/-- A node which root preparation added: its virtual size and the structural events it took. -/
structure RoutingNode where
  size : Nat
  events : Nat

namespace Execution

/-- `build_index` with its structural events. -/
def buildNodeMetered (e : Execution P) (native : Shared (NativeArray P)) (main : MainPointer P)
    (secondary : Option (Shared (NativeArray P))) :
    Result (Execution P × MainPointer P × Nat) := do
  let builder ← ColaIndexBuilder.start native main secondary
  let builder ← builder.stepToEnd (ColaIndexBuilder.extent native main secondary + 1)
  let (closed, index) ← builder.finish
  let (e, pair) := e.shareNode index main
  .ok (e, pair, closed.events)

/-- The loop of `prepare_root` with the nodes which it adds. -/
def prepareRootLoopMetered : Nat → Execution P → MainPointer P →
    Option (Shared (NativeArray P)) → Result (Execution P × MainPointer P × List RoutingNode)
  | 0, e, main, _ => .ok (e, main, [])
  | fuel + 1, e, main, secondary => do
      let (e, main, events) ← e.buildNodeMetered e.emptyNative main secondary
      if P.groupSize < main.virtualSize then do
        let (e, head, nodes) ← prepareRootLoopMetered fuel e main none
        .ok (e, head, ⟨main.virtualSize, events⟩ :: nodes)
      else .ok (e, main, [⟨main.virtualSize, events⟩])

/-- `prepare_root` with the nodes which it adds. -/
def prepareRootMetered (e : Execution P) (main : MainPointer P)
    (secondary : Option (Shared (NativeArray P))) :
    Result (Execution P × MainPointer P × List RoutingNode) :=
  if main.isEmpty = true then .ok (e, e.emptyPair, [])
  else if secondary.isNone = true ∧ main.virtualSize ≤ P.groupSize then .ok (e, main, [])
  else prepareRootLoopMetered (main.virtualSize + augmentedSecondary secondary + 1) e main secondary

/-- The node and the array without keys which the constructor of an executor makes. -/
def HasConstants (e : Execution P) : Prop :=
  ∃ composition fresh, start composition = .ok fresh ∧ e.emptyNative = fresh.emptyNative ∧
    e.emptyPair = fresh.emptyPair

theorem direct_constants {e following : Execution P} {amount : Nat}
    (charged : e.direct amount = .ok following) :
    following.emptyNative = e.emptyNative ∧ following.emptyPair = e.emptyPair := by
  obtain ⟨_, -, rest⟩ := bind_eq_ok.mp charged
  obtain ⟨tallied, tally_ok, result⟩ := bind_eq_ok.mp rest
  obtain ⟨_, -, same⟩ := bind_eq_ok.mp tally_ok
  cases same
  cases result
  exact ⟨rfl, rfl⟩

theorem HasConstants.spec {e : Execution P} (constants : e.HasConstants) :
    e.emptyNative.value.size = 0 ∧ e.emptyPair.Assembles e.emptyNative [] none := by
  obtain ⟨composition, fresh, started, native_eq, pair_eq⟩ := constants
  obtain ⟨builder, opened, rest⟩ := bind_eq_ok.mp started
  obtain ⟨⟨closed, index⟩, finished, rest⟩ := bind_eq_ok.mp rest
  obtain ⟨query, -, charged⟩ := bind_eq_ok.mp rest
  obtain ⟨fresh_native, fresh_pair⟩ := direct_constants charged
  have empty_native : e.emptyNative = ⟨0, ProfileArray.empty⟩ := native_eq.trans fresh_native
  have empty_pair : e.emptyPair = [⟨1, index⟩] := pair_eq.trans fresh_pair
  have none_left : ColaIndexBuilder.extent (⟨0, ProfileArray.empty⟩ : Shared (NativeArray P)) []
      none = 0 := rfl
  obtain ⟨builder', opened', ongoing⟩ := @ColaIndexBuilder.start_ongoing P
    ⟨0, ProfileArray.empty⟩ [] none .null (none_left.trans_le (Nat.zero_le _))
  rw [opened] at opened'
  cases opened'
  obtain ⟨closed', index', finished', -, assembles⟩ := ongoing.finish_ok none_left.symm
  rw [finished] at finished'
  cases finished'
  rw [empty_native, empty_pair]
  exact ⟨rfl, assembles 1⟩

/-- A metered build is the build itself. -/
theorem buildNode_metered (e : Execution P) (native : Shared (NativeArray P))
    (main : MainPointer P) (secondary : Option (Shared (NativeArray P))) :
    e.buildNode native main secondary =
      (fun built => (built.1, built.2.1)) <$> e.buildNodeMetered native main secondary := by
  unfold buildNode buildNodeMetered
  cases ColaIndexBuilder.start native main secondary with
  | error => rfl
  | ok opened =>
      rw [ok_bind, ok_bind]
      cases opened.stepToEnd (ColaIndexBuilder.extent native main secondary + 1) with
      | error => rfl
      | ok builder =>
          rw [ok_bind, ok_bind]
          cases builder.finish <;> rfl

theorem prepareRootLoop_metered (fuel : Nat) (e : Execution P) (main : MainPointer P)
    (secondary : Option (Shared (NativeArray P))) :
    e.prepareRootLoop fuel main secondary =
      (fun built => (built.1, built.2.1)) <$> e.prepareRootLoopMetered fuel main secondary := by
  induction fuel generalizing e main secondary with
  | zero => rfl
  | succ fuel induction =>
      rw [prepareRootLoop, prepareRootLoopMetered, buildNode_metered]
      cases e.buildNodeMetered e.emptyNative main secondary with
      | error => rfl
      | ok built =>
          obtain ⟨next, upper, events⟩ := built
          simp only [Except.map_ok, ok_bind]
          split
          · rw [induction]
            cases next.prepareRootLoopMetered fuel upper none <;> rfl
          · rfl

/-- A metered preparation is the preparation itself. -/
theorem prepareRoot_metered (e : Execution P) (main : MainPointer P)
    (secondary : Option (Shared (NativeArray P))) :
    e.prepareRoot main secondary =
      (fun built => (built.1, built.2.1)) <$> e.prepareRootMetered main secondary := by
  unfold prepareRoot prepareRootMetered
  split
  · rfl
  · split
    · rfl
    · exact prepareRootLoop_metered _ e main secondary

/-! ## The price covers the work -/

theorem stepToEnd_paced (fuel : Nat) {builder following : ColaIndexBuilder P}
    (paced : builder.Paced) (ran : builder.stepToEnd fuel = .ok following) : following.Paced := by
  induction fuel generalizing builder with
  | zero =>
      cases ran
      exact paced
  | succ fuel induction =>
      rw [ColaIndexBuilder.stepToEnd] at ran
      split at ran
      · cases ran
        exact paced
      · obtain ⟨⟨next, _⟩, stepped, rest⟩ := bind_eq_ok.mp ran
        exact induction (paced.step stepped) rest

/-- The events of a node are covered by its price. -/
theorem events_le_indexPrice {native : Shared (NativeArray P)} {main : MainPointer P}
    {secondary : Option (Shared (NativeArray P))} {builder closed : ColaIndexBuilder P}
    {index : ColaIndex P} (paced : builder.Paced) (finished : builder.finish = .ok (closed, index))
    {address : Nat} (assembles : MainPointer.Assembles (⟨address, index⟩ :: main) native main
      secondary) :
    closed.events ≤
      indexPrice P native.value.size main.virtualSize (augmentedSecondary secondary) := by
  obtain ⟨passed_eq, count_eq, index_count, ranks_eq, borrowed_eq⟩ :=
    ColaIndexBuilder.finish_sections finished
  obtain ⟨_, _, shape, native_eq, secondary_eq, count⟩ := assembles.shape
  cases shape
  obtain ⟨occurrences, target, chain, indexes⟩ := assembles.built.indexes
  obtain ⟨main_count, side_count⟩ := chain.borrowed_counts indexes
  have extent : ColaIndexBuilder.extent native main secondary = native.value.size +
      ceilDiv main.virtualSize P.groupSize +
      ceilDiv (augmentedSecondary secondary) P.groupSize := by
    rw [ColaIndexBuilder.extent, MainPointer.groupCount_eq, secondaryCount_eq]
  have groups : (closed.ranks .main).classes.length ≤
      ColaIndexBuilder.extent native main secondary := by
    rw [← ranks_eq, indexes.ranks, ← indexes.count, count]
    simpa using ceilDiv_le_self P.groupSize_pos
  have passed : closed.passed ≤ P.groupSize * ColaIndexBuilder.extent native main secondary := by
    rw [passed_eq, ← count, index_count, count_eq]
    exact paced
  rw [secondary_eq] at side_count
  rw [ColaIndexBuilder.events, indexPrice, ← borrowed_eq, main_count, side_count,
    MainPointer.groupCount_eq, secondaryCount_eq, ← index_count, count, Nat.mul_add,
    Nat.mul_comm _ P.groupSize, ← extent]
  omega

/-- A node over built targets is built with events covered by its price. -/
theorem buildNodeMetered_ok (e : Execution P) {native : Shared (NativeArray P)}
    {main : MainPointer P} {secondary : Option (Shared (NativeArray P))} (main_built : main.Built)
    (fits : ColaIndexBuilder.extent native main secondary ≤ maximum64) :
    ∃ pair events, e.buildNodeMetered native main secondary =
        .ok ({ e with allocated := e.allocated + 1 }, pair, events) ∧
      pair.Assembles native main secondary ∧ pair.length = main.length + 1 ∧
      events ≤ indexPrice P native.value.size main.virtualSize (augmentedSecondary secondary) := by
  obtain ⟨builder, started, ongoing⟩ := ColaIndexBuilder.start_ongoing main_built fits
  obtain ⟨following, ran, complete⟩ := ongoing.stepToEnd_ok _ (Nat.lt_succ_of_le (Nat.sub_le _ _))
  obtain ⟨closed, index, finished, -, assembles⟩ := complete.finish_ok rfl
  have paced := stepToEnd_paced _ (ColaIndexBuilder.start_paced started) ran
  refine ⟨⟨e.allocated, index⟩ :: main, closed.events, ?_, assembles e.allocated, rfl,
    events_le_indexPrice paced finished (assembles e.allocated)⟩
  rw [buildNodeMetered, started, ok_bind, ran, ok_bind, finished, ok_bind]
  rfl

/-- The loop goes through the sizes of `root_price` and does what it pays for. -/
theorem prepareRootLoopMetered_ok (fuel : Nat) {e : Execution P}
    (bare : e.emptyNative.value.size = 0) {main : MainPointer P} (built : main.Built)
    (secondary : Option (Shared (NativeArray P)))
    (enough : main.virtualSize + augmentedSecondary secondary < fuel) :
    ∃ allocated head nodes, e.prepareRootLoopMetered fuel main secondary =
        .ok ({ e with allocated }, head, nodes) ∧
      head ≠ [] ∧ head.Built ∧ head.virtualSize ≤ P.groupSize ∧ RoutesTo head main secondary ∧
      head.length = main.length + nodes.length ∧
      nodes.map RoutingNode.size =
        rootSizesLoop P fuel main.virtualSize (augmentedSecondary secondary) ∧
      (nodes.map RoutingNode.events).sum ≤
        rootPriceLoop P fuel main.virtualSize (augmentedSecondary secondary) := by
  induction fuel generalizing e main secondary with
  | zero => cases enough
  | succ fuel induction =>
      obtain ⟨upper, events, made, assembles, longer, covered⟩ := e.buildNodeMetered_ok built
        (built.extent_le bare secondary)
      have size := assembles.virtualSize_eq
      rw [ColaIndexBuilder.extent, bare, Nat.zero_add, MainPointer.groupCount_eq,
        secondaryCount_eq] at size
      rw [bare] at covered
      rw [prepareRootLoopMetered, made, ok_bind, rootSizesLoop, rootPriceLoop]
      dsimp only
      rw [← size]
      by_cases wide : P.groupSize < upper.virtualSize
      · have main_groups := three_ceilDiv_le (P := P) main.virtualSize
        have side_groups := three_ceilDiv_le (P := P) (augmentedSecondary secondary)
        have three := P.groupSize_ge
        have shrinks : upper.virtualSize + augmentedSecondary (P := P) none < fuel := by
          change upper.virtualSize + 0 < fuel
          omega
        obtain ⟨allocated, head, nodes, prepared, some_head, head_built, bounded, routes, length,
          sizes, paid⟩ := induction (e := { e with allocated := e.allocated + 1 }) bare
            assembles.built none shrinks
        rw [if_pos wide, if_pos wide, if_pos wide, prepared, ok_bind]
        refine ⟨allocated, head, _, rfl, some_head, head_built, bounded,
          routes.trans_carrier (.carrier bare assembles), ?_, ?_, ?_⟩
        · rw [length, longer, List.length_cons, Nat.add_assoc, Nat.add_comm 1]
        · rw [List.map_cons, sizes]
          rfl
        · rw [List.map_cons, List.sum_cons]
          exact Nat.add_le_add covered paid
      · rw [if_neg wide, if_neg wide, if_neg wide]
        exact ⟨e.allocated + 1, upper, _, rfl, assembles.ne_nil, assembles.built,
          Nat.not_lt.mp wide, .carrier bare assembles, longer, rfl, by simpa using covered⟩

/-- Preparing a root over a built chain yields a bounded head, and adds the nodes of `root_price`
unless an empty secondary array stands beside a head of one group. -/
theorem prepareRootMetered_ok {e : Execution P} (bare : e.emptyNative.value.size = 0)
    {node : Shared (ColaIndex P)} {rest : MainPointer P}
    (built : MainPointer.Built (node :: rest)) (secondary : Option (Shared (NativeArray P))) :
    ∃ allocated head nodes, e.prepareRootMetered (node :: rest) secondary =
        .ok ({ e with allocated }, head, nodes) ∧
      head ≠ [] ∧ head.Built ∧ head.virtualSize ≤ P.groupSize ∧
      RoutesTo head (node :: rest) secondary ∧
      head.length = (node :: rest).length + nodes.length ∧
      ((∀ leaf ∈ secondary, leaf.value.size = 0 → P.groupSize < node.value.virtualSize) →
        nodes.map RoutingNode.size =
            rootSizes P node.value.virtualSize (augmentedSecondary secondary) ∧
          (nodes.map RoutingNode.events).sum ≤
            rootPrice P node.value.virtualSize (augmentedSecondary secondary)) := by
  have size : MainPointer.virtualSize (node :: rest) = node.value.virtualSize := rfl
  rw [prepareRootMetered, if_neg (by simp), size]
  by_cases ready : secondary.isNone = true ∧ node.value.virtualSize ≤ P.groupSize
  · obtain ⟨none_beside, bounded⟩ := ready
    rw [Option.isNone_iff_eq_none] at none_beside
    subst none_beside
    have free : augmentedSecondary (P := P) none = 0 := rfl
    rw [if_pos ⟨rfl, bounded⟩]
    refine ⟨e.allocated, node :: rest, [], rfl, List.cons_ne_nil _ _, built, bounded, .direct, rfl,
      fun _ => ⟨?_, Nat.zero_le _⟩⟩
    rw [rootSizes, if_pos ⟨free, bounded⟩]
    rfl
  · rw [if_neg ready]
    obtain ⟨allocated, head, nodes, prepared, some_head, head_built, bounded, routes, length,
      sizes, paid⟩ := prepareRootLoopMetered_ok
        (node.value.virtualSize + augmentedSecondary secondary + 1) bare built secondary
        (Nat.lt_succ_self _)
    refine ⟨allocated, head, nodes, prepared, some_head, head_built, bounded, routes, length,
      fun occupied => ?_⟩
    have priced : ¬ (augmentedSecondary secondary = 0 ∧ node.value.virtualSize ≤ P.groupSize) := by
      rintro ⟨free, narrow⟩
      cases secondary with
      | none => exact ready ⟨rfl, narrow⟩
      | some leaf => exact (occupied leaf rfl free).not_ge narrow
    rw [rootSizes, rootPrice, if_neg priced, if_neg priced]
    exact ⟨sizes, paid⟩

end Execution

/-! ## Preparation of any root -/

namespace MainPointer

/-- The loop of `cola_index::prepare_root`; new nodes get the next addresses. -/
def prepareRootLoop (empty : Shared (NativeArray P)) :
    Nat → Nat → MainPointer P → Result (MainPointer P)
  | 0, _, root => .ok root
  | fuel + 1, address, root =>
      if P.groupSize < root.virtualSize then do
        let index ← adoptNative empty root none
        prepareRootLoop empty fuel (address + 1) (⟨address, index⟩ :: root)
      else .ok root

/-- `cola_index::prepare_root`. -/
def prepareRoot (address : Nat) (main : MainPointer P)
    (secondary : Option (Shared (NativeArray P))) : Result (MainPointer P) :=
  if main ≠ [] ∧ secondary.isNone = true ∧ main.virtualSize ≤ P.groupSize then .ok main
  else do
    let empty : Shared (NativeArray P) := ⟨address, .empty⟩
    let index ← adoptNative empty main secondary
    let root : MainPointer P := ⟨address + 1, index⟩ :: main
    root.prepareRootLoop empty root.virtualSize (address + 2)

/-- Adopting an empty array over a built chain yields a routing node. -/
theorem Built.adoptEmpty_ok {main : MainPointer P} (built : main.Built)
    {empty : Shared (NativeArray P)} (bare : empty.value.size = 0) (address : Nat)
    (secondary : Option (Shared (NativeArray P))) :
    ∃ index, adoptNative empty main secondary = .ok index ∧
      Assembles (⟨address, index⟩ :: main) empty main secondary := by
  obtain ⟨index, adopted, upper_built, native_eq, secondary_eq, count⟩ :=
    built.adoptNative_ok address empty secondary (built.extent_le bare secondary)
  exact ⟨index, adopted, ⟨address, index, rfl, native_eq, secondary_eq, count⟩, upper_built⟩

theorem prepareRootLoop_ok (fuel sizesFuel : Nat) {empty : Shared (NativeArray P)}
    (bare : empty.value.size = 0) (address : Nat) {root : MainPointer P} (built : root.Built)
    (some_root : root ≠ []) (enough : root.virtualSize ≤ fuel)
    (sizes_enough : root.virtualSize ≤ sizesFuel) :
    ∃ nodes, root.prepareRootLoop empty fuel address = .ok (nodes ++ root) ∧
      Built (nodes ++ root) ∧ virtualSize (nodes ++ root) ≤ P.groupSize ∧
      RoutesTo (nodes ++ root) root none ∧
      (nodes.map fun node => node.value.virtualSize).reverse =
        if P.groupSize < root.virtualSize then rootSizesLoop P sizesFuel root.virtualSize 0
        else [] := by
  induction fuel generalizing sizesFuel address root with
  | zero =>
      have narrow : root.virtualSize ≤ P.groupSize := enough.trans (Nat.zero_le _)
      rw [if_neg (Nat.not_lt.mpr narrow)]
      exact ⟨[], rfl, built, narrow, .direct, rfl⟩
  | succ fuel induction =>
      rw [prepareRootLoop]
      by_cases wide : P.groupSize < root.virtualSize
      · obtain ⟨index, adopted, assembles⟩ := built.adoptEmpty_ok bare address none
        have size := assembles.virtualSize_eq
        rw [ColaIndexBuilder.extent, bare, Nat.zero_add, MainPointer.groupCount_eq,
          secondaryCount_eq] at size
        have groups := three_ceilDiv_le (P := P) root.virtualSize
        have three := P.groupSize_ge
        have upper : virtualSize (⟨address, index⟩ :: root) =
            ceilDiv root.virtualSize P.groupSize := by
          rw [size, show augmentedSecondary (P := P) none = 0 from rfl, ceilDiv_zero, Nat.add_zero]
        obtain ⟨sizesFuel, rfl⟩ : ∃ less, sizesFuel = less + 1 := ⟨sizesFuel - 1, by omega⟩
        obtain ⟨nodes, prepared, head_built, bounded, routes, sizes⟩ :=
          induction sizesFuel (address + 1) assembles.built (List.cons_ne_nil _ _) (by omega)
            (by omega)
        refine ⟨nodes ++ [⟨address, index⟩], ?_, ?_, ?_, ?_, ?_⟩
        · rw [if_pos wide, adopted, ok_bind, prepared, List.append_assoc]
          rfl
        · rw [List.append_assoc]
          exact head_built
        · rw [List.append_assoc]
          exact bounded
        · rw [List.append_assoc]
          exact routes.trans_carrier (.carrier bare assembles)
        · rw [if_pos wide, rootSizesLoop, List.map_append, List.reverse_append, sizes, ceilDiv_zero,
            Nat.add_zero, upper]
          change virtualSize (⟨address, index⟩ :: root) :: _ = _
          rw [upper]
          rfl
      · rw [if_neg wide, if_neg wide]
        exact ⟨[], rfl, built, Nat.not_lt.mp wide, .direct, rfl⟩

/-- Preparation of any root terminates with a bounded head over it. -/
theorem prepareRoot_ok (address : Nat) {main : MainPointer P} (built : main.Built)
    (secondary : Option (Shared (NativeArray P))) :
    ∃ nodes, main.prepareRoot address secondary = .ok (nodes ++ main) ∧ nodes ++ main ≠ [] ∧
      Built (nodes ++ main) ∧ virtualSize (nodes ++ main) ≤ P.groupSize ∧
      RoutesTo (nodes ++ main) main secondary ∧
      (main ≠ [] →
        (∀ leaf ∈ secondary, leaf.value.size = 0 → P.groupSize < main.virtualSize) →
        (nodes.map fun node => node.value.virtualSize).reverse =
          rootSizes P main.virtualSize (augmentedSecondary secondary)) := by
  unfold prepareRoot
  by_cases ready : main ≠ [] ∧ secondary.isNone = true ∧ main.virtualSize ≤ P.groupSize
  · obtain ⟨some_main, none_beside, bounded⟩ := ready
    rw [Option.isNone_iff_eq_none] at none_beside
    subst none_beside
    have free : augmentedSecondary (P := P) none = 0 := rfl
    rw [if_pos ⟨some_main, rfl, bounded⟩]
    refine ⟨[], rfl, some_main, built, bounded, .direct, fun _ _ => ?_⟩
    rw [rootSizes, if_pos ⟨free, bounded⟩]
    rfl
  · have bare : (⟨address, .empty⟩ : Shared (NativeArray P)).value.size = 0 := rfl
    obtain ⟨index, adopted, assembles⟩ := built.adoptEmpty_ok bare (address + 1) secondary
    have size := assembles.virtualSize_eq
    rw [ColaIndexBuilder.extent, bare, Nat.zero_add, MainPointer.groupCount_eq,
      secondaryCount_eq] at size
    have main_groups := three_ceilDiv_le (P := P) main.virtualSize
    have side_groups := three_ceilDiv_le (P := P) (augmentedSecondary secondary)
    have main_le := ceilDiv_le_self (n := main.virtualSize) P.groupSize_pos
    have side_le := ceilDiv_le_self (n := augmentedSecondary secondary) P.groupSize_pos
    obtain ⟨nodes, prepared, head_built, bounded, routes, sizes⟩ :=
      prepareRootLoop_ok _ (main.virtualSize + augmentedSecondary secondary) bare (address + 2)
        assembles.built (List.cons_ne_nil _ _) le_rfl (by omega)
    rw [if_neg ready]
    refine ⟨nodes ++ [⟨address + 1, index⟩], ?_, by simp, ?_, ?_, ?_, fun some_main occupied => ?_⟩
    · dsimp only
      rw [adopted, ok_bind, List.append_assoc]
      exact prepared
    · rw [List.append_assoc]
      exact head_built
    · rw [List.append_assoc]
      exact bounded
    · rw [List.append_assoc]
      exact routes.trans_carrier (.carrier bare assembles)
    · have priced : ¬ (augmentedSecondary secondary = 0 ∧ main.virtualSize ≤ P.groupSize) := by
        rintro ⟨free, narrow⟩
        cases secondary with
        | none => exact ready ⟨some_main, rfl, narrow⟩
        | some leaf => exact (occupied leaf rfl free).not_ge narrow
      rw [rootSizes, if_neg priced, rootSizesLoop, List.map_append, List.reverse_append, sizes,
        size]
      change virtualSize (⟨address + 1, index⟩ :: main) :: _ = _
      rw [size]
      rfl

end MainPointer

/-- Root preparation yields a head of at most one group through which every query finds the matches
of the main chain and of the secondary array.  Unless that array is empty beside a head of one
group, its nodes are the ones `root_price` counts by their sizes, which covers their events. -/
theorem root_preparation {e : Execution P} (constants : e.HasConstants)
    {node : Shared (ColaIndex P)} {rest : MainPointer P}
    (built : MainPointer.Built (node :: rest)) (secondary : Option (Shared (NativeArray P))) :
    (∃ allocated head nodes,
      e.prepareRoot (node :: rest) secondary = .ok ({ e with allocated }, head) ∧
      e.prepareRootMetered (node :: rest) secondary = .ok ({ e with allocated }, head, nodes) ∧
      head.virtualSize ≤ P.groupSize ∧ head.Delivers (node :: rest) secondary ∧
      head.length = (node :: rest).length + nodes.length ∧
      ((∀ leaf ∈ secondary, leaf.value.size = 0 → P.groupSize < node.value.virtualSize) →
        nodes.map RoutingNode.size =
            rootSizes P node.value.virtualSize (augmentedSecondary secondary) ∧
          (nodes.map RoutingNode.events).sum ≤
            rootPrice P node.value.virtualSize (augmentedSecondary secondary))) ∧
    ∀ address, ∃ nodes, MainPointer.prepareRoot address (node :: rest) secondary =
        .ok (nodes ++ node :: rest) ∧
      MainPointer.virtualSize (nodes ++ node :: rest) ≤ P.groupSize ∧
      MainPointer.Delivers (nodes ++ node :: rest) (node :: rest) secondary ∧
      ((∀ leaf ∈ secondary, leaf.value.size = 0 → P.groupSize < node.value.virtualSize) →
        (nodes.map fun node => node.value.virtualSize).reverse =
          rootSizes P node.value.virtualSize (augmentedSecondary secondary)) := by
  refine ⟨?_, fun address => ?_⟩
  · obtain ⟨allocated, head, nodes, prepared, some_head, head_built, bounded, routes, length,
      counted⟩ := Execution.prepareRootMetered_ok constants.spec.1 built secondary
    refine ⟨allocated, head, nodes, ?_, prepared, bounded,
      routes.delivers some_head head_built bounded, length, counted⟩
    rw [Execution.prepareRoot_metered, prepared]
    rfl
  · obtain ⟨nodes, prepared, some_head, head_built, bounded, routes, sizes⟩ :=
      MainPointer.prepareRoot_ok address built secondary
    exact ⟨nodes, prepared, bounded, routes.delivers some_head head_built bounded,
      sizes (List.cons_ne_nil _ _)⟩

/-- An empty secondary array beside a head of one group is indexed, though its price is nothing, and
no node is added for the same sizes without it. -/
theorem root_price_omits_empty_secondary :
    let native : Shared (NativeArray .bytes3) :=
      ⟨2, .singleton (List.replicate 8 true) [] (by decide)⟩
    let leaf : Shared (NativeArray .bytes3) := ⟨4, .empty⟩
    ∃ fresh index following head nodes,
      Execution.start (replaceNativeValue .bytes3) = .ok fresh ∧
      adoptNative native [] none = .ok index ∧ MainPointer.Built [⟨3, index⟩] ∧
      fresh.prepareRootMetered [⟨3, index⟩] (some leaf) = .ok (following, head, nodes) ∧
      nodes.map RoutingNode.events = [18] ∧
      rootPrice .bytes3 index.virtualSize (augmentedSecondary (some leaf)) = 0 ∧
      fresh.prepareRootMetered [⟨3, index⟩] none = .ok (fresh, [⟨3, index⟩], []) ∧
      augmentedSecondary (P := .bytes3) none = augmentedSecondary (some leaf) := by
  intro native leaf
  obtain ⟨index, adopted, built, -, -, count⟩ :=
    MainPointer.Built.null.adoptNative_ok 3 native none (by decide)
  have one : index.virtualSize = 1 := count
  have run : (do
      let fresh ← Execution.start (replaceNativeValue .bytes3)
      let index ← adoptNative native [] none
      let (_, _, nodes) ← fresh.prepareRootMetered [⟨3, index⟩] (some leaf)
      .ok (nodes.map RoutingNode.events) : Result (List Nat)) = .ok [18] := by
    decide +kernel
  obtain ⟨fresh, started, rest⟩ := bind_eq_ok.mp run
  rw [adopted, ok_bind] at rest
  obtain ⟨⟨following, head, nodes⟩, prepared, events⟩ := bind_eq_ok.mp rest
  refine ⟨fresh, index, following, head, nodes, started, adopted, built, prepared,
    Except.ok.inj events, ?_, ?_, rfl⟩
  · rw [one]
    rfl
  · have narrow : MainPointer.virtualSize [(⟨3, index⟩ : Shared (ColaIndex .bytes3))] ≤ 3 := by
      rw [MainPointer.virtualSize, one]
      decide
    rw [Execution.prepareRootMetered, if_neg (by simp), if_pos ⟨rfl, narrow⟩]

/-- A root of two arrays with one key. -/
theorem root_preparation_shared_key :
    let leaf : Shared (NativeArray .bytes3) :=
      ⟨2, .singleton (List.replicate 8 true) [] (by decide)⟩
    ∃ fresh index, Execution.start (replaceNativeValue .bytes3) = .ok fresh ∧
      adoptNative leaf [] none = .ok index ∧
      ∃ allocated head nodes,
        fresh.prepareRootMetered [⟨3, index⟩] (some leaf) =
          .ok ({ fresh with allocated }, head, nodes) ∧
        MainPointer.virtualSize head ≤ 3 ∧
        MainPointer.Delivers head [⟨3, index⟩] (some leaf) ∧
        nodes.map RoutingNode.size = rootSizes .bytes3 1 1 ∧
        (nodes.map RoutingNode.events).sum ≤ rootPrice .bytes3 1 1 := by
  intro leaf
  obtain ⟨index, adopted, built, -, -, count⟩ :=
    MainPointer.Built.null.adoptNative_ok 3 leaf none (by decide)
  have one : index.virtualSize = 1 := count
  have opens : (do
      let _ ← Execution.start (replaceNativeValue .bytes3)
      .ok () : Result Unit) = .ok () := by
    decide +kernel
  obtain ⟨fresh, started, -⟩ := bind_eq_ok.mp opens
  have constants : fresh.HasConstants := ⟨_, fresh, started, rfl, rfl⟩
  obtain ⟨⟨allocated, head, nodes, -, prepared, bounded, delivers, -, counted⟩, -⟩ :=
    root_preparation constants built (some leaf)
  have occupied : ∀ other ∈ some leaf, other.value.size = 0 →
      StoragePolicy.bytes3.groupSize < index.virtualSize := by
    intro other is_leaf free
    cases is_leaf
    cases free
  obtain ⟨sizes, paid⟩ := counted occupied
  dsimp only at sizes paid
  rw [one] at sizes paid
  exact ⟨fresh, index, started, adopted, allocated, head, nodes, prepared, bounded, delivers, sizes,
    paid⟩

end Everett

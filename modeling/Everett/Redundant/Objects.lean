import Everett.Redundant.History

/-!
# Sizes and graphs of described objects

The augmented size of an object is proportional to its mass, because every level samples the next
one.  What is reachable from the newest pair of a level is the newest shown pair of every level
above, and it covers the admissions so far without gaps.
-/

namespace Everett

open Word Outcome

variable {P : StoragePolicy} {composition : Composition P}

theorem length_content_le (admitted : List ProfileRecord) (level ordinal : Nat) :
    (content composition admitted level ordinal).length ≤ 2 ^ level := by
  induction level generalizing ordinal with
  | zero =>
      rw [content]
      cases admitted[ordinal - 1]? <;> simp
  | succ level induction =>
      have merged := @length_mergeWith_le _ _ _ composition.compose.apply
        (content composition admitted level (2 * ordinal - 1))
        (content composition admitted level (2 * ordinal))
      have older := induction (2 * ordinal - 1)
      have newer := induction (2 * ordinal)
      rw [content, pow_succ]
      omega

/-- Later admissions do not change what an object holds. -/
theorem content_append {admitted : List ProfileRecord} (more : List ProfileRecord)
    {level ordinal : Nat} (positive : 0 < ordinal)
    (within : ordinal * 2 ^ level ≤ admitted.length) :
    content composition (admitted ++ more) level ordinal =
      content composition admitted level ordinal := by
  induction level generalizing ordinal with
  | zero =>
      rw [content, content, List.getElem?_append_left (by omega)]
  | succ level induction =>
      have newer_within : 2 * ordinal * 2 ^ level ≤ admitted.length := by
        calc
          2 * ordinal * 2 ^ level = ordinal * 2 ^ (level + 1) := by ring
          _ ≤ admitted.length := within
      have older_within : (2 * ordinal - 1) * 2 ^ level ≤ admitted.length :=
        (Nat.mul_le_mul_right _ (Nat.sub_le _ _)).trans newer_within
      rw [content, content, induction (by omega) older_within, induction (by omega) newer_within]

namespace History

variable {h : History P} {level ordinal : Nat} {object : RedundantObject P}

namespace Describes

theorem size_le (described : h.Describes composition level ordinal object) :
    object.native.value.size ≤ 2 ^ level := by
  rw [← ProfileArray.length_records, described.records_eq]
  exact length_content_le ..

theorem mass_eq (described : h.Describes composition level ordinal object)
    (positive : 0 < ordinal) : object.mass = 2 ^ level := by
  obtain ⟨previous, rfl⟩ := Nat.exists_eq_succ_of_ne_zero positive.ne'
  rw [RedundantObject.mass, described.first_eq, described.last_eq, Nat.succ_sub_one, Nat.succ_mul,
    Nat.add_sub_cancel_left]

theorem secondary_eq (described : h.Describes composition level ordinal object) :
    object.secondary = decide (ordinal % 2 = 0) := by
  rcases Nat.mod_two_eq_zero_or_one ordinal with even | odd
  · rw [RedundantObject.secondary, (described.side even).1]
    simp [even]
  · rw [RedundantObject.secondary, (described.main odd).2.1.isEmpty_eq]
    simp [odd]

theorem augmented_le (described : h.Describes composition level ordinal object) :
    object.augmented ≤ 5 * 2 ^ level + 2 := by
  have size := described.size_le
  rcases Nat.mod_two_eq_zero_or_one ordinal with even | odd
  · rw [RedundantObject.augmented, (described.side even).1]
    simp only [List.isEmpty_nil, if_true]
    omega
  · obtain ⟨-, assembles, bounded⟩ := described.main odd
    rw [RedundantObject.augmented, assembles.isEmpty_eq]
    simpa using bounded

/-- An object is described alike by histories which agree on what it refers to. -/
theorem congr {other : History P} (described : h.Describes composition level ordinal object)
    (content_eq : content composition other.admitted level ordinal =
      content composition h.admitted level ordinal)
    (targets_eq : ordinal % 2 = 1 → other.targets (level + 1) ((ordinal - 1) / 2) =
      h.targets (level + 1) ((ordinal - 1) / 2)) :
    other.Describes composition level ordinal object where
  level_eq := described.level_eq
  first_eq := described.first_eq
  last_eq := described.last_eq
  records_eq := described.records_eq.trans content_eq.symm
  valid := described.valid
  main := fun odd => by
    rw [targets_eq odd]
    exact described.main odd
  side := described.side

end Describes

/-! ## Targets -/

/-- Main and secondary object of the newest pair are what their ordinals demand. -/
def TargetsDescribed (h : History P) (composition : Composition P) (level count : Nat) : Prop :=
  count ≠ 0 →
    h.Describes composition level (2 * ((count - 1) / 2) + 1)
      (h.made level (2 * ((count - 1) / 2) + 1)) ∧
    (count % 2 = 0 → h.Describes composition level count (h.made level count))

theorem targets_congr {other : History P} {count : Nat}
    (same : ∀ ordinal ≤ count, other.made level ordinal = h.made level ordinal) :
    other.targets level count = h.targets level count := by
  unfold targets
  split
  · rfl
  · rw [same (2 * ((count - 1) / 2) + 1) (by omega), same count le_rfl]

namespace TargetsDescribed

variable {count : Nat}

theorem main_built (described : h.TargetsDescribed composition level count) :
    MainPointer.Built (h.targets level count).mainPair := by
  unfold targets
  split
  · exact .null
  · rename_i some_made
    exact ((described some_made).1.main (by omega)).2.1.built

theorem main_le (described : h.TargetsDescribed composition level count) :
    MainPointer.virtualSize (h.targets level count).mainPair ≤ 5 * 2 ^ level + 2 := by
  unfold targets
  split
  · exact Nat.zero_le _
  · rename_i some_made
    exact ((described some_made).1.main (by omega)).2.2

theorem secondary_le (described : h.TargetsDescribed composition level count)
    {leaf : Shared (NativeArray P)}
    (secondary : (h.targets level count).secondaryNative = some leaf) :
    leaf.value.size ≤ 2 ^ level := by
  unfold targets at secondary
  split at secondary
  · cases secondary
  · rename_i some_made
    by_cases even : count % 2 = 0
    · rw [if_pos even] at secondary
      cases secondary
      exact ((described some_made).2 even).size_le
    · rw [if_neg even] at secondary
      cases secondary

/-- A node over the targets adds at most so many occurrences to its native keys. -/
theorem extent_le (described : h.TargetsDescribed composition level count)
    (native : Shared (NativeArray P)) :
    3 * ColaIndexBuilder.extent native (h.targets level count).mainPair
      (h.targets level count).secondaryNative ≤ 3 * native.value.size + 6 * 2 ^ level + 6 := by
  have groups_le : ∀ {n : Nat}, 3 * ceilDiv n P.groupSize ≤ n + 2 := by
    intro n
    have third := ceilDiv_le_iff (n := n) (m := (n + 2) / 3) P.groupSize_pos
    have enough : n ≤ (n + 2) / 3 * P.groupSize :=
      (show n ≤ (n + 2) / 3 * 3 by omega).trans (Nat.mul_le_mul_left _ P.groupSize_ge)
    have := third.mpr enough
    omega
  have main_groups := groups_le (n := MainPointer.virtualSize (h.targets level count).mainPair)
  have main_le := described.main_le
  have secondary_groups : 3 * secondaryCount P (h.targets level count).secondaryNative ≤
      2 ^ level + 2 := by
    cases secondary : (h.targets level count).secondaryNative with
    | none => simp [secondaryCount]
    | some leaf =>
        have leaf_le := described.secondary_le secondary
        have leaf_groups := groups_le (n := leaf.value.size)
        rw [secondaryCount]
        omega
  unfold ColaIndexBuilder.extent
  rw [MainPointer.groupCount_eq]
  omega

end TargetsDescribed

/-- Every pair from the newest shown one on is described. -/
theorem Shape.targetsDescribed {levels : Nat → RedundantLevel P} {height nextIdentity count : Nat}
    (shape : h.Shape composition levels height nextIdentity)
    (shown : h.shown (level + 1) ≤ count) (received : count ≤ h.received (level + 1)) :
    h.TargetsDescribed composition (level + 1) count := by
  intro some_made
  obtain ⟨main, side⟩ := shape.counts.live_targets shown received some_made
  exact ⟨shape.described _ _ main, fun even => shape.described _ _ (side even)⟩

/-! ## Reachable objects -/

/-- Objects which a pair of some level shows of it and of the levels above. -/
def Chain (h : History P) (composition : Composition P) (version : Nat → Nat) (first : Nat) :
    Prop :=
  ∀ level, first ≤ level → version (level + 1) = (version level - 1) / 2 ∧
    h.TargetsDescribed composition level (version level)

theorem Chain.next {version : Nat → Nat} {first : Nat} (chain : h.Chain composition version first) :
    h.Chain composition version (first + 1) :=
  fun level above => chain level (by omega)

theorem targets_of_ne_zero {count : Nat} (some_made : count ≠ 0) : h.targets level count =
    ⟨some (h.made level (2 * ((count - 1) / 2) + 1)),
      if count % 2 = 0 then some (h.made level count) else none⟩ := by
  rw [targets, if_neg some_made]

/-- A secondary object reaches only itself. -/
theorem visit_side {count : Nat} (described : h.TargetsDescribed composition level count)
    (some_made : count ≠ 0) :
    RedundantObject.visitPointer (h.targets level count).secondary =
      if count % 2 = 0 then [h.made level count] else [] := by
  rw [targets_of_ne_zero some_made]
  by_cases even : count % 2 = 0
  · have bare := ((described some_made).2 even).side even
    simp only [if_pos even, RedundantObject.visitPointer_some, RedundantObject.visit_eq, bare.2]
    rfl
  · simp only [if_neg even]
    rfl

theorem walk_side {count : Nat} (described : h.TargetsDescribed composition level count)
    (some_made : count ≠ 0) :
    RedundantObject.walkPointer (h.targets level count).secondary =
      if count % 2 = 0 then [h.made level count] else [] := by
  rw [targets_of_ne_zero some_made]
  by_cases even : count % 2 = 0
  · have bare := ((described some_made).2 even).side even
    simp only [if_pos even, RedundantObject.walkPointer_some, RedundantObject.walk_eq, bare.2]
    rfl
  · simp only [if_neg even]
    rfl

/-- The newest pair reaches its main object, what that routes to, and its secondary. -/
theorem reachable_targets {count : Nat} (described : h.TargetsDescribed composition level count)
    (some_made : count ≠ 0) :
    Execution.reachable (h.targets level count) =
      h.made level (2 * ((count - 1) / 2) + 1) ::
        (Execution.reachable (h.targets (level + 1) ((count - 1) / 2)) ++
          if count % 2 = 0 then [h.made level count] else []) := by
  have main := ((described some_made).1.main (by omega)).1
  have half : (2 * ((count - 1) / 2) + 1 - 1) / 2 = (count - 1) / 2 := by omega
  rw [half] at main
  rw [Execution.reachable, visit_side described some_made, targets_of_ne_zero some_made]
  rw [RedundantObject.visitPointer_some, RedundantObject.visit_eq, main]
  rfl

/-- Oldest first, the newest pair comes after what its main object routes to. -/
theorem walk_targets {count : Nat} (described : h.TargetsDescribed composition level count)
    (some_made : count ≠ 0) :
    RedundantObject.walkPointer (h.targets level count).main ++
        RedundantObject.walkPointer (h.targets level count).secondary =
      RedundantObject.walkPointer (h.targets (level + 1) ((count - 1) / 2)).main ++
        RedundantObject.walkPointer (h.targets (level + 1) ((count - 1) / 2)).secondary ++
          h.made level (2 * ((count - 1) / 2) + 1) ::
            if count % 2 = 0 then [h.made level count] else [] := by
  have main := ((described some_made).1.main (by omega)).1
  have half : (2 * ((count - 1) / 2) + 1 - 1) / 2 = (count - 1) / 2 := by omega
  rw [half] at main
  rw [walk_side described some_made]
  conv_lhs => rw [targets_of_ne_zero some_made]
  rw [RedundantObject.walkPointer_some, RedundantObject.walk_eq, main]
  simp

theorem targets_zero : h.targets level 0 = .none := if_pos rfl

/-- What a chain reaches are its objects on every level from the first on. -/
theorem Chain.mem_reachable {version : Nat → Nat} {first : Nat}
    (chain : h.Chain composition version first) :
    object ∈ Execution.reachable (h.targets first (version first)) ↔
      ∃ level, first ≤ level ∧ ∃ ordinal, 2 * version (level + 1) < ordinal ∧
        ordinal ≤ version level ∧ object = h.made level ordinal := by
  induction count_eq : version first using Nat.strong_induction_on generalizing first with
  | _ count induction =>
      subst count_eq
      by_cases none_made : version first = 0
      · have all_zero : ∀ level, first ≤ level → version level = 0 := by
          intro level above
          induction level, above using Nat.le_induction with
          | base => exact none_made
          | succ level above step => rw [(chain level above).1, step]
        rw [none_made, targets_zero]
        constructor
        · intro member
          cases member
        · rintro ⟨level, above, ordinal, lower, upper, -⟩
          rw [all_zero level above] at upper
          omega
      · obtain ⟨next, described⟩ := chain first le_rfl
        have deeper := induction (version (first + 1)) (by omega) chain.next rfl
        rw [reachable_targets described none_made, ← next, List.mem_cons, List.mem_append, deeper]
        constructor
        · rintro (rfl | ⟨level, above, rest⟩ | side)
          · exact ⟨first, le_rfl, 2 * version (first + 1) + 1, by omega, by omega, rfl⟩
          · exact ⟨level, by omega, rest⟩
          · split at side
            · rename_i even
              rw [List.mem_singleton] at side
              exact ⟨first, le_rfl, version first, by omega, le_rfl, side⟩
            · cases side
        · rintro ⟨level, above, ordinal, lower, upper, rfl⟩
          rcases Nat.eq_or_lt_of_le above with rfl | later
          · rcases Nat.lt_or_ge (2 * version (first + 1) + 1) ordinal with newer | older
            · have newest : ordinal = version first := by omega
              have even : version first % 2 = 0 := by omega
              rw [if_pos even, newest]
              exact .inr (.inr (List.mem_singleton_self _))
            · have main : ordinal = 2 * version (first + 1) + 1 := by omega
              rw [main]
              exact .inl rfl
          · exact .inr (.inl ⟨level, later, ordinal, lower, upper, rfl⟩)

/-- A chain reaches no object twice: levels and intervals tell them apart. -/
theorem Chain.pairwise_reachable {version : Nat → Nat} {first : Nat}
    (chain : h.Chain composition version first) :
    (Execution.reachable (h.targets first (version first))).Pairwise fun one two =>
      one.level ≠ two.level ∨ one.first ≠ two.first := by
  induction count_eq : version first using Nat.strong_induction_on generalizing first with
  | _ count induction =>
      subst count_eq
      by_cases none_made : version first = 0
      · rw [none_made, targets_zero]
        exact .nil
      · obtain ⟨next, described⟩ := chain first le_rfl
        have deeper := induction (version (first + 1)) (by omega) chain.next rfl
        obtain ⟨main, side⟩ := described none_made
        have above : ∀ other ∈ Execution.reachable (h.targets (first + 1) (version (first + 1))),
            first < other.level := by
          intro other member
          obtain ⟨level, later, ordinal, lower, upper, rfl⟩ := chain.next.mem_reachable.mp member
          obtain ⟨next_level, level_described⟩ := chain level (by omega)
          obtain ⟨level_main, level_side⟩ := level_described (by omega)
          rcases Nat.lt_or_ge (2 * version (level + 1) + 1) ordinal with newer | older
          · have newest : ordinal = version level := by omega
            rw [newest, (level_side (by omega)).level_eq]
            exact later
          · have is_main : ordinal = 2 * ((version level - 1) / 2) + 1 := by omega
            rw [is_main, level_main.level_eq]
            exact later
        rw [reachable_targets described none_made, ← next, List.pairwise_cons,
          List.pairwise_append]
        rw [← next] at main
        refine ⟨fun other member => ?_, deeper, ?_, fun deep member last is_last => ?_⟩
        · rcases List.mem_append.mp member with deep | last
          · refine .inl ?_
            rw [main.level_eq]
            exact (above other deep).ne
          · split at last
            · rename_i even
              rw [List.mem_singleton] at last
              subst last
              refine .inr ?_
              rw [main.first_eq, (side even).first_eq]
              intro same
              have := Nat.eq_of_mul_eq_mul_right (Nat.two_pow_pos first) same
              omega
            · cases last
        · split
          · exact List.pairwise_singleton _ _
          · exact .nil
        · refine .inl ?_
          split at is_last
          · rename_i even
            rw [List.mem_singleton] at is_last
            subst is_last
            rw [(side even).level_eq]
            exact (above deep member).ne'
          · cases is_last

/-- Objects which cover admissions, in an order without gaps. -/
def Covers (next : Nat) (runs : List (RedundantObject P)) (last : Nat) : Prop :=
  Execution.chronology "redundant history gap or overlap" next runs = .ok last

theorem chronology_append {error : String} {next middle : Nat}
    {front back : List (RedundantObject P)}
    (covered : Execution.chronology error next front = .ok middle) :
    Execution.chronology error next (front ++ back) = Execution.chronology error middle back := by
  induction front generalizing next with
  | nil =>
      cases covered
      rfl
  | cons run front induction =>
      obtain ⟨_, guard, rest⟩ := bind_eq_ok.mp covered
      have starts := require_eq_ok.mp guard
      rw [List.cons_append, Execution.chronology, require_true starts, ok_bind]
      exact induction rest

/-- Oldest first, a chain covers everything which its first level received. -/
theorem Chain.covers {version : Nat → Nat} {first : Nat}
    (chain : h.Chain composition version first) (error : String) :
    Execution.chronology error 0 (Execution.history (h.targets first (version first))) =
      .ok (version first * 2 ^ first) := by
  induction count_eq : version first using Nat.strong_induction_on generalizing first with
  | _ count induction =>
      subst count_eq
      by_cases none_made : version first = 0
      · rw [none_made, targets_zero, Nat.zero_mul]
        rfl
      · obtain ⟨next, described⟩ := chain first le_rfl
        have deeper := induction (version (first + 1)) (by omega) chain.next rfl
        obtain ⟨main, side⟩ := described none_made
        rw [← next] at main
        have power : 0 < 2 ^ first := Nat.two_pow_pos first
        have main_mass := main.mass_eq (by omega)
        have doubled : version (first + 1) * 2 ^ (first + 1) =
            2 * version (first + 1) * 2 ^ first := by ring
        rw [doubled] at deeper
        rw [Execution.history, walk_targets described none_made, ← next, List.filter_append]
        rw [Execution.history] at deeper
        rw [chronology_append deeper]
        have main_kept : decide ((h.made first (2 * version (first + 1) + 1)).mass ≠ 0) = true := by
          rw [main_mass]
          exact decide_eq_true power.ne'
        have main_starts : (h.made first (2 * version (first + 1) + 1)).first =
            2 * version (first + 1) * 2 ^ first := main.first_eq
        simp only [List.filter_cons, main_kept, if_true]
        rw [Execution.chronology, require_true main_starts, ok_bind, main.last_eq]
        split
        · rename_i even
          have side_described := side even
          have side_kept : decide ((h.made first (version first)).mass ≠ 0) = true := by
            rw [side_described.mass_eq (by omega)]
            exact decide_eq_true power.ne'
          have side_starts : (h.made first (version first)).first =
              (2 * version (first + 1) + 1) * 2 ^ first := by
            rw [side_described.first_eq]
            congr 1
            omega
          simp only [List.filter_cons, side_kept, if_true, List.filter_nil]
          rw [Execution.chronology, require_true side_starts, ok_bind, side_described.last_eq]
          rfl
        · rename_i odd
          have newest : 2 * version (first + 1) + 1 = version first := by omega
          rw [List.filter_nil, newest]
          rfl

end History

end Everett

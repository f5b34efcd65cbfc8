import Mathlib.Tactic
import Mathlib.Data.Finsupp.Order
import Mathlib.Data.Finsupp.Single

/-!
# Reference counts of shared owners

Nodes own other nodes and leaves.  A node is live while something demands it, and a live node
demands what it owns once, however often it is demanded itself.  `Balanced` says that the counts
are the demands of the tokens outside the graph and of the live nodes.  Nodes whose children are
still being acquired are *open*: they are counted, and what they hold so far are tokens.
-/

namespace Everett.Ownership

variable {ν κ : Type} [DecidableEq ν]

/-- What each node owns. -/
structure Owners (ν κ : Type) where
  children : ν → ν →₀ ℕ
  leaves : ν → κ →₀ ℕ
  /-- Depth of a node above the nodes which it reaches. -/
  height : ν → ℕ
  children_lower : ∀ {u v}, children u v ≠ 0 → height v < height u

/-- The tokens of a list of roots. -/
noncomputable def tokensOf {α : Type} : List α → α →₀ ℕ
  | [] => 0
  | a :: rest => tokensOf rest + .single a 1

theorem tokensOf_apply {α : Type} [BEq α] [LawfulBEq α] (list : List α) (a : α) :
    tokensOf list a = list.count a := by
  induction list with
  | nil => rfl
  | cons b rest induction =>
      rw [tokensOf, Finsupp.add_apply, induction, List.count_cons]
      by_cases same : b = a <;> simp [same]

theorem tokensOf_reverse {α : Type} (list : List α) : tokensOf list.reverse = tokensOf list := by
  classical
  ext a
  rw [tokensOf_apply, tokensOf_apply, List.count_reverse]

variable (owners : Owners ν κ)

/-- The counts are the demands of the tokens and of the nodes which are live and not open. -/
structure Balanced («open» : Finset ν) (tokens : ν →₀ ℕ) (leafTokens : κ →₀ ℕ) (count : ν →₀ ℕ)
    (leafCount : κ →₀ ℕ) : Prop where
  nodes : count = tokens + ∑ u ∈ count.support \ «open», owners.children u
  leaves : leafCount = leafTokens + ∑ u ∈ count.support \ «open», owners.leaves u

/-- Nodes which the tokens reach. -/
inductive Reachable (tokens : ν →₀ ℕ) : ν → Prop
  | root {v : ν} (token : tokens v ≠ 0) : Reachable tokens v
  | child {u v : ν} (reached : Reachable tokens u) (owned : owners.children u v ≠ 0) :
      Reachable tokens v

variable {owners} {unfinished : Finset ν} {tokens count : ν →₀ ℕ} {leafTokens leafCount : κ →₀ ℕ}
  {v : ν}

theorem support_again (live : count v ≠ 0) : (count + .single v 1).support = count.support := by
  ext u
  by_cases same : v = u
  · subst same
    simp [live]
  · simp [same]

theorem support_fresh : (count + .single v 1).support = insert v count.support := by
  ext u
  by_cases same : v = u
  · subst same
    simp
  · simp [Ne.symm same]

namespace Balanced

/-- A further token for a live node is one more reference. -/
theorem again (live : count v ≠ 0) :
    Balanced owners unfinished (tokens + .single v 1) leafTokens (count + .single v 1) leafCount ↔
      Balanced owners unfinished tokens leafTokens count leafCount := by
  have support := support_again live
  constructor
  · rintro ⟨nodes, leaves⟩
    rw [support] at nodes leaves
    exact ⟨by rwa [add_right_comm, add_left_inj] at nodes, leaves⟩
  · rintro ⟨nodes, leaves⟩
    refine ⟨?_, by rwa [support]⟩
    rw [support, add_right_comm, add_left_inj]
    exact nodes

/-- A token for a new node opens it. -/
theorem start (absent : count v = 0) :
    Balanced owners (insert v unfinished) (tokens + .single v 1) leafTokens
        (count + .single v 1) leafCount ↔
      Balanced owners unfinished tokens leafTokens count leafCount := by
  have live : (count + .single v 1).support \ insert v unfinished = count.support \ unfinished := by
    rw [support_fresh, Finset.insert_sdiff_insert,
      Finset.sdiff_insert_of_notMem (by simpa using absent)]
  constructor
  · rintro ⟨nodes, leaves⟩
    rw [live] at nodes leaves
    exact ⟨by rwa [add_right_comm, add_left_inj] at nodes, leaves⟩
  · rintro ⟨nodes, leaves⟩
    refine ⟨?_, by rwa [live]⟩
    rw [live, add_right_comm, add_left_inj]
    exact nodes

/-- Tokens for leaves are references of the same number. -/
theorem leaf (more : κ →₀ ℕ) :
    Balanced owners unfinished tokens (leafTokens + more) count (leafCount + more) ↔
      Balanced owners unfinished tokens leafTokens count leafCount := by
  constructor
  · rintro ⟨nodes, leaves⟩
    exact ⟨nodes, by rwa [add_right_comm, add_left_inj] at leaves⟩
  · rintro ⟨nodes, leaves⟩
    refine ⟨nodes, ?_⟩
    rw [add_right_comm, add_left_inj]
    exact leaves

/-- A node which holds all it owns may be closed. -/
theorem finish (live : count v ≠ 0) (outside : v ∉ unfinished) :
    Balanced owners (insert v unfinished) (tokens + owners.children v)
        (leafTokens + owners.leaves v) count leafCount ↔
      Balanced owners unfinished tokens leafTokens count leafCount := by
  have member : v ∈ count.support \ unfinished := by simp [live, outside]
  have rest : count.support \ insert v unfinished = (count.support \ unfinished).erase v := by
    rw [Finset.sdiff_insert]
  have nodeSum : ∑ u ∈ count.support \ unfinished, owners.children u =
      owners.children v + ∑ u ∈ (count.support \ unfinished).erase v, owners.children u :=
    (Finset.add_sum_erase _ _ member).symm
  have leafSum : ∑ u ∈ count.support \ unfinished, owners.leaves u =
      owners.leaves v + ∑ u ∈ (count.support \ unfinished).erase v, owners.leaves u :=
    (Finset.add_sum_erase _ _ member).symm
  constructor
  · rintro ⟨nodes, leaves⟩
    exact ⟨by rwa [rest, add_assoc, ← nodeSum] at nodes, by rwa [rest, add_assoc, ← leafSum] at leaves⟩
  · rintro ⟨nodes, leaves⟩
    exact ⟨by rwa [rest, add_assoc, ← nodeSum], by rwa [rest, add_assoc, ← leafSum]⟩

/-- The last token of a closed node leaves tokens for what the node owned. -/
theorem retire (absent : count v = 0) (outside : v ∉ unfinished)
    (balanced : Balanced owners unfinished (tokens + .single v 1) leafTokens
      (count + .single v 1) leafCount) :
    Balanced owners unfinished (tokens + owners.children v) (leafTokens + owners.leaves v) count
      leafCount := by
  rw [← finish (by simp) outside, add_right_comm, start absent] at balanced
  exact balanced

/-- Tokens for higher nodes are the only demands on a node. -/
theorem count_eq (balanced : Balanced owners unfinished tokens leafTokens count leafCount) (v : ν) :
    count v = tokens v + ∑ u ∈ count.support \ unfinished, owners.children u v := by
  have nodes := DFunLike.congr_fun balanced.nodes v
  rwa [Finsupp.add_apply, Finsupp.finsetSum_apply] at nodes

theorem leafCount_eq (balanced : Balanced owners unfinished tokens leafTokens count leafCount)
    (leaf : κ) :
    leafCount leaf =
      leafTokens leaf + ∑ u ∈ count.support \ unfinished, owners.leaves u leaf := by
  have leaves := DFunLike.congr_fun balanced.leaves leaf
  rwa [Finsupp.add_apply, Finsupp.finsetSum_apply] at leaves

/-- The tokens determine the counts: a highest difference has no cause. -/
theorem unique {other : ν →₀ ℕ} {otherLeaf : κ →₀ ℕ}
    (balanced : Balanced owners unfinished tokens leafTokens count leafCount)
    (second : Balanced owners unfinished tokens leafTokens other otherLeaf) :
    count = other ∧ leafCount = otherLeaf := by
  have same : count = other := by
    by_contra different
    have present : (count.support ∪ other.support).filter (fun u => count u ≠ other u) ≠ ∅ := by
      intro empty
      refine different (Finsupp.ext fun u => ?_)
      by_contra apart
      have member : u ∈ (count.support ∪ other.support).filter (fun u => count u ≠ other u) := by
        simp only [Finset.mem_filter, Finset.mem_union, Finsupp.mem_support_iff]
        exact ⟨by omega, apart⟩
      rw [empty] at member
      exact Finset.notMem_empty _ member
    obtain ⟨top, member, highest⟩ :=
      Finset.exists_max_image _ owners.height (Finset.nonempty_iff_ne_empty.mpr present)
    have apart : count top ≠ other top := (Finset.mem_filter.mp member).2
    have agree : ∀ u, owners.children u top ≠ 0 → count u = other u := by
      intro u owned
      by_contra differs
      have listed : u ∈ (count.support ∪ other.support).filter (fun u => count u ≠ other u) := by
        simp only [Finset.mem_filter, Finset.mem_union, Finsupp.mem_support_iff]
        exact ⟨by omega, differs⟩
      exact absurd (highest u listed) (not_le.mpr (owners.children_lower owned))
    refine apart ?_
    rw [balanced.count_eq, second.count_eq]
    congr 1
    refine Finset.sum_congr_of_eq_on_inter ?_ ?_ fun _ _ _ => rfl
    · intro u inside outside
      by_contra owned
      have equal := agree u owned
      simp only [Finset.mem_sdiff, Finsupp.mem_support_iff] at inside outside
      exact outside ⟨equal ▸ inside.1, inside.2⟩
    · intro u inside outside
      by_contra owned
      have equal := agree u owned
      simp only [Finset.mem_sdiff, Finsupp.mem_support_iff] at inside outside
      exact outside ⟨equal ▸ inside.1, inside.2⟩
  subst same
  exact ⟨rfl, balanced.leaves.trans second.leaves.symm⟩

/-- Without open nodes the live nodes are those which the tokens reach. -/
theorem live_iff (balanced : Balanced owners ∅ tokens leafTokens count leafCount) (v : ν) :
    count v ≠ 0 ↔ Reachable owners tokens v := by
  constructor
  · intro live
    by_contra unreached
    classical
    have present : (count.support.filter fun u => ¬Reachable owners tokens u).Nonempty :=
      ⟨v, by simp [live, unreached]⟩
    obtain ⟨top, member, highest⟩ := Finset.exists_max_image _ owners.height present
    simp only [Finset.mem_filter, Finsupp.mem_support_iff] at member
    obtain ⟨topLive, topLost⟩ := member
    have none_token : tokens top = 0 := by
      by_contra token
      exact topLost (.root token)
    have sum : ∑ u ∈ count.support \ ∅, owners.children u top ≠ 0 := by
      have equation := balanced.count_eq top
      omega
    obtain ⟨u, inside, owned⟩ := Finset.exists_ne_zero_of_sum_ne_zero sum
    have lost : ¬Reachable owners tokens u := fun reached => topLost (.child reached owned)
    have listed : u ∈ count.support.filter fun u => ¬Reachable owners tokens u := by
      simpa [lost] using inside
    exact absurd (highest u listed) (not_le.mpr (owners.children_lower owned))
  · intro reached
    induction reached with
    | root token =>
        rw [balanced.count_eq]
        omega
    | child reached owned induction =>
        rename_i u v
        have part : owners.children u v ≤ ∑ w ∈ count.support \ ∅, owners.children w v :=
          Finset.single_le_sum (f := fun w => owners.children w v) (fun _ _ => Nat.zero_le _)
            (by simpa using induction)
        rw [balanced.count_eq]
        omega

end Balanced

end Everett.Ownership

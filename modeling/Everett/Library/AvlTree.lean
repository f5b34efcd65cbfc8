import Everett.Library.SortedTable

/-!
# AVL trees

Search trees whose nodes are marked with their heights.  Insertion and removal rebalance on the way
up; they keep the marks right, the subtrees of a node within one level of each other, and the
bindings those of the sorted table in which the key was assigned or erased.
-/

namespace Everett

/-- A search tree with marked heights. -/
inductive AvlTree (κ ν : Type)
  | nil
  | node (height : Nat) (key : κ) (value : ν) (left right : AvlTree κ ν)

namespace AvlTree

variable {κ ν : Type}

/-- The height which a tree is marked with. -/
def height : AvlTree κ ν → Nat
  | nil => 0
  | node height _ _ _ _ => height

@[simp] theorem height_nil : (nil : AvlTree κ ν).height = 0 := rfl

@[simp] theorem height_node {height : Nat} {key : κ} {value : ν} {left right : AvlTree κ ν} :
    (node height key value left right).height = height := rfl

/-- The length of the longest path. -/
def depth : AvlTree κ ν → Nat
  | nil => 0
  | node _ _ _ left right => 1 + max left.depth right.depth

/-- The bindings in order. -/
def bindings : AvlTree κ ν → List (κ × ν)
  | nil => []
  | node _ key value left right => left.bindings ++ (key, value) :: right.bindings

/-- Right marks, and subtrees within one level of each other. -/
def Balanced : AvlTree κ ν → Prop
  | nil => True
  | node height _ _ left right => height = 1 + max left.height right.height ∧
      left.height ≤ right.height + 1 ∧ right.height ≤ left.height + 1 ∧
      left.Balanced ∧ right.Balanced

/-- A node with its mark. -/
def join (key : κ) (value : ν) (left right : AvlTree κ ν) : AvlTree κ ν :=
  node (1 + max left.height right.height) key value left right

/-- The right child takes the place of the root. -/
def rotateLeft : AvlTree κ ν → AvlTree κ ν
  | node _ key value left (node _ key' value' middle right) =>
      join key' value' (join key value left middle) right
  | t => t

/-- The left child takes the place of the root. -/
def rotateRight : AvlTree κ ν → AvlTree κ ν
  | node _ key value (node _ key' value' left middle) right =>
      join key' value' left (join key value middle right)
  | t => t

/-- A left child which does not lean to the right. -/
def straightenLeft : AvlTree κ ν → AvlTree κ ν
  | nil => nil
  | node height key value left right =>
      if left.height < right.height then (node height key value left right).rotateLeft
      else node height key value left right

/-- A right child which does not lean to the left. -/
def straightenRight : AvlTree κ ν → AvlTree κ ν
  | nil => nil
  | node height key value left right =>
      if right.height < left.height then (node height key value left right).rotateRight
      else node height key value left right

/-- A node whose subtrees are at most two levels apart, rotated where it leans too far. -/
def balance (key : κ) (value : ν) (left right : AvlTree κ ν) : AvlTree κ ν :=
  if right.height + 1 < left.height then (join key value left.straightenLeft right).rotateRight
  else if left.height + 1 < right.height then
    (join key value left right.straightenRight).rotateLeft
  else join key value left right

/-- The first binding, and the tree without it. -/
def removeFirst (key : κ) (value : ν) : AvlTree κ ν → AvlTree κ ν → (κ × ν) × AvlTree κ ν
  | nil, right => ((key, value), right)
  | node _ key' value' left middle, right =>
      let taken := removeFirst key' value' left middle
      (taken.1, balance key value taken.2 right)

section Ordered

variable [LinearOrder κ]

/-- Whether a key is bound. -/
def has (key : κ) : AvlTree κ ν → Bool
  | nil => false
  | node _ k _ left right => if key < k then has key left else if k < key then has key right else true

/-- Insertion of a key, or assignment to it. -/
def insert (key : κ) (value : ν) : AvlTree κ ν → AvlTree κ ν
  | nil => node 1 key value nil nil
  | node height k v left right =>
      if key < k then balance k v (insert key value left) right
      else if k < key then balance k v left (insert key value right)
      else node height k value left right

/-- A node without its binding. -/
def merge (left right : AvlTree κ ν) : AvlTree κ ν :=
  match left, right with
  | nil, right => right
  | left, nil => left
  | left, node _ k v middle right =>
      let taken := removeFirst k v middle right
      balance taken.1.1 taken.1.2 left taken.2

/-- Removal of a key. -/
def remove (key : κ) : AvlTree κ ν → AvlTree κ ν
  | nil => nil
  | node height k v left right =>
      if key < k then
        if left.has key then balance k v (remove key left) right
        else node height k v (remove key left) right
      else if k < key then
        if right.has key then balance k v left (remove key right)
        else node height k v left (remove key right)
      else merge left right

end Ordered

/-! ## Bindings -/

variable {key : κ} {value : ν} {left right t : AvlTree κ ν}

theorem bindings_join : (join key value left right).bindings =
    left.bindings ++ (key, value) :: right.bindings := rfl

theorem bindings_rotateLeft (t : AvlTree κ ν) : t.rotateLeft.bindings = t.bindings := by
  unfold rotateLeft
  split
  · simp [bindings_join, bindings]
  · rfl

theorem bindings_rotateRight (t : AvlTree κ ν) : t.rotateRight.bindings = t.bindings := by
  unfold rotateRight
  split
  · simp [bindings_join, bindings]
  · rfl

theorem bindings_straightenLeft (t : AvlTree κ ν) : t.straightenLeft.bindings = t.bindings := by
  unfold straightenLeft
  split
  · rfl
  · split
    · exact bindings_rotateLeft _
    · rfl

theorem bindings_straightenRight (t : AvlTree κ ν) : t.straightenRight.bindings = t.bindings := by
  unfold straightenRight
  split
  · rfl
  · split
    · exact bindings_rotateRight _
    · rfl

theorem bindings_balance : (balance key value left right).bindings =
    left.bindings ++ (key, value) :: right.bindings := by
  unfold balance
  split_ifs
  · rw [bindings_rotateRight, bindings_join, bindings_straightenLeft]
  · rw [bindings_rotateLeft, bindings_join, bindings_straightenRight]
  · rfl

theorem bindings_removeFirst : (removeFirst key value left right).1 ::
    (removeFirst key value left right).2.bindings =
      left.bindings ++ (key, value) :: right.bindings := by
  induction left generalizing key value right with
  | nil => rfl
  | node height k v before after left_ih right_ih =>
      rw [removeFirst, bindings_balance, ← List.cons_append, left_ih]
      rfl

section Ordered

variable [LinearOrder κ]

theorem bindings_merge : (merge left right).bindings = left.bindings ++ right.bindings := by
  unfold merge
  split
  · rfl
  · exact (List.append_nil _).symm
  · rw [bindings_balance, bindings_removeFirst]
    rfl

theorem has_eq (ordered : Everett.Ordered t.bindings) (key : κ) :
    t.has key = (valueAt key t.bindings).isSome := by
  induction t with
  | nil => rfl
  | node height k v left right left_ih right_ih =>
      obtain ⟨ordered_left, ordered_right, -, -⟩ := Iff.mp ordered_append_cons ordered
      rw [bindings, valueAt_append_cons ordered, has]
      split_ifs
      · exact left_ih ordered_left
      · exact right_ih ordered_right
      · rfl

theorem bindings_insert (ordered : Everett.Ordered t.bindings) (key : κ) (value : ν) :
    (t.insert key value).bindings = assign key value t.bindings := by
  induction t with
  | nil => rfl
  | node height k v left right left_ih right_ih =>
      obtain ⟨ordered_left, ordered_right, -, -⟩ := Iff.mp ordered_append_cons ordered
      rw [insert, bindings]
      split_ifs with less more
      · rw [bindings_balance, left_ih ordered_left, assign_append_of_lt less]
      · rw [bindings_balance, right_ih ordered_right, assign_append_of_gt ordered more]
      · have equal : key = k := le_antisymm (not_lt.mp more) (not_lt.mp less)
        subst equal
        rw [assign_append_self ordered]
        rfl

theorem bindings_remove (ordered : Everett.Ordered t.bindings) (key : κ) :
    (t.remove key).bindings = erase key t.bindings := by
  induction t with
  | nil => rfl
  | node height k v left right left_ih right_ih =>
      obtain ⟨ordered_left, ordered_right, -, -⟩ := Iff.mp ordered_append_cons ordered
      have below := left_ih ordered_left
      have above := right_ih ordered_right
      rw [remove, bindings]
      split_ifs with less _ more
      · rw [bindings_balance, below, erase_append_of_lt ordered less]
      · rw [bindings, below, erase_append_of_lt ordered less]
      · rw [bindings_balance, above, erase_append_of_gt ordered more]
      · rw [bindings, above, erase_append_of_gt ordered more]
      · have equal : key = k := le_antisymm (not_lt.mp more) (not_lt.mp less)
        subst equal
        rw [erase_append_self ordered, bindings_merge]

end Ordered

/-! ## Balance -/

theorem Balanced.height_eq (balanced : t.Balanced) : t.height = t.depth := by
  induction t with
  | nil => rfl
  | node height k v left right left_ih right_ih =>
      obtain ⟨marked, -, -, balanced_left, balanced_right⟩ := balanced
      rw [height_node, depth, marked, left_ih balanced_left, right_ih balanced_right]

/-- Rebalancing of subtrees which are at most two levels apart. -/
structure Rebalanced (left right t : AvlTree κ ν) : Prop where
  balanced : t.Balanced
  lower : max left.height right.height ≤ t.height
  upper : t.height ≤ 1 + max left.height right.height
  even : left.height ≤ right.height + 1 → right.height ≤ left.height + 1 →
    t.height = 1 + max left.height right.height

theorem balance_spec (key : κ) (value : ν) (balanced_left : left.Balanced) (balanced_right : right.Balanced)
    (left_le : left.height ≤ right.height + 2) (right_le : right.height ≤ left.height + 2) :
    Rebalanced left right (balance key value left right) := by
  unfold balance
  split_ifs with left_heavy right_heavy
  · cases left with
    | nil => exact absurd left_heavy (Nat.not_lt_zero _)
    | node height k v outer inner =>
        obtain ⟨marked, outer_le, inner_le, balanced_outer, balanced_inner⟩ := balanced_left
        rw [straightenLeft]
        split_ifs with leans
        · cases inner with
          | nil => exact absurd leans (Nat.not_lt_zero _)
          | node height' k' v' near far =>
              obtain ⟨marked', near_le, far_le, balanced_near, balanced_far⟩ := balanced_inner
              constructor <;>
                simp only [rotateLeft, rotateRight, join, Balanced, height_node] at * <;> grind
        · constructor <;> simp only [rotateRight, join, Balanced, height_node] at * <;> grind
  · cases right with
    | nil => exact absurd right_heavy (Nat.not_lt_zero _)
    | node height k v inner outer =>
        obtain ⟨marked, inner_le, outer_le, balanced_inner, balanced_outer⟩ := balanced_right
        rw [straightenRight]
        split_ifs with leans
        · cases inner with
          | nil => exact absurd leans (Nat.not_lt_zero _)
          | node height' k' v' far near =>
              obtain ⟨marked', far_le, near_le, balanced_far, balanced_near⟩ := balanced_inner
              constructor <;>
                simp only [rotateLeft, rotateRight, join, Balanced, height_node] at * <;> grind
        · constructor <;> simp only [rotateLeft, join, Balanced, height_node] at * <;> grind
  · exact ⟨⟨rfl, by omega, by omega, balanced_left, balanced_right⟩,
      by rw [join, height_node]; omega, le_rfl, fun _ _ => rfl⟩

theorem removeFirst_spec (balanced_left : left.Balanced) (balanced_right : right.Balanced)
    (left_le : left.height ≤ right.height + 1) (right_le : right.height ≤ left.height + 1) :
    (removeFirst key value left right).2.Balanced ∧
      (removeFirst key value left right).2.height ≤ 1 + max left.height right.height ∧
      max left.height right.height ≤ (removeFirst key value left right).2.height := by
  induction left generalizing key value right with
  | nil => exact ⟨balanced_right, Nat.le_add_left_of_le (le_max_right _ _), by
      rw [removeFirst, height_nil, Nat.zero_max]⟩
  | node height k v before after left_ih right_ih =>
      obtain ⟨marked, before_le, after_le, balanced_before, balanced_after⟩ := balanced_left
      obtain ⟨balanced, upper, lower⟩ : (removeFirst k v before after).2.Balanced ∧ _ :=
        left_ih balanced_before balanced_after before_le after_le
      rw [removeFirst]
      rw [height_node] at left_le right_le ⊢
      obtain ⟨whole, low, high, even⟩ :=
        balance_spec key value balanced balanced_right (by omega) (by omega)
      refine ⟨whole, ?_, ?_⟩ <;> dsimp only <;> omega

section Ordered

variable [LinearOrder κ]

theorem merge_spec (balanced_left : left.Balanced) (balanced_right : right.Balanced)
    (left_le : left.height ≤ right.height + 1) (right_le : right.height ≤ left.height + 1) :
    (merge left right).Balanced ∧ (merge left right).height ≤ 1 + max left.height right.height ∧
      max left.height right.height ≤ (merge left right).height := by
  unfold merge
  split
  · exact ⟨balanced_right, by simp [AvlTree.height], by simp [AvlTree.height]⟩
  · exact ⟨balanced_left, by simp [AvlTree.height], by simp [AvlTree.height]⟩
  · rename_i height k v middle right _
    obtain ⟨marked, middle_le, last_le, balanced_middle, balanced_last⟩ := balanced_right
    obtain ⟨balanced, upper, lower⟩ : (removeFirst k v middle right).2.Balanced ∧ _ :=
      removeFirst_spec balanced_middle balanced_last middle_le last_le
    rw [height_node] at left_le right_le ⊢
    have spec : Rebalanced left _ (balance (removeFirst k v middle right).1.1
        (removeFirst k v middle right).1.2 left (removeFirst k v middle right).2) :=
      balance_spec _ _ balanced_left balanced (by omega) (by omega)
    obtain ⟨whole, low, high, even⟩ := spec
    refine ⟨whole, ?_, ?_⟩ <;> dsimp only <;> omega

/-- Insertion keeps a tree balanced, at most one level higher. -/
theorem insert_spec (balanced : t.Balanced) (key : κ) (value : ν) :
    (t.insert key value).Balanced ∧ t.height ≤ (t.insert key value).height ∧
      (t.insert key value).height ≤ t.height + 1 := by
  induction t with
  | nil => simp [insert, Balanced, AvlTree.height]
  | node height k v left right left_ih right_ih =>
      obtain ⟨marked, left_le, right_le, balanced_left, balanced_right⟩ := balanced
      obtain ⟨inner_left, left_low, left_high⟩ := left_ih balanced_left
      obtain ⟨inner_right, right_low, right_high⟩ := right_ih balanced_right
      rw [insert]
      rw [height_node]
      split_ifs
      · obtain ⟨whole, low, high, even⟩ :=
          balance_spec k v inner_left balanced_right (by omega) (by omega)
        refine ⟨whole, ?_, ?_⟩ <;> omega
      · obtain ⟨whole, low, high, even⟩ :=
          balance_spec k v balanced_left inner_right (by omega) (by omega)
        refine ⟨whole, ?_, ?_⟩ <;> omega
      · exact ⟨⟨marked, left_le, right_le, balanced_left, balanced_right⟩, le_rfl, Nat.le_succ _⟩

/-- Nothing is removed from a tree which does not bind the key. -/
theorem remove_of_not_has (absent : t.has key = false) : t.remove key = t := by
  induction t with
  | nil => rfl
  | node height k v left right left_ih right_ih =>
      rw [has] at absent
      rw [remove]
      by_cases less : key < k
      · rw [if_pos less] at absent ⊢
        rw [absent, if_neg Bool.false_ne_true, left_ih absent]
      by_cases more : k < key
      · rw [if_neg less, if_pos more] at absent ⊢
        rw [absent, if_neg Bool.false_ne_true, right_ih absent]
      · rw [if_neg less, if_neg more] at absent
        cases absent

/-- Removal keeps a tree balanced, at most one level lower. -/
theorem remove_spec (balanced : t.Balanced) (key : κ) :
    (t.remove key).Balanced ∧ (t.remove key).height ≤ t.height ∧
      t.height ≤ (t.remove key).height + 1 := by
  induction t with
  | nil => simp [remove, Balanced, AvlTree.height]
  | node height k v left right left_ih right_ih =>
      obtain ⟨marked, left_le, right_le, balanced_left, balanced_right⟩ := balanced
      obtain ⟨inner_left, left_high, left_low⟩ := left_ih balanced_left
      obtain ⟨inner_right, right_high, right_low⟩ := right_ih balanced_right
      rw [remove, height_node]
      split_ifs with less bound more bound'
      · obtain ⟨whole, low, high, even⟩ :=
          balance_spec k v inner_left balanced_right (by omega) (by omega)
        refine ⟨whole, ?_, ?_⟩ <;> omega
      · rw [remove_of_not_has (Bool.not_eq_true _ ▸ bound), height_node]
        exact ⟨⟨marked, left_le, right_le, balanced_left, balanced_right⟩, le_rfl, Nat.le_succ _⟩
      · obtain ⟨whole, low, high, even⟩ :=
          balance_spec k v balanced_left inner_right (by omega) (by omega)
        refine ⟨whole, ?_, ?_⟩ <;> omega
      · rw [remove_of_not_has (Bool.not_eq_true _ ▸ bound'), height_node]
        exact ⟨⟨marked, left_le, right_le, balanced_left, balanced_right⟩, le_rfl, Nat.le_succ _⟩
      · obtain ⟨whole, high, low⟩ := merge_spec balanced_left balanced_right left_le right_le
        refine ⟨whole, ?_, ?_⟩ <;> omega

end Ordered

end AvlTree

end Everett

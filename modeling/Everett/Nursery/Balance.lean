import Everett.Nursery.Tree

/-!
# Rotations

Rotations change the shape of a tree and the heights it is marked with, and keep its bindings.
-/

namespace Everett

open NurseryTree

namespace NurseryHeap

variable {K V : Type} {token : Nat} {h h' h'' : NurseryHeap K V} {t t' t'' : NurseryTree K V}

/-- The links of a rotation to the left between two nodes of the token's own. -/
theorem Rewrites.twistLeft {a b ha hb ha' hb' : Nat} {ka kb : K} {va vb : V}
    {left middle right : NurseryTree K V}
    (represents : h.Represents (.node a token ha ka va left
      (.node b token hb kb vb middle right))) (positive_a : 0 < ha') (positive_b : 0 < hb') :
    Rewrites token h (.node a token ha ka va left (.node b token hb kb vb middle right))
      ((h.store a ⟨ka, va, left.root, middle.root, token, ha'⟩).store b
        ⟨kb, vb, some a, right.root, token, hb'⟩)
      (.node b token hb' kb vb (.node a token ha' ka va left middle) right) := by
  obtain ⟨⟨here_a, within_a, token_lt, -, held_left, here_b, within_b, -, -, held_middle,
    held_right⟩, nodup⟩ := represents
  simp only [items, List.nodup_cons, List.nodup_append, List.mem_append, List.mem_cons] at nodup
  obtain ⟨absent_a, nodup_left, ⟨absent_b, nodup_middle, nodup_right, apart⟩, disjoint⟩ := nodup
  have a_ne_b : a ≠ b := fun same => absent_a (.inr (.inl same))
  have b_left : b ∉ left.items := fun member => disjoint b member b (.inl rfl) rfl
  have stored : ∀ tree : NurseryTree K V, h.Held tree → a ∉ tree.items → b ∉ tree.items →
      ((h.store a ⟨ka, va, left.root, middle.root, token, ha'⟩).store b
        ⟨kb, vb, some a, right.root, token, hb'⟩).Held tree := fun tree held absent absent' =>
    (held.store absent _).store absent' _
  refine ⟨⟨⟨nodes_store_self _ _, within_b, token_lt, positive_b, ⟨?_, within_a, token_lt,
    positive_a, stored left held_left ?_ b_left, stored middle held_middle ?_ ?_⟩,
    stored right held_right ?_ ?_⟩, ?_⟩, ?_, Nat.le_refl _, rfl, rfl, ?_, ?_,
    fun other ne foreign => ⟨ne.symm, ⟨ne.symm, foreign.2.1, foreign.2.2.2.1⟩, foreign.2.2.2.2⟩⟩
  · rw [nodes_store_of_ne a_ne_b, nodes_store_self]
  · exact fun member => absent_a (.inl member)
  · exact fun member => absent_a (.inr (.inr (.inl member)))
  · exact fun member => absent_b (.inl member)
  · exact fun member => absent_a (.inr (.inr (.inr member)))
  · exact fun member => absent_b (.inr member)
  · simp only [items, List.nodup_cons, List.nodup_append, List.mem_append, List.mem_cons]
    grind
  · intro item member
    simp only [items, List.mem_append, List.mem_cons] at member ⊢
    grind
  · intro item _ absent
    simp only [items, List.mem_append, List.mem_cons, not_or] at absent
    rw [nodes_store_of_ne absent.2.2.1, nodes_store_of_ne absent.1]
  · intro item _ node here foreign
    have ne_b : item ≠ b := by
      rintro rfl
      rw [here_b] at here
      cases here
      exact foreign rfl
    have ne_a : item ≠ a := by
      rintro rfl
      rw [here_a] at here
      cases here
      exact foreign rfl
    rwa [nodes_store_of_ne ne_b, nodes_store_of_ne ne_a]

/-- The links of a rotation to the right between two nodes of the token's own. -/
theorem Rewrites.twistRight {a b ha hb ha' hb' : Nat} {ka kb : K} {va vb : V}
    {left middle right : NurseryTree K V}
    (represents : h.Represents (.node a token ha ka va
      (.node b token hb kb vb left middle) right)) (positive_a : 0 < ha') (positive_b : 0 < hb') :
    Rewrites token h (.node a token ha ka va (.node b token hb kb vb left middle) right)
      ((h.store a ⟨ka, va, middle.root, right.root, token, ha'⟩).store b
        ⟨kb, vb, left.root, some a, token, hb'⟩)
      (.node b token hb' kb vb left (.node a token ha' ka va middle right)) := by
  obtain ⟨⟨here_a, within_a, token_lt, -, ⟨here_b, within_b, -, -, held_left, held_middle⟩,
    held_right⟩, nodup⟩ := represents
  simp only [items, List.nodup_cons, List.nodup_append, List.mem_append, List.mem_cons] at nodup
  obtain ⟨absent_a, ⟨absent_b, nodup_left, nodup_middle, apart⟩, nodup_right, disjoint⟩ := nodup
  have a_ne_b : a ≠ b := fun same => absent_a (.inl (.inl same))
  have b_right : b ∉ right.items := fun member => disjoint b (.inl rfl) b member rfl
  have stored : ∀ tree : NurseryTree K V, h.Held tree → a ∉ tree.items → b ∉ tree.items →
      ((h.store a ⟨ka, va, middle.root, right.root, token, ha'⟩).store b
        ⟨kb, vb, left.root, some a, token, hb'⟩).Held tree := fun tree held absent absent' =>
    (held.store absent _).store absent' _
  refine ⟨⟨⟨nodes_store_self _ _, within_b, token_lt, positive_b, stored left held_left ?_ ?_, ?_,
    within_a, token_lt, positive_a, stored middle held_middle ?_ ?_,
    stored right held_right ?_ b_right⟩, ?_⟩, ?_, Nat.le_refl _, rfl, rfl, ?_, ?_,
    fun other ne foreign => ⟨ne.symm, foreign.2.1.2.1, ne.symm, foreign.2.1.2.2, foreign.2.2⟩⟩
  · exact fun member => absent_a (.inl (.inr (.inl member)))
  · exact fun member => absent_b (.inl member)
  · rw [nodes_store_of_ne a_ne_b, nodes_store_self]
  · exact fun member => absent_a (.inl (.inr (.inr member)))
  · exact fun member => absent_b (.inr member)
  · exact fun member => absent_a (.inr member)
  · simp only [items, List.nodup_cons, List.nodup_append, List.mem_append, List.mem_cons]
    grind
  · intro item member
    simp only [items, List.mem_append, List.mem_cons] at member ⊢
    grind
  · intro item _ absent
    simp only [items, List.mem_append, List.mem_cons, not_or] at absent
    rw [nodes_store_of_ne absent.2.1.1, nodes_store_of_ne absent.1]
  · intro item _ node here foreign
    have ne_b : item ≠ b := by
      rintro rfl
      rw [here_b] at here
      cases here
      exact foreign rfl
    have ne_a : item ≠ a := by
      rintro rfl
      rw [here_a] at here
      cases here
      exact foreign rfl
    rwa [nodes_store_of_ne ne_b, nodes_store_of_ne ne_a]

/-- A node which was just changed is marked with its height. -/
theorem refresh_store {item l r : Nat} {node : NurseryNode K V}
    (left : (h.store item node).heightAt node.left = some l)
    (right : (h.store item node).heightAt node.right = some r) :
    (h.store item node).refresh item = some (h.store item { node with
      height := 1 + max l r }) := by
  simp [refresh, left, right]

theorem heightAt_store (held : h.Held t) {item : Nat} (absent : item ∉ t.items)
    (node : NurseryNode K V) : (h.store item node).heightAt t.root = some t.height :=
  heightAt_root (held.store absent node)

/-- A tree in whose place a root of the token's own stands for a shape. -/
def Stands (token item : Nat) (h : NurseryHeap K V) (t : NurseryTree K V) (h' : NurseryHeap K V)
    (shape : AvlTree K V) : Prop :=
  ∃ height key value left right,
    Rewrites token h t h' (.node item token height key value left right) ∧
    (NurseryTree.node item token height key value left right).shape = shape

theorem Stands.after {item : Nat} {shape : AvlTree K V} (first : Rewrites token h t h' t')
    (stands : Stands token item h' t' h'' shape) : Stands token item h t h'' shape := by
  obtain ⟨height, key, value, left, right, second, same⟩ := stands
  exact ⟨height, key, value, left, right, first.trans second, same⟩

theorem rotateLeft_ok {a b ha hb eb : Nat} {ka kb : K} {va vb : V}
    {left middle right : NurseryTree K V}
    (represents : h.Represents (.node a token ha ka va left (.node b eb hb kb vb middle right)))
    (token_lt : token < h.tokens) :
    ∃ b' h', h.rotateLeft token a = some (b', h') ∧ Stands token b' h
      (.node a token ha ka va left (.node b eb hb kb vb middle right)) h'
      (NurseryTree.node a token ha ka va left
        (.node b eb hb kb vb middle right)).shape.rotateLeft := by
  obtain ⟨b', h₁, made, owned⟩ := editable_ok represents.right token_lt
  -- The link from `a` to the copy is never written; it is there to speak of one tree.
  have relinked : Rewrites token h (.node a token ha ka va left (.node b eb hb kb vb middle right))
      (h₁.store a ⟨ka, va, left.root, some b', token, ha⟩)
      (.node a token ha ka va left (.node b' token hb kb vb middle right)) :=
    .right represents owned represents.held.2.2.2.1
  have represents₁ := relinked.represents
  obtain ⟨here, -, -, -, -, -⟩ := represents.held
  obtain ⟨here_b, -, -, -, -, -⟩ := owned.represents.held
  obtain ⟨⟨-, -, -, -, held_left, -, -, -, -, held_middle, held_right⟩, nodup⟩ := represents₁
  simp only [items, List.nodup_cons, List.mem_append, List.mem_cons, not_or] at nodup
  obtain ⟨⟨a_left, a_ne_b, a_middle, a_right⟩, rest⟩ := nodup
  have b_right : b' ∉ right.items :=
    (List.nodup_cons.mp (List.nodup_append.mp rest).2.1).1 ∘ List.mem_append_right _
  let cell : NurseryNode K V := ⟨ka, va, left.root, some b', token, ha⟩
  let lower := 1 + max left.height middle.height
  let upper := 1 + max lower right.height
  have lower_pos : 0 < lower := Nat.lt_add_right _ Nat.one_pos
  have upper_pos : 0 < upper := Nat.lt_add_right _ Nat.one_pos
  have lowered : ((h₁.store a ⟨ka, va, left.root, middle.root, token, ha⟩).refresh a) =
      some ((h₁.store a cell).store a ⟨ka, va, left.root, middle.root, token, lower⟩) := by
    rw [← store_store a cell]
    exact refresh_store (heightAt_store held_left a_left _) (heightAt_store held_middle a_middle _)
  have raised : ((((h₁.store a cell).store a ⟨ka, va, left.root, middle.root, token, lower⟩).store b'
      ⟨kb, vb, some a, right.root, token, hb⟩).refresh b') =
      some (((h₁.store a cell).store a ⟨ka, va, left.root, middle.root, token, lower⟩).store b'
        ⟨kb, vb, some a, right.root, token, upper⟩) := by
    refine refresh_store ?_ (heightAt_store (held_right.store a_right _) b_right _)
    change Option.map _ _ = _
    rw [nodes_store_of_ne a_ne_b, nodes_store_self]
    rfl
  refine ⟨b', _, ?_, Stands.after relinked ⟨upper, kb, vb, _, _, Rewrites.twistLeft
    relinked.represents lower_pos upper_pos, ?_⟩⟩
  · simp only [rotateLeft, here, root_node, Option.bind_eq_bind, Option.bind_some, made, here_b]
    rw [lowered, Option.bind_some, raised, Option.bind_some]
  · simp only [shape_node, AvlTree.rotateLeft, AvlTree.join, AvlTree.height_node, height_shape]
    rfl

theorem rotateRight_ok {a b ha hb eb : Nat} {ka kb : K} {va vb : V}
    {left middle right : NurseryTree K V}
    (represents : h.Represents (.node a token ha ka va (.node b eb hb kb vb left middle) right))
    (token_lt : token < h.tokens) :
    ∃ b' h', h.rotateRight token a = some (b', h') ∧ Stands token b' h
      (.node a token ha ka va (.node b eb hb kb vb left middle) right) h'
      (NurseryTree.node a token ha ka va
        (.node b eb hb kb vb left middle) right).shape.rotateRight := by
  obtain ⟨b', h₁, made, owned⟩ := editable_ok represents.left token_lt
  have relinked : Rewrites token h (.node a token ha ka va (.node b eb hb kb vb left middle) right)
      (h₁.store a ⟨ka, va, some b', right.root, token, ha⟩)
      (.node a token ha ka va (.node b' token hb kb vb left middle) right) :=
    .left represents owned represents.held.2.2.2.1
  have represents₁ := relinked.represents
  obtain ⟨here, -, -, -, -, -⟩ := represents.held
  obtain ⟨here_b, -, -, -, -, -⟩ := owned.represents.held
  obtain ⟨⟨-, -, -, -, ⟨-, -, -, -, held_left, held_middle⟩, held_right⟩, nodup⟩ := represents₁
  simp only [items, List.nodup_cons, List.mem_append, List.mem_cons, not_or] at nodup
  obtain ⟨⟨⟨a_ne_b, a_left, a_middle⟩, a_right⟩, rest⟩ := nodup
  have b_left : b' ∉ left.items :=
    (List.nodup_cons.mp (List.nodup_append.mp rest).1).1 ∘ List.mem_append_left _
  let cell : NurseryNode K V := ⟨ka, va, some b', right.root, token, ha⟩
  let lower := 1 + max middle.height right.height
  let upper := 1 + max left.height lower
  have lower_pos : 0 < lower := Nat.lt_add_right _ Nat.one_pos
  have upper_pos : 0 < upper := Nat.lt_add_right _ Nat.one_pos
  have lowered : ((h₁.store a ⟨ka, va, middle.root, right.root, token, ha⟩).refresh a) =
      some ((h₁.store a cell).store a ⟨ka, va, middle.root, right.root, token, lower⟩) := by
    rw [← store_store a cell]
    exact refresh_store (heightAt_store held_middle a_middle _)
      (heightAt_store held_right a_right _)
  have raised : ((((h₁.store a cell).store a ⟨ka, va, middle.root, right.root, token,
      lower⟩).store b' ⟨kb, vb, left.root, some a, token, hb⟩).refresh b') =
      some (((h₁.store a cell).store a ⟨ka, va, middle.root, right.root, token, lower⟩).store b'
        ⟨kb, vb, left.root, some a, token, upper⟩) := by
    refine refresh_store (heightAt_store (held_left.store a_left _) b_left _) ?_
    change Option.map _ _ = _
    rw [nodes_store_of_ne a_ne_b, nodes_store_self]
    rfl
  refine ⟨b', _, ?_, Stands.after relinked ⟨upper, kb, vb, _, _, Rewrites.twistRight
    relinked.represents lower_pos upper_pos, ?_⟩⟩
  · simp only [rotateRight, here, root_node, Option.bind_eq_bind, Option.bind_some, made, here_b]
    rw [lowered, Option.bind_some, raised, Option.bind_some]
  · simp only [shape_node, AvlTree.rotateRight, AvlTree.join, AvlTree.height_node, height_shape]
    rfl

/-- The left side of a node which leans to the left is not empty. -/
theorem node_of_height_lt {n : Nat} (less : n < t.height) :
    ∃ item edit height key value left right, t = .node item edit height key value left right := by
  cases t with
  | nil => exact absurd less (Nat.not_lt_zero _)
  | node item edit height key value left right => exact ⟨_, _, _, _, _, _, _, rfl⟩

theorem straightenLeft_ok {item height : Nat} {key : K} {value : V} {left right : NurseryTree K V}
    (represents : h.Represents (.node item token height key value left right))
    (token_lt : token < h.tokens) :
    ∃ item' h', h.straightenLeft token item = some (item', h') ∧ Stands token item' h
      (.node item token height key value left right) h'
      (NurseryTree.node item token height key value left right).shape.straightenLeft := by
  obtain ⟨here, -, -, -, held_left, held_right⟩ := represents.held
  simp only [straightenLeft, here, Option.bind_eq_bind, Option.bind_some, heightAt_root held_left,
    heightAt_root held_right]
  rw [shape_node, AvlTree.straightenLeft, height_shape, height_shape]
  split_ifs with leans
  · obtain ⟨c, ec, hc, kc, vc, middle, far, rfl⟩ := node_of_height_lt leans
    exact rotateLeft_ok represents token_lt
  · exact ⟨item, h, rfl, height, key, value, left, right, .refl represents, rfl⟩

theorem straightenRight_ok {item height : Nat} {key : K} {value : V}
    {left right : NurseryTree K V}
    (represents : h.Represents (.node item token height key value left right))
    (token_lt : token < h.tokens) :
    ∃ item' h', h.straightenRight token item = some (item', h') ∧ Stands token item' h
      (.node item token height key value left right) h'
      (NurseryTree.node item token height key value left right).shape.straightenRight := by
  obtain ⟨here, -, -, -, held_left, held_right⟩ := represents.held
  simp only [straightenRight, here, Option.bind_eq_bind, Option.bind_some,
    heightAt_root held_left, heightAt_root held_right]
  rw [shape_node, AvlTree.straightenRight, height_shape, height_shape]
  split_ifs with leans
  · obtain ⟨c, ec, hc, kc, vc, far, middle, rfl⟩ := node_of_height_lt leans
    exact rotateRight_ok represents token_lt
  · exact ⟨item, h, rfl, height, key, value, left, right, .refl represents, rfl⟩

/-- The own mark of a rotated root does not matter. -/
theorem rotateLeft_join (height : Nat) (key : K) (value : V) (left right : AvlTree K V)
    (some_right : right ≠ .nil) : (AvlTree.node height key value left right).rotateLeft =
      (AvlTree.join key value left right).rotateLeft := by
  cases right with
  | nil => exact absurd rfl some_right
  | node => rfl

theorem rotateRight_join (height : Nat) (key : K) (value : V) (left right : AvlTree K V)
    (some_left : left ≠ .nil) : (AvlTree.node height key value left right).rotateRight =
      (AvlTree.join key value left right).rotateRight := by
  cases left with
  | nil => exact absurd rfl some_left
  | node => rfl

theorem leanLeft_ok {item height : Nat} {key : K} {value : V} {left right : NurseryTree K V}
    (represents : h.Represents (.node item token height key value left right))
    (token_lt : token < h.tokens) {n : Nat} (leans : n < left.height) :
    ∃ item' h', h.leanLeft token item = some (item', h') ∧ Stands token item' h
      (.node item token height key value left right) h'
      (AvlTree.join key value left.shape.straightenLeft right.shape).rotateRight := by
  obtain ⟨b, eb, hb, kb, vb, outer, inner, rfl⟩ := node_of_height_lt leans
  obtain ⟨here, -, -, positive, -, -⟩ := represents.held
  obtain ⟨b₁, h₁, made, owned⟩ := editable_ok represents.left token_lt
  obtain ⟨b₂, h₂, rotated, hc, kc, vc, outer', inner', straight, same⟩ :=
    straightenLeft_ok owned.represents (owned.tokens ▸ token_lt)
  have relinked : Rewrites token h
      (.node item token height key value (.node b eb hb kb vb outer inner) right)
      (h₂.store item ⟨key, value, some b₂, right.root, token, height⟩)
      (.node item token height key value (.node b₂ token hc kc vc outer' inner') right) :=
    .left represents (owned.trans straight) positive
  obtain ⟨item', h', turned, stands⟩ :=
    rotateRight_ok relinked.represents (relinked.tokens ▸ token_lt)
  refine ⟨item', h', ?_, .after relinked ?_⟩
  · simp only [leanLeft, here, root_node, Option.bind_eq_bind, Option.bind_some, made, rotated]
    exact turned
  · rw [shape_node, same, rotateRight_join _ _ _ _ _ (same ▸ nofun)] at stands
    exact stands

theorem leanRight_ok {item height : Nat} {key : K} {value : V} {left right : NurseryTree K V}
    (represents : h.Represents (.node item token height key value left right))
    (token_lt : token < h.tokens) {n : Nat} (leans : n < right.height) :
    ∃ item' h', h.leanRight token item = some (item', h') ∧ Stands token item' h
      (.node item token height key value left right) h'
      (AvlTree.join key value left.shape right.shape.straightenRight).rotateLeft := by
  obtain ⟨b, eb, hb, kb, vb, inner, outer, rfl⟩ := node_of_height_lt leans
  obtain ⟨here, -, -, positive, -, -⟩ := represents.held
  obtain ⟨b₁, h₁, made, owned⟩ := editable_ok represents.right token_lt
  obtain ⟨b₂, h₂, rotated, hc, kc, vc, inner', outer', straight, same⟩ :=
    straightenRight_ok owned.represents (owned.tokens ▸ token_lt)
  have relinked : Rewrites token h
      (.node item token height key value left (.node b eb hb kb vb inner outer))
      (h₂.store item ⟨key, value, left.root, some b₂, token, height⟩)
      (.node item token height key value left (.node b₂ token hc kc vc inner' outer')) :=
    .right represents (owned.trans straight) positive
  obtain ⟨item', h', turned, stands⟩ :=
    rotateLeft_ok relinked.represents (relinked.tokens ▸ token_lt)
  refine ⟨item', h', ?_, .after relinked ?_⟩
  · simp only [leanRight, here, root_node, Option.bind_eq_bind, Option.bind_some, made, rotated]
    exact turned
  · rw [shape_node, same, rotateLeft_join _ _ _ _ _ (same ▸ nofun)] at stands
    exact stands

/-- `rebalance` balances the subtrees of a node. -/
theorem rebalance_ok {item height : Nat} {key : K} {value : V} {left right : NurseryTree K V}
    (represents : h.Represents (.node item token height key value left right))
    (token_lt : token < h.tokens) :
    ∃ item' h', h.rebalance token item = some (item', h') ∧ Stands token item' h
      (.node item token height key value left right) h'
      (AvlTree.balance key value left.shape right.shape) := by
  obtain ⟨h₁, refreshed, rfl⟩ := refresh_ok represents
  have relabelled : Rewrites token h (.node item token height key value left right) (h.store item
      ⟨key, value, left.root, right.root, token, 1 + max left.height right.height⟩)
      (.node item token (1 + max left.height right.height) key value left right) :=
    .relabel represents (Nat.lt_add_right _ Nat.one_pos)
  have represents₁ := relabelled.represents
  have token_lt₁ := relabelled.tokens ▸ token_lt
  obtain ⟨here, -, -, -, held_left, held_right⟩ := represents₁.held
  simp only [rebalance, refreshed, Option.bind_eq_bind, Option.bind_some, here,
    heightAt_root held_left, heightAt_root held_right]
  rw [AvlTree.balance, height_shape, height_shape]
  split_ifs with left_heavy right_heavy
  · obtain ⟨item', h', done, stands⟩ := leanLeft_ok represents₁ token_lt₁ left_heavy
    exact ⟨item', h', done, .after relabelled stands⟩
  · obtain ⟨item', h', done, stands⟩ := leanRight_ok represents₁ token_lt₁ right_heavy
    exact ⟨item', h', done, .after relabelled stands⟩
  · refine ⟨item, _, rfl, _, key, value, left, right, relabelled, ?_⟩
    rw [shape_node, AvlTree.join, height_shape, height_shape]

/-- A node whose left subtree was rewritten is rebalanced. -/
theorem rebuildLeft_ok {item height : Nat} {key key' : K} {value value' : V}
    {left right left' : NurseryTree K V}
    (represents : h.Represents (.node item token height key value left right))
    (inner : Rewrites token h left h' left') (token_lt : token < h.tokens) :
    ∃ item' h'', (h'.store item ⟨key', value', left'.root, right.root, token, height⟩).rebalance
        token item = some (item', h'') ∧
      Stands token item' h (.node item token height key value left right) h''
        (AvlTree.balance key' value' left'.shape right.shape) := by
  have relinked : Rewrites token h (.node item token height key value left right)
      (h'.store item ⟨key', value', left'.root, right.root, token, height⟩)
      (.node item token height key' value' left' right) :=
    .left represents inner represents.held.2.2.2.1
  obtain ⟨item', h'', balanced, stands⟩ :=
    rebalance_ok relinked.represents (relinked.tokens ▸ token_lt)
  exact ⟨item', h'', balanced, .after relinked stands⟩

/-- A node whose right subtree was rewritten is rebalanced. -/
theorem rebuildRight_ok {item height : Nat} {key key' : K} {value value' : V}
    {left right right' : NurseryTree K V}
    (represents : h.Represents (.node item token height key value left right))
    (inner : Rewrites token h right h' right') (token_lt : token < h.tokens) :
    ∃ item' h'', (h'.store item ⟨key', value', left.root, right'.root, token, height⟩).rebalance
        token item = some (item', h'') ∧
      Stands token item' h (.node item token height key value left right) h''
        (AvlTree.balance key' value' left.shape right'.shape) := by
  have relinked : Rewrites token h (.node item token height key value left right)
      (h'.store item ⟨key', value', left.root, right'.root, token, height⟩)
      (.node item token height key' value' left right') :=
    .right represents inner represents.held.2.2.2.1
  obtain ⟨item', h'', balanced, stands⟩ :=
    rebalance_ok relinked.represents (relinked.tokens ▸ token_lt)
  exact ⟨item', h'', balanced, .after relinked stands⟩

end NurseryHeap

end Everett

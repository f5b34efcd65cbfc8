import Everett.Nursery.Balance

/-!
# Edits

An edit of a represented tree succeeds; its root then stands for the shape in which the key was
inserted or removed.
-/

namespace Everett

open NurseryTree

namespace NurseryHeap

variable {K V : Type} [LinearOrder K] {token : Nat} {key : K} {value : V}

theorem insert_ok {t : NurseryTree K V} {h : NurseryHeap K V} {depth : Nat}
    (represents : h.Represents t) (deep : t.depth < depth) (token_lt : token < h.tokens) :
    ∃ item h', insert token key value depth h t.root = some (item, !t.shape.has key, h') ∧
      Stands token item h t h' (t.shape.insert key value) := by
  induction t generalizing h depth with
  | nil =>
      obtain ⟨depth, rfl⟩ := Nat.exists_eq_add_of_lt deep
      refine ⟨h.next, _, rfl, 1, key, value, .nil, .nil, ?_, rfl⟩
      refine ⟨⟨⟨Function.update_self .., Nat.lt_succ_self _, token_lt, Nat.one_pos, trivial,
        trivial⟩, List.nodup_singleton _⟩, fun other member => ?_, Nat.le_succ _, rfl, rfl,
        fun other below _ => Function.update_of_ne below.ne _ _, fun other below node here _ =>
          (Function.update_of_ne below.ne _ _).trans here,
        fun other ne _ => ⟨ne.symm, trivial, trivial⟩⟩
      cases List.mem_singleton.mp member
      exact .inr (Nat.le_refl _)
  | node item edit height k v left right left_ih right_ih =>
      obtain ⟨depth, rfl⟩ := Nat.exists_eq_add_of_lt (Nat.lt_of_le_of_lt (Nat.zero_le _) deep)
      rw [Nat.zero_add] at deep ⊢
      have shallow : left.depth < depth ∧ right.depth < depth := by
        change max left.depth right.depth + 1 < depth + 1 at deep
        omega
      obtain ⟨here, -, -, positive, -, -⟩ := represents.held
      obtain ⟨item₁, h₁, made, owned⟩ := editable_ok represents token_lt
      have token_lt₁ : token < h₁.tokens := owned.tokens ▸ token_lt
      have represents₁ := owned.represents
      rw [root_node, shape_node, AvlTree.has, AvlTree.insert]
      simp only [insert, here, made, Option.bind_eq_bind, Option.bind_some]
      by_cases less : key < k
      · obtain ⟨child, h₂, done, _, _, _, _, _, rewritten, same⟩ :=
          left_ih represents₁.left shallow.1 token_lt₁
        obtain ⟨item', h', balanced, stands⟩ := @rebuildLeft_ok _ _ _ _ _ _ _ _ k _ v _ _ _
          represents₁ rewritten token_lt₁
        rw [same] at stands
        rw [if_pos less, if_pos less, if_pos less]
        refine ⟨item', h', ?_, .after owned stands⟩
        rw [root_node] at balanced
        rw [done, Option.bind_some, balanced, Option.bind_some]
      by_cases more : k < key
      · obtain ⟨child, h₂, done, _, _, _, _, _, rewritten, same⟩ :=
          right_ih represents₁.right shallow.2 token_lt₁
        obtain ⟨item', h', balanced, stands⟩ := @rebuildRight_ok _ _ _ _ _ _ _ _ k _ v _ _ _
          represents₁ rewritten token_lt₁
        rw [same] at stands
        rw [if_neg less, if_pos more, if_neg less, if_pos more, if_neg less, if_pos more]
        refine ⟨item', h', ?_, .after owned stands⟩
        rw [root_node] at balanced
        rw [done, Option.bind_some, balanced, Option.bind_some]
      · rw [if_neg less, if_neg more, if_neg less, if_neg more, if_neg less, if_neg more]
        exact ⟨item₁, _, rfl, .after owned ⟨height, k, value, left, right,
          .relabel represents₁ positive, rfl⟩⟩

/-- A root which stands for the shape that an edit leaves of a tree. -/
def Leaves (token : Nat) (h : NurseryHeap K V) (t : NurseryTree K V) (h' : NurseryHeap K V)
    (root : Option Nat) (shape : AvlTree K V) : Prop :=
  ∃ t', Rewrites token h t h' t' ∧ t'.root = root ∧ t'.shape = shape

omit [LinearOrder K] in
theorem Stands.leaves {h h' : NurseryHeap K V} {t : NurseryTree K V} {item : Nat}
    {shape : AvlTree K V} (stands : Stands token item h t h' shape) :
    Leaves token h t h' (some item) shape := by
  obtain ⟨_, _, _, _, _, rewritten, same⟩ := stands
  exact ⟨_, rewritten, rfl, same⟩

omit [LinearOrder K] in
/-- A node gives way to one of its subtrees. -/
theorem Rewrites.dropLeft {h : NurseryHeap K V} {item edit height : Nat} {k : K} {v : V}
    {left right : NurseryTree K V}
    (represents : h.Represents (.node item edit height k v left right)) :
    Rewrites token h (.node item edit height k v left right) h right :=
  ⟨represents.right, fun _ member => .inl (List.mem_cons_of_mem _ (List.mem_append_right _ member)),
    Nat.le_refl _, rfl, rfl, fun _ _ _ => rfl, fun _ _ _ here _ => here,
    fun _ _ foreign => foreign.2.2⟩

omit [LinearOrder K] in
theorem Rewrites.dropRight {h : NurseryHeap K V} {item edit height : Nat} {k : K} {v : V}
    {left right : NurseryTree K V}
    (represents : h.Represents (.node item edit height k v left right)) :
    Rewrites token h (.node item edit height k v left right) h left :=
  ⟨represents.left, fun _ member => .inl (List.mem_cons_of_mem _ (List.mem_append_left _ member)),
    Nat.le_refl _, rfl, rfl, fun _ _ _ => rfl, fun _ _ _ here _ => here,
    fun _ _ foreign => foreign.2.1⟩

omit [LinearOrder K] in
theorem removeFirst_ok {item edit height : Nat} {k : K} {v : V} {left right : NurseryTree K V}
    {h : NurseryHeap K V} {depth : Nat}
    (represents : h.Represents (.node item edit height k v left right))
    (deep : (NurseryTree.node item edit height k v left right).depth < depth)
    (token_lt : token < h.tokens) :
    ∃ root h', removeFirst token depth h item =
        some ((AvlTree.removeFirst k v left.shape right.shape).1, root, h') ∧
      Leaves token h (.node item edit height k v left right) h' root
        (AvlTree.removeFirst k v left.shape right.shape).2 := by
  induction left generalizing item edit height k v right h depth with
  | nil =>
      obtain ⟨depth, rfl⟩ := Nat.exists_eq_add_of_lt (Nat.lt_of_le_of_lt (Nat.zero_le _) deep)
      rw [Nat.zero_add]
      refine ⟨right.root, h, ?_, right, .dropLeft represents, rfl, rfl⟩
      simp [removeFirst, represents.held.1, NurseryTree.root, shape, AvlTree.removeFirst]
  | node item₂ edit₂ height₂ k₂ v₂ left₂ right₂ left_ih _ =>
      obtain ⟨depth, rfl⟩ := Nat.exists_eq_add_of_lt (Nat.lt_of_le_of_lt (Nat.zero_le _) deep)
      rw [Nat.zero_add] at deep ⊢
      have shallow : (NurseryTree.node item₂ edit₂ height₂ k₂ v₂ left₂ right₂).depth < depth := by
        rw [NurseryTree.depth] at deep
        omega
      obtain ⟨item₁, h₁, made, owned⟩ := editable_ok represents token_lt
      have token_lt₁ : token < h₁.tokens := owned.tokens ▸ token_lt
      obtain ⟨root, h₂, done, t', rewritten, rfl, same⟩ :=
        left_ih owned.represents.left shallow token_lt₁
      obtain ⟨item', h', balanced, stands⟩ := @rebuildLeft_ok _ _ _ _ _ _ _ _ k _ v _ _ _
        owned.represents rewritten token_lt₁
      rw [same] at stands
      refine ⟨some item', h', ?_, (Stands.after owned stands).leaves⟩
      simp only [removeFirst, represents.held.1, root_node, made, Option.bind_eq_bind,
        Option.bind_some, done, balanced]
      rfl

theorem remove_ok {t : NurseryTree K V} {h : NurseryHeap K V} {depth : Nat}
    (represents : h.Represents t) (deep : t.depth < depth) (token_lt : token < h.tokens) :
    ∃ root h', remove token key depth h t.root = some (root, t.shape.has key, h') ∧
      Leaves token h t h' root (t.shape.remove key) := by
  induction t generalizing h depth with
  | nil =>
      obtain ⟨depth, rfl⟩ := Nat.exists_eq_add_of_lt deep
      exact ⟨none, h, rfl, .nil, .refl represents, rfl, rfl⟩
  | node item edit height k v left right left_ih right_ih =>
      obtain ⟨depth, rfl⟩ := Nat.exists_eq_add_of_lt (Nat.lt_of_le_of_lt (Nat.zero_le _) deep)
      rw [Nat.zero_add] at deep ⊢
      have shallow : left.depth < depth ∧ right.depth < depth := by
        change max left.depth right.depth + 1 < depth + 1 at deep
        omega
      obtain ⟨here, -, -, positive, -, -⟩ := represents.held
      obtain ⟨item₁, h₁, made, owned⟩ := editable_ok represents token_lt
      have token_lt₁ : token < h₁.tokens := owned.tokens ▸ token_lt
      have represents₁ := owned.represents
      rw [root_node, shape_node, AvlTree.has, AvlTree.remove]
      simp only [remove, here, Option.bind_eq_bind, Option.bind_some]
      by_cases less : key < k
      · obtain ⟨root, h₂, done, t', rewritten, rfl, same⟩ :=
          left_ih represents₁.left shallow.1 token_lt₁
        rw [if_pos less, if_pos less, if_pos less, made, Option.bind_some, done, Option.bind_some,
          ← same]
        cases left.shape.has key with
        | true =>
            obtain ⟨item', h', balanced, stands⟩ := @rebuildLeft_ok _ _ _ _ _ _ _ _ k _ v _ _ _
              represents₁ rewritten token_lt₁
            rw [if_pos rfl, balanced, if_pos rfl]
            exact ⟨some item', h', rfl, (Stands.after owned stands).leaves⟩
        | false => exact ⟨some item₁, _, rfl, _,
            owned.trans (.left represents₁ rewritten positive), rfl, rfl⟩
      by_cases more : k < key
      · obtain ⟨root, h₂, done, t', rewritten, rfl, same⟩ :=
          right_ih represents₁.right shallow.2 token_lt₁
        rw [if_neg less, if_pos more, if_neg less, if_pos more, if_neg less, if_pos more, made,
          Option.bind_some, done, Option.bind_some, ← same]
        cases right.shape.has key with
        | true =>
            obtain ⟨item', h', balanced, stands⟩ := @rebuildRight_ok _ _ _ _ _ _ _ _ k _ v _ _ _
              represents₁ rewritten token_lt₁
            rw [if_pos rfl, balanced, if_pos rfl]
            exact ⟨some item', h', rfl, (Stands.after owned stands).leaves⟩
        | false => exact ⟨some item₁, _, rfl, _,
            owned.trans (.right represents₁ rewritten positive), rfl, rfl⟩
      · rw [if_neg less, if_neg more, if_neg less, if_neg more, if_neg less, if_neg more]
        cases left with
        | nil => exact ⟨right.root, h, rfl, right, .dropLeft represents, rfl, rfl⟩
        | node item₂ edit₂ height₂ k₂ v₂ left₂ right₂ =>
            cases right with
            | nil => exact ⟨some item₂, h, rfl, _, .dropRight represents, rfl, rfl⟩
            | node item₃ edit₃ height₃ k₃ v₃ left₃ right₃ =>
                obtain ⟨root, h₂, done, t', rewritten, rfl, same⟩ :=
                  removeFirst_ok represents₁.right shallow.2 token_lt₁
                let first := (AvlTree.removeFirst k₃ v₃ left₃.shape right₃.shape).1
                obtain ⟨item', h', balanced, stands⟩ :=
                  @rebuildRight_ok _ _ _ _ _ _ _ _ first.1 _ first.2 _ _ _ represents₁ rewritten
                    token_lt₁
                rw [same] at stands
                refine ⟨some item', h', ?_, (Stands.after owned stands).leaves⟩
                simp only [root_node, made, Option.bind_some, done]
                rw [root_node] at balanced
                rw [balanced]
                rfl

/-- Reading a represented tree finds what its table holds. -/
theorem findIn_ok {t : NurseryTree K V} {h : NurseryHeap K V} {depth : Nat} (held : h.Held t)
    (ordered : Ordered t.bindings) (deep : t.depth < depth) :
    findIn key depth h t.root = some (valueAt key t.bindings) := by
  induction t generalizing depth with
  | nil =>
      obtain ⟨depth, rfl⟩ := Nat.exists_eq_add_of_lt deep
      rfl
  | node item edit height k v left right left_ih right_ih =>
      obtain ⟨depth, rfl⟩ := Nat.exists_eq_add_of_lt (Nat.lt_of_le_of_lt (Nat.zero_le _) deep)
      rw [Nat.zero_add] at deep ⊢
      have shallow : left.depth < depth ∧ right.depth < depth := by
        change max left.depth right.depth + 1 < depth + 1 at deep
        omega
      obtain ⟨here, -, -, -, held_left, held_right⟩ := held
      obtain ⟨ordered_left, ordered_right, -, -⟩ := ordered_append_cons.mp ordered
      rw [root_node, NurseryTree.bindings, valueAt_append_cons ordered]
      simp only [findIn, here, Option.bind_eq_bind, Option.bind_some]
      split_ifs with less more
      · exact left_ih held_left ordered_left shallow.1
      · exact right_ih held_right ordered_right shallow.2
      · rfl

omit [LinearOrder K] in
/-- A traversal visits the bindings in order. -/
theorem visitIn_ok {t : NurseryTree K V} {h : NurseryHeap K V} {depth : Nat} (held : h.Held t)
    (deep : t.depth < depth) : visitIn depth h t.root = some t.bindings := by
  induction t generalizing depth with
  | nil =>
      obtain ⟨depth, rfl⟩ := Nat.exists_eq_add_of_lt deep
      rfl
  | node item edit height k v left right left_ih right_ih =>
      obtain ⟨depth, rfl⟩ := Nat.exists_eq_add_of_lt (Nat.lt_of_le_of_lt (Nat.zero_le _) deep)
      rw [Nat.zero_add] at deep ⊢
      have shallow : left.depth < depth ∧ right.depth < depth := by
        change max left.depth right.depth + 1 < depth + 1 at deep
        omega
      obtain ⟨here, -, -, -, held_left, held_right⟩ := held
      simp only [root_node, visitIn, here, Option.bind_eq_bind, Option.bind_some,
        left_ih held_left shallow.1, right_ih held_right shallow.2]
      rfl

end NurseryHeap

end Everett

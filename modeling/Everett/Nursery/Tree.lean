import Everett.Nursery.Map
import Everett.Library.AvlTree

/-!
# What the memory of a nursery map represents

A pointer represents a tree of nodes.  An edit may change the nodes of its tree which have its own
token and make new ones, and leaves all other nodes as they were; a tree which has no node with that
token is what it was.
-/

namespace Everett

variable {K V : Type}

/-- A tree of nodes with their addresses. -/
inductive NurseryTree (K V : Type)
  | nil
  | node (item edit height : Nat) (key : K) (value : V) (left right : NurseryTree K V)

namespace NurseryTree

/-- The pointer to a tree. -/
def root : NurseryTree K V → Option Nat
  | nil => none
  | node item _ _ _ _ _ _ => some item

@[simp] theorem root_node (item edit height : Nat) (key : K) (value : V)
    (left right : NurseryTree K V) : (node item edit height key value left right).root = some item :=
  rfl

/-- The height which a tree is marked with. -/
def height : NurseryTree K V → Nat
  | nil => 0
  | node _ _ height _ _ _ _ => height

/-- The addresses of all nodes. -/
def items : NurseryTree K V → List Nat
  | nil => []
  | node item _ _ _ _ left right => item :: (left.items ++ right.items)

/-- The bindings in order. -/
def bindings : NurseryTree K V → List (K × V)
  | nil => []
  | node _ _ _ key value left right => left.bindings ++ (key, value) :: right.bindings

/-- The length of the longest path. -/
def depth : NurseryTree K V → Nat
  | nil => 0
  | node _ _ _ _ _ left right => max left.depth right.depth + 1

/-- The tree without addresses and tokens. -/
def shape : NurseryTree K V → AvlTree K V
  | nil => .nil
  | node _ _ height key value left right => .node height key value left.shape right.shape

@[simp] theorem shape_node (item edit height : Nat) (key : K) (value : V)
    (left right : NurseryTree K V) : (node item edit height key value left right).shape =
      .node height key value left.shape right.shape := rfl

theorem height_shape (t : NurseryTree K V) : t.shape.height = t.height := by
  cases t <;> rfl

theorem bindings_shape (t : NurseryTree K V) : t.shape.bindings = t.bindings := by
  induction t with
  | nil => rfl
  | node item edit height key value left right left_ih right_ih =>
      rw [shape_node, AvlTree.bindings, left_ih, right_ih, bindings]

/-- Whether a token is none of the nodes'. -/
def Foreign (token : Nat) : NurseryTree K V → Prop
  | nil => True
  | node _ edit _ _ _ left right => edit ≠ token ∧ left.Foreign token ∧ right.Foreign token

theorem depth_le (t : NurseryTree K V) : t.depth ≤ t.items.length := by
  induction t with
  | nil => exact Nat.zero_le _
  | node item edit height key value left right left_ih right_ih =>
      rw [depth, items, List.length_cons, List.length_append]
      omega

end NurseryTree

open NurseryTree

namespace NurseryHeap

/-- Memory holds a tree. -/
def Held (h : NurseryHeap K V) : NurseryTree K V → Prop
  | nil => True
  | node item edit height key value left right =>
      h.nodes item = some ⟨key, value, left.root, right.root, edit, height⟩ ∧
      item < h.next ∧ edit < h.tokens ∧ 0 < height ∧ h.Held left ∧ h.Held right

/-- Memory holds a tree whose nodes are distinct. -/
structure Represents (h : NurseryHeap K V) (t : NurseryTree K V) : Prop where
  held : h.Held t
  nodup : t.items.Nodup

/-- An edit with a token rewrites a tree. -/
structure Rewrites (token : Nat) (h : NurseryHeap K V) (t : NurseryTree K V)
    (h' : NurseryHeap K V) (t' : NurseryTree K V) : Prop where
  represents : h'.Represents t'
  fresh : ∀ item ∈ t'.items, item ∈ t.items ∨ h.next ≤ item
  next_le : h.next ≤ h'.next
  opened : h'.opened = h.opened
  tokens : h'.tokens = h.tokens
  frame : ∀ item < h.next, item ∉ t.items → h'.nodes item = h.nodes item
  shared : ∀ item < h.next, ∀ node, h.nodes item = some node → node.edit ≠ token →
    h'.nodes item = some node
  own : ∀ other ≠ token, t.Foreign other → t'.Foreign other

variable {token : Nat} {h h' h'' : NurseryHeap K V} {t t' t'' : NurseryTree K V}

theorem Held.item_lt (held : h.Held t) : ∀ item ∈ t.items, item < h.next := by
  induction t with
  | nil => nofun
  | node item edit height key value left right left_ih right_ih =>
      obtain ⟨-, within, -, -, held_left, held_right⟩ := held
      intro other member
      rcases List.mem_cons.mp member with rfl | member
      · exact within
      · rcases List.mem_append.mp member with member | member
        · exact left_ih held_left other member
        · exact right_ih held_right other member

/-- A tree is held wherever its nodes are. -/
theorem Held.frame (held : h.Held t) (same : ∀ item ∈ t.items, h'.nodes item = h.nodes item)
    (next_le : h.next ≤ h'.next) (tokens : h.tokens ≤ h'.tokens) : h'.Held t := by
  induction t with
  | nil => trivial
  | node item edit height key value left right left_ih right_ih =>
      obtain ⟨here, within, edit_lt, positive, held_left, held_right⟩ := held
      refine ⟨(same item List.mem_cons_self).trans here, Nat.lt_of_lt_of_le within next_le,
        Nat.lt_of_lt_of_le edit_lt tokens, positive, left_ih held_left fun other member => ?_,
        right_ih held_right fun other member => ?_⟩
      · exact same other (List.mem_cons_of_mem _ (List.mem_append_left _ member))
      · exact same other (List.mem_cons_of_mem _ (List.mem_append_right _ member))

theorem Held.store (held : h.Held t) {item : Nat} (absent : item ∉ t.items)
    (node : NurseryNode K V) : (h.store item node).Held t := by
  refine held.frame (fun other member => ?_) (Nat.le_refl _) (Nat.le_refl _)
  have ne : other ≠ item := by
    rintro rfl
    exact absent member
  exact Function.update_of_ne ne _ _

@[simp] theorem store_store (item : Nat) (a b : NurseryNode K V) :
    (h.store item a).store item b = h.store item b := by
  simp [NurseryHeap.store]

@[simp] theorem nodes_store_self (item : Nat) (node : NurseryNode K V) :
    (h.store item node).nodes item = some node := Function.update_self ..

theorem nodes_store_of_ne {item other : Nat} (ne : other ≠ item) (node : NurseryNode K V) :
    (h.store item node).nodes other = h.nodes other := Function.update_of_ne ne _ _

theorem Represents.left {item edit height : Nat} {key : K} {value : V}
    {left right : NurseryTree K V}
    (represents : h.Represents (.node item edit height key value left right)) :
    h.Represents left :=
  ⟨represents.held.2.2.2.2.1,
    (List.nodup_append.mp (List.nodup_cons.mp represents.nodup).2).1⟩

theorem Represents.right {item edit height : Nat} {key : K} {value : V}
    {left right : NurseryTree K V}
    (represents : h.Represents (.node item edit height key value left right)) :
    h.Represents right :=
  ⟨represents.held.2.2.2.2.2,
    (List.nodup_append.mp (List.nodup_cons.mp represents.nodup).2).2.1⟩

namespace Rewrites

theorem refl (represents : h.Represents t) : Rewrites token h t h t :=
  ⟨represents, fun _ member => .inl member, Nat.le_refl _, rfl, rfl, fun _ _ _ => rfl,
    fun _ _ _ same _ => same, fun _ _ foreign => foreign⟩

theorem trans (first : Rewrites token h t h' t') (second : Rewrites token h' t' h'' t'') :
    Rewrites token h t h'' t'' := by
  have next_le := first.next_le
  refine ⟨second.represents, fun item member => ?_, next_le.trans second.next_le,
    second.opened.trans first.opened, second.tokens.trans first.tokens,
    fun item within absent => ?_, fun item within node here foreign => ?_,
    fun other ne foreign => second.own other ne (first.own other ne foreign)⟩
  · rcases second.fresh item member with old | new
    · exact first.fresh item old
    · exact .inr (next_le.trans new)
  · rw [second.frame item (Nat.lt_of_lt_of_le within next_le) fun old => ?_,
      first.frame item within absent]
    rcases first.fresh item old with old | new
    · exact absent old
    · omega
  · exact second.shared item (Nat.lt_of_lt_of_le within next_le) node
      (first.shared item within node here foreign) foreign

end Rewrites

/-- What a tree becomes when a node of its own has other contents and subtrees. -/
theorem Rewrites.store {item height height' : Nat} {key key' : K} {value value' : V}
    {left right left' right' : NurseryTree K V}
    (represents : h.Represents (.node item token height key value left right))
    (next_le : h.next ≤ h'.next) (opened : h'.opened = h.opened) (tokens : h'.tokens = h.tokens)
    (held_left : h'.Held left') (held_right : h'.Held right')
    (nodup : (left'.items ++ right'.items).Nodup)
    (fresh : ∀ other ∈ left'.items ++ right'.items,
      other ∈ left.items ++ right.items ∨ h.next ≤ other)
    (frame : ∀ other < h.next, other ∉ left.items ++ right.items →
      h'.nodes other = h.nodes other)
    (shared : ∀ other < h.next, ∀ node, h.nodes other = some node → node.edit ≠ token →
      h'.nodes other = some node)
    (own : ∀ other ≠ token, left.Foreign other → right.Foreign other →
      left'.Foreign other ∧ right'.Foreign other) (positive : 0 < height') :
    Rewrites token h (.node item token height key value left right)
      (h'.store item ⟨key', value', left'.root, right'.root, token, height'⟩)
      (.node item token height' key' value' left' right') := by
  obtain ⟨⟨here, within, token_lt, -, -, -⟩, distinct⟩ := represents
  have outside := (List.nodup_cons.mp distinct).1
  have absent : item ∉ left'.items ++ right'.items := by
    intro member
    rcases fresh item member with old | new
    · exact outside old
    · omega
  have absent_left := fun member => absent (List.mem_append_left _ member)
  have absent_right := fun member => absent (List.mem_append_right _ member)
  refine ⟨⟨⟨nodes_store_self _ _, Nat.lt_of_lt_of_le within next_le, tokens ▸ token_lt, positive,
    held_left.store absent_left _, held_right.store absent_right _⟩,
    List.nodup_cons.mpr ⟨absent, nodup⟩⟩, fun other member => ?_, next_le, opened, tokens,
    fun other below elsewhere => ?_, fun other below node content foreign => ?_,
    fun other ne foreign => ⟨ne.symm, own other ne foreign.2.1 foreign.2.2⟩⟩
  · rcases List.mem_cons.mp member with rfl | member
    · exact .inl List.mem_cons_self
    · exact (fresh other member).imp_left (List.mem_cons_of_mem _)
  · have ne : other ≠ item := fun same => elsewhere (same ▸ List.mem_cons_self)
    rw [nodes_store_of_ne ne]
    exact frame other below fun member => elsewhere (List.mem_cons_of_mem _ member)
  · have ne : other ≠ item := by
      rintro rfl
      rw [here] at content
      cases content
      exact foreign rfl
    rw [nodes_store_of_ne ne]
    exact shared other below node content foreign

/-- The left subtree of a node is rewritten. -/
theorem Rewrites.left {item height height' : Nat} {key key' : K} {value value' : V}
    {left right left' : NurseryTree K V}
    (represents : h.Represents (.node item token height key value left right))
    (inner : Rewrites token h left h' left') (positive : 0 < height') :
    Rewrites token h (.node item token height key value left right)
      (h'.store item ⟨key', value', left'.root, right.root, token, height'⟩)
      (.node item token height' key' value' left' right) := by
  obtain ⟨-, -, disjoint⟩ := List.nodup_append.mp (List.nodup_cons.mp represents.nodup).2
  have right_lt := represents.right.held.item_lt
  have same : ∀ other ∈ right.items, h'.nodes other = h.nodes other := fun other member =>
    inner.frame other (right_lt other member) fun old => disjoint other old other member rfl
  refine .store represents inner.next_le inner.opened inner.tokens inner.represents.held
    (represents.right.held.frame same inner.next_le inner.tokens.ge)
    (List.nodup_append.mpr ⟨inner.represents.nodup, represents.right.nodup,
      fun a in_left b in_right same => ?_⟩) (fun other member => ?_)
    (fun other below elsewhere => inner.frame other below fun old =>
      elsewhere (List.mem_append_left _ old)) inner.shared
    (fun other ne foreign_left foreign_right => ⟨inner.own other ne foreign_left, foreign_right⟩)
    positive
  · subst same
    rcases inner.fresh a in_left with old | new
    · exact disjoint a old a in_right rfl
    · have := right_lt a in_right
      omega
  · rcases List.mem_append.mp member with member | member
    · exact (inner.fresh other member).imp_left (List.mem_append_left _)
    · exact .inl (List.mem_append_right _ member)

/-- The right subtree of a node is rewritten. -/
theorem Rewrites.right {item height height' : Nat} {key key' : K} {value value' : V}
    {left right right' : NurseryTree K V}
    (represents : h.Represents (.node item token height key value left right))
    (inner : Rewrites token h right h' right') (positive : 0 < height') :
    Rewrites token h (.node item token height key value left right)
      (h'.store item ⟨key', value', left.root, right'.root, token, height'⟩)
      (.node item token height' key' value' left right') := by
  obtain ⟨-, -, disjoint⟩ := List.nodup_append.mp (List.nodup_cons.mp represents.nodup).2
  have left_lt := represents.left.held.item_lt
  have same : ∀ other ∈ left.items, h'.nodes other = h.nodes other := fun other member =>
    inner.frame other (left_lt other member) fun old => disjoint other member other old rfl
  refine .store represents inner.next_le inner.opened inner.tokens
    (represents.left.held.frame same inner.next_le inner.tokens.ge) inner.represents.held
    (List.nodup_append.mpr ⟨represents.left.nodup, inner.represents.nodup,
      fun a in_left b in_right same => ?_⟩) (fun other member => ?_)
    (fun other below elsewhere => inner.frame other below fun old =>
      elsewhere (List.mem_append_right _ old)) inner.shared
    (fun other ne foreign_left foreign_right => ⟨foreign_left, inner.own other ne foreign_right⟩)
    positive
  · subst same
    rcases inner.fresh a in_right with old | new
    · exact disjoint a in_left a old rfl
    · have := left_lt a in_left
      omega
  · rcases List.mem_append.mp member with member | member
    · exact .inl (List.mem_append_left _ member)
    · exact (inner.fresh other member).imp_left (List.mem_append_right _)

/-- A node of the token's own is relabelled. -/
theorem Rewrites.relabel {item height height' : Nat} {key key' : K} {value value' : V}
    {left right : NurseryTree K V}
    (represents : h.Represents (.node item token height key value left right))
    (positive : 0 < height') :
    Rewrites token h (.node item token height key value left right)
      (h.store item ⟨key', value', left.root, right.root, token, height'⟩)
      (.node item token height' key' value' left right) :=
  .left represents (.refl represents.left) positive

/-- `editable` gives a node of the token's own. -/
theorem editable_ok {item edit height : Nat} {key : K} {value : V} {left right : NurseryTree K V}
    (represents : h.Represents (.node item edit height key value left right))
    (token_lt : token < h.tokens) :
    ∃ item' h', h.editable token item = some (item', h') ∧
      Rewrites token h (.node item edit height key value left right) h'
        (.node item' token height key value left right) := by
  obtain ⟨here, within, -, positive, held_left, held_right⟩ := represents.held
  have subtrees := (List.nodup_cons.mp represents.nodup).2
  by_cases own : edit = token
  · subst own
    refine ⟨item, h, ?_, .refl represents⟩
    simp [editable, here]
  · refine ⟨h.next, (h.create ⟨key, value, left.root, right.root, token, height⟩).2, ?_, ?_⟩
    · simp [editable, here, own, create]
    · have below_left := held_left.item_lt
      have below_right := held_right.item_lt
      have below : ∀ other ∈ left.items ++ right.items, other < h.next := fun other member =>
        (List.mem_append.mp member).elim (below_left other) (below_right other)
      have old : ∀ other < h.next, (h.create ⟨key, value, left.root, right.root, token,
          height⟩).2.nodes other = h.nodes other := fun other lower =>
        Function.update_of_ne lower.ne _ _
      refine ⟨⟨⟨Function.update_self .., Nat.lt_succ_self _, token_lt, positive,
        held_left.frame (fun other member => old other (below_left other member)) (Nat.le_succ _)
          (Nat.le_refl _),
        held_right.frame (fun other member => old other (below_right other member))
          (Nat.le_succ _) (Nat.le_refl _)⟩,
        List.nodup_cons.mpr ⟨fun member => Nat.lt_irrefl _ (below _ member), subtrees⟩⟩,
        fun other member => ?_, Nat.le_succ _, rfl, rfl, fun other lower _ => old other lower,
        fun other lower node content _ => (old other lower).trans content,
        fun other ne foreign => ⟨ne.symm, foreign.2⟩⟩
      rcases List.mem_cons.mp member with rfl | member
      · exact .inr (Nat.le_refl _)
      · exact .inl (List.mem_cons_of_mem _ member)

theorem heightAt_root (held : h.Held t) : h.heightAt t.root = some t.height := by
  cases t with
  | nil => rfl
  | node item edit height key value left right =>
      change (h.nodes item).map NurseryNode.height = some height
      rw [held.1]
      rfl

theorem height_pos (held : h.Held t) (nonempty : t ≠ .nil) : 0 < t.height := by
  cases t with
  | nil => exact absurd rfl nonempty
  | node => exact held.2.2.2.1

theorem refresh_ok {item height : Nat} {key : K} {value : V} {left right : NurseryTree K V}
    (represents : h.Represents (.node item token height key value left right)) :
    ∃ h', h.refresh item = some h' ∧
      h' = h.store item ⟨key, value, left.root, right.root, token,
        1 + max left.height right.height⟩ := by
  obtain ⟨here, -, -, -, held_left, held_right⟩ := represents.held
  refine ⟨_, ?_, rfl⟩
  simp [refresh, here, heightAt_root held_left, heightAt_root held_right]

end NurseryHeap

end Everett

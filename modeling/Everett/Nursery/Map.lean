import Mathlib.Tactic
import Everett.Library.SortedTable

/-!
# Nursery maps

A nursery map is an AVL tree in memory.  A node belongs to the edit token which it was made under;
an edit changes a node in place only under the same token, and copies it otherwise.  Freezing a map
closes its token, so that what a snapshot can reach is never changed again.
-/

namespace Everett

variable {K V : Type}

/-- `node`, with its binding; pointers are addresses. -/
structure NurseryNode (K V : Type) where
  key : K
  value : V
  left : Option Nat
  right : Option Nat
  /-- Address of the edit token. -/
  edit : Nat
  height : Nat

/-- All nodes and edit tokens, which are never reused. -/
structure NurseryHeap (K V : Type) where
  nodes : Nat → Option (NurseryNode K V)
  /-- Number of nodes made so far. -/
  next : Nat
  opened : Nat → Bool
  /-- Number of edit tokens made so far. -/
  tokens : Nat

namespace NurseryHeap

/-- Memory before the first node. -/
def initial : NurseryHeap K V := ⟨fun _ => none, 0, fun _ => false, 0⟩

/-- Change a node in place. -/
def store (h : NurseryHeap K V) (item : Nat) (node : NurseryNode K V) : NurseryHeap K V :=
  { h with nodes := Function.update h.nodes item (some node) }

/-- Make a node. -/
def create (h : NurseryHeap K V) (node : NurseryNode K V) : Nat × NurseryHeap K V :=
  (h.next, { h with
    nodes := Function.update h.nodes h.next (some node)
    next := h.next + 1 })

/-- `editable`. -/
def editable (token : Nat) (h : NurseryHeap K V) (item : Nat) : Option (Nat × NurseryHeap K V) := do
  let node ← h.nodes item
  if node.edit = token then some (item, h) else some (h.create { node with edit := token })

/-- `height`. -/
def heightAt (h : NurseryHeap K V) : Option Nat → Option Nat
  | none => some 0
  | some item => (h.nodes item).map NurseryNode.height

/-- `refresh`. -/
def refresh (h : NurseryHeap K V) (item : Nat) : Option (NurseryHeap K V) := do
  let node ← h.nodes item
  let left ← h.heightAt node.left
  let right ← h.heightAt node.right
  some (h.store item { node with height := 1 + max left right })

/-- `rotate_left`. -/
def rotateLeft (token : Nat) (h : NurseryHeap K V) (item : Nat) :
    Option (Nat × NurseryHeap K V) := do
  let node ← h.nodes item
  let (next, h) ← h.editable token (← node.right)
  let moved ← h.nodes next
  let h ← (h.store item { node with right := moved.left }).refresh item
  let h ← (h.store next { moved with left := some item }).refresh next
  some (next, h)

/-- `rotate_right`. -/
def rotateRight (token : Nat) (h : NurseryHeap K V) (item : Nat) :
    Option (Nat × NurseryHeap K V) := do
  let node ← h.nodes item
  let (next, h) ← h.editable token (← node.left)
  let moved ← h.nodes next
  let h ← (h.store item { node with left := moved.right }).refresh item
  let h ← (h.store next { moved with right := some item }).refresh next
  some (next, h)

/-- Rotate a left child which leans to the right. -/
def straightenLeft (token : Nat) (h : NurseryHeap K V) (item : Nat) :
    Option (Nat × NurseryHeap K V) := do
  let child ← h.nodes item
  let inner ← h.heightAt child.right
  let outer ← h.heightAt child.left
  if outer < inner then h.rotateLeft token item else some (item, h)

/-- Rotate a right child which leans to the left. -/
def straightenRight (token : Nat) (h : NurseryHeap K V) (item : Nat) :
    Option (Nat × NurseryHeap K V) := do
  let child ← h.nodes item
  let inner ← h.heightAt child.left
  let outer ← h.heightAt child.right
  if outer < inner then h.rotateRight token item else some (item, h)

/-- The first branch of `rebalance`. -/
def leanLeft (token : Nat) (h : NurseryHeap K V) (item : Nat) :
    Option (Nat × NurseryHeap K V) := do
  let node ← h.nodes item
  let (left, h) ← h.editable token (← node.left)
  let (left, h) ← h.straightenLeft token left
  (h.store item { node with left := some left }).rotateRight token item

/-- The second branch of `rebalance`. -/
def leanRight (token : Nat) (h : NurseryHeap K V) (item : Nat) :
    Option (Nat × NurseryHeap K V) := do
  let node ← h.nodes item
  let (right, h) ← h.editable token (← node.right)
  let (right, h) ← h.straightenRight token right
  (h.store item { node with right := some right }).rotateLeft token item

/-- `rebalance`. -/
def rebalance (token : Nat) (h : NurseryHeap K V) (item : Nat) :
    Option (Nat × NurseryHeap K V) := do
  let h ← h.refresh item
  let node ← h.nodes item
  let left ← h.heightAt node.left
  let right ← h.heightAt node.right
  if right + 1 < left then h.leanLeft token item
  else if left + 1 < right then h.leanRight token item
  else some (item, h)

variable [LinearOrder K]

/-- `insert`, to a bounded depth: the new root and whether the key is new. -/
def insert (token : Nat) (key : K) (value : V) : Nat → NurseryHeap K V → Option Nat →
    Option (Nat × Bool × NurseryHeap K V)
  | 0, _, _ => none
  | _ + 1, h, none =>
      let (item, h) := h.create ⟨key, value, none, none, token, 1⟩
      some (item, true, h)
  | depth + 1, h, some item => do
      let node ← h.nodes item
      let (item, h) ← h.editable token item
      if key < node.key then
        let (child, inserted, h) ← insert token key value depth h node.left
        let (item, h) ← (h.store item { node with
          left := some child
          edit := token }).rebalance token item
        some (item, inserted, h)
      else if node.key < key then
        let (child, inserted, h) ← insert token key value depth h node.right
        let (item, h) ← (h.store item { node with
          right := some child
          edit := token }).rebalance token item
        some (item, inserted, h)
      else
        some (item, false, h.store item { node with
          value
          edit := token })

/-- `remove_first`, to a bounded depth: the first binding and the new root. -/
def removeFirst (token : Nat) : Nat → NurseryHeap K V → Nat →
    Option ((K × V) × Option Nat × NurseryHeap K V)
  | 0, _, _ => none
  | depth + 1, h, item => do
      let node ← h.nodes item
      match node.left with
      | none => some ((node.key, node.value), node.right, h)
      | some left =>
          let (item, h) ← h.editable token item
          let (first, child, h) ← removeFirst token depth h left
          let (item, h) ← (h.store item { node with
            left := child
            edit := token }).rebalance token item
          some (first, some item, h)

/-- `remove`, to a bounded depth: the new root and whether the key was there. -/
def remove (token : Nat) (key : K) : Nat → NurseryHeap K V → Option Nat →
    Option (Option Nat × Bool × NurseryHeap K V)
  | 0, _, _ => none
  | _ + 1, h, none => some (none, false, h)
  | depth + 1, h, some item => do
      let node ← h.nodes item
      if key < node.key then
        let (item, h) ← h.editable token item
        let (child, erased, h) ← remove token key depth h node.left
        let h := h.store item { node with
          left := child
          edit := token }
        if erased then
          let (item, h) ← h.rebalance token item
          some (some item, true, h)
        else some (some item, false, h)
      else if node.key < key then
        let (item, h) ← h.editable token item
        let (child, erased, h) ← remove token key depth h node.right
        let h := h.store item { node with
          right := child
          edit := token }
        if erased then
          let (item, h) ← h.rebalance token item
          some (some item, true, h)
        else some (some item, false, h)
      else match node.left, node.right with
        | none, right => some (right, true, h)
        | left, none => some (left, true, h)
        | some _, some right =>
            let (item, h) ← h.editable token item
            let (first, child, h) ← removeFirst token depth h right
            let (item, h) ← (h.store item { node with
              key := first.1
              value := first.2
              right := child
              edit := token }).rebalance token item
            some (some item, true, h)

/-- `find_in`, to a bounded depth. -/
def findIn (key : K) : Nat → NurseryHeap K V → Option Nat → Option (Option V)
  | 0, _, _ => none
  | _ + 1, _, none => some none
  | depth + 1, h, some item => do
      let node ← h.nodes item
      if key < node.key then findIn key depth h node.left
      else if node.key < key then findIn key depth h node.right
      else some (some node.value)

/-- The bindings which `visit_in` visits, to a bounded depth. -/
def visitIn : Nat → NurseryHeap K V → Option Nat → Option (List (K × V))
  | 0, _, _ => none
  | _ + 1, _, none => some []
  | depth + 1, h, some item => do
      let node ← h.nodes item
      let before ← visitIn depth h node.left
      let after ← visitIn depth h node.right
      some (before ++ (node.key, node.value) :: after)

end NurseryHeap

/-- `nursery_map`, without its work counters. -/
structure NurseryMap where
  root : Option Nat
  edit : Option Nat
  size : Nat

/-- `snapshot_type` of a nursery map. -/
structure NurserySnapshot where
  root : Option Nat
  size : Nat

namespace NurseryMap

variable {K V : Type}

/-- An empty map. -/
def empty : NurseryMap := ⟨none, none, 0⟩

/-- `freeze`: close the token. -/
def freeze (h : NurseryHeap K V) (m : NurseryMap) : NurserySnapshot × NurseryHeap K V :=
  (⟨m.root, m.size⟩, match m.edit with
    | none => h
    | some token => { h with opened := Function.update h.opened token false })

/-- `thaw`. -/
def thaw (snapshot : NurserySnapshot) : NurseryMap := ⟨snapshot.root, none, snapshot.size⟩

/-- `begin_edit`: the token which an edit is made under. -/
def beginEdit (h : NurseryHeap K V) (m : NurseryMap) : Nat × NurseryHeap K V :=
  match m.edit.filter h.opened with
  | some token => (token, h)
  | none => (h.tokens, { h with
      opened := Function.update h.opened h.tokens true
      tokens := h.tokens + 1 })

/-- `for_each`. -/
def entries (h : NurseryHeap K V) (root : Option Nat) : Option (List (K × V)) :=
  NurseryHeap.visitIn (h.next + 1) h root

variable [LinearOrder K]

/-- `find`. -/
def find (h : NurseryHeap K V) (root : Option Nat) (key : K) : Option (Option V) :=
  NurseryHeap.findIn key (h.next + 1) h root

/-- `insert_or_assign`. -/
def insertOrAssign (h : NurseryHeap K V) (m : NurseryMap) (key : K) (value : V) :
    Option (NurseryMap × NurseryHeap K V) := do
  let (token, h) := m.beginEdit h
  let (root, inserted, h) ← NurseryHeap.insert token key value (h.next + 1) h m.root
  some (⟨some root, some token, m.size + inserted.toNat⟩, h)

/-- `erase`. -/
def erase (h : NurseryHeap K V) (m : NurseryMap) (key : K) :
    Option (NurseryMap × NurseryHeap K V) := do
  let (token, h) := m.beginEdit h
  let (root, erased, h) ← NurseryHeap.remove token key (h.next + 1) h m.root
  some (⟨root, some token, m.size - erased.toNat⟩, h)

end NurseryMap

end Everett

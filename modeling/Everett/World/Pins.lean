import Everett.Library.Outcome

/-!
# Fingerprints and pinned objects

A table fingerprint is a sum of key hashes times value hashes in a ring.  A pin set owns objects
with the amounts which they contribute to such a sum, and keeps the sum.
-/

namespace Everett

open Outcome

variable {K V E : Type}

/-- A fingerprint algebra over a ring with a table hash. -/
structure TableHash (K V E : Type) where
  /-- `lift` of the algebra. -/
  lift : UInt64 → E
  /-- `key` of the hash. -/
  key : K → UInt64
  /-- `value` of the hash. -/
  value : V → UInt64

namespace TableHash

variable [Ring E] (hash : TableHash K V E)

/-- `binding`: the fingerprint of a key bound to a value, or of an absent key. -/
def binding (key : K) : Option V → E
  | some value => hash.lift (hash.key key) * hash.lift (hash.value value)
  | none => 0

/-- `delta`: what replacing a value changes. -/
def delta (key : K) (before after : Option V) : E :=
  let oldHash := (before.map fun value => hash.lift (hash.value value)).getD 0
  let newHash := (after.map fun value => hash.lift (hash.value value)).getD 0
  hash.lift (hash.key key) * (newHash - oldHash)

@[simp]
theorem binding_none (key : K) : hash.binding key none = 0 := rfl

/-- A change contributes the new binding less the old one. -/
theorem delta_eq (key : K) (before after : Option V) :
    hash.delta key before after = hash.binding key after - hash.binding key before := by
  cases before <;> cases after <;> simp [delta, binding, mul_sub]

end TableHash

/-- `entry` of a pin set: an object, its identity and its signatures. -/
structure PinEntry (T E : Type) where
  objectId : Nat
  object : T
  /-- What the object adds to the signature of its owner. -/
  contribution : E
  /-- Fingerprint of the records of the object itself. -/
  nativeSignature : Option E
  deriving DecidableEq

/-- `pin_set`. -/
structure PinSet (T E : Type) where
  entries : List (PinEntry T E)
  signature : E

namespace PinSet

variable {T : Type} [Ring E]

/-- A pin set without objects. -/
def empty : PinSet T E := ⟨[], 0⟩

/-- `pins`. -/
def pins (owner : PinSet T E) : List T := owner.entries.map PinEntry.object

/-- `find`. -/
def find (owner : PinSet T E) (objectId : Nat) : Option (PinEntry T E) :=
  owner.entries.find? fun entry => entry.objectId = objectId

/-- `recompute_signature`. -/
def recomputeSignature (owner : PinSet T E) : E :=
  owner.entries.foldl (fun result item => result + item.contribution) 0

/-- `add`. -/
def add (owner : PinSet T E) (item : PinEntry T E) : Except String (PinSet T E) := do
  require ((owner.find item.objectId).isSome = false) "duplicate pinned object identity"
  .ok ⟨owner.entries ++ [item], owner.signature + item.contribution⟩

/-- Contributions of the inputs of a replacement. -/
def removedSum (owner : PinSet T E) : List Nat → List Nat → E → Except String E
  | _, [], removed => .ok removed
  | inputs, objectId :: rest, removed => do
      require (objectId ∉ inputs) "duplicate expected pinned input"
      let old ← demand (owner.find objectId) "expected pinned input is absent"
      removedSum owner (inputs ++ [objectId]) rest (removed + old.contribution)

/-- Contributions of the outputs of a replacement. -/
def addedSum (owner : PinSet T E) :
    List (PinEntry T E) → List (PinEntry T E) → E → Except String E
  | _, [], added => .ok added
  | earlier, item :: rest, added => do
      require ((owner.find item.objectId).isSome = false)
        "replacement must name a new immutable object"
      require (∀ other ∈ earlier, other.objectId ≠ item.objectId)
        "duplicate replacement object identity"
      addedSum owner (earlier ++ [item]) rest (added + item.contribution)

/-- `replace`: exchange some objects for new ones with the same contribution. -/
def replace [DecidableEq E] (owner : PinSet T E) (expectedInputs : List Nat)
    (replacements : List (PinEntry T E)) : Except String (PinSet T E) := do
  let removed ← owner.removedSum [] expectedInputs 0
  let added ← owner.addedSum [] replacements 0
  require (added = removed) "replacement changes the pinned contribution sum"
  let kept := owner.entries.filter fun item => item.objectId ∉ expectedInputs
  .ok ⟨kept ++ replacements, owner.signature - removed + added⟩

omit [Ring E] in
theorem find_isSome_eq_false {owner : PinSet T E} {objectId : Nat} :
    (owner.find objectId).isSome = false ↔ ∀ entry ∈ owner.entries, entry.objectId ≠ objectId := by
  simp [find]

/-- An object with a new identity is added. -/
theorem add_ok {owner : PinSet T E} {item : PinEntry T E}
    (fresh : ∀ entry ∈ owner.entries, entry.objectId ≠ item.objectId) :
    owner.add item = .ok ⟨owner.entries ++ [item], owner.signature + item.contribution⟩ := by
  rw [add, require_true (Iff.mpr find_isSome_eq_false fresh), ok_bind]

theorem recomputeSignature_eq_sum (owner : PinSet T E) :
    owner.recomputeSignature = (owner.entries.map PinEntry.contribution).sum := by
  rw [recomputeSignature, List.sum_eq_foldl, List.foldl_map]

omit [Ring E] in
/-- An identity finds the one entry which has it. -/
theorem find_eq_some {owner : PinSet T E} (distinct : (owner.entries.map PinEntry.objectId).Nodup)
    {entry : PinEntry T E} (member : entry ∈ owner.entries) :
    owner.find entry.objectId = some entry := by
  unfold find
  generalize owner.entries = entries at distinct member
  induction entries with
  | nil => cases member
  | cons head rest induction =>
      rw [List.map_cons, List.nodup_cons] at distinct
      rcases List.mem_cons.mp member with rfl | later
      · rw [List.find?_cons_of_pos (by simp)]
      · have different : head.objectId ≠ entry.objectId := fun same =>
          distinct.1 (same ▸ List.mem_map_of_mem later)
        rw [List.find?_cons_of_neg (by simpa using different), induction distinct.2 later]

/-- The inputs of a replacement are summed while they are distinct and present. -/
theorem removedSum_ok {owner : PinSet T E} (front : List (PinEntry T E))
    {back : List (PinEntry T E)} (removed : E)
    (split : owner.entries = front ++ back)
    (distinct : (owner.entries.map PinEntry.objectId).Nodup) :
    owner.removedSum (front.map PinEntry.objectId) (back.map PinEntry.objectId) removed =
      .ok (removed + (back.map PinEntry.contribution).sum) := by
  induction back generalizing front removed with
  | nil => simp [removedSum]
  | cons item back induction =>
      have new : item.objectId ∉ front.map PinEntry.objectId := by
        rw [split, List.map_append, List.nodup_append] at distinct
        exact fun member => distinct.2.2 _ member _ List.mem_cons_self rfl
      have found : owner.find item.objectId = some item :=
        find_eq_some distinct (split ▸ List.mem_append_right front List.mem_cons_self)
      have rest := induction (front ++ [item]) (removed + item.contribution)
        (by rw [split, List.append_assoc, List.singleton_append])
      rw [List.map_append, List.map_singleton] at rest
      rw [List.map_cons, removedSum, require_true new, ok_bind, found, demand_some, ok_bind, rest,
        List.map_cons, List.sum_cons, add_assoc]

/-- The outputs of a replacement are summed while they are new and distinct. -/
theorem addedSum_ok {owner : PinSet T E} (earlier : List (PinEntry T E))
    {items : List (PinEntry T E)} (added : E)
    (fresh : ∀ item ∈ items, ∀ entry ∈ owner.entries, entry.objectId ≠ item.objectId)
    (distinct : ((earlier ++ items).map PinEntry.objectId).Nodup) :
    owner.addedSum earlier items added =
      .ok (added + (items.map PinEntry.contribution).sum) := by
  induction items generalizing earlier added with
  | nil => simp [addedSum]
  | cons item items induction =>
      have new : ∀ other ∈ earlier, other.objectId ≠ item.objectId := by
        intro other member same
        rw [List.map_append, List.nodup_append] at distinct
        exact distinct.2.2 _ (List.mem_map_of_mem member) _ List.mem_cons_self same
      rw [addedSum, require_true (Iff.mpr find_isSome_eq_false (fresh item List.mem_cons_self)), ok_bind,
        require_true new, ok_bind,
        induction _ _ (fun other member => fresh other (List.mem_cons_of_mem _ member))
          (by rwa [List.append_assoc, List.singleton_append]),
        List.map_cons, List.sum_cons, add_assoc]

/-- All objects are exchanged for new ones which contribute as much. -/
theorem replace_all_ok [DecidableEq E] {owner : PinSet T E} {items : List (PinEntry T E)}
    (distinct : (owner.entries.map PinEntry.objectId).Nodup)
    (fresh : ∀ item ∈ items, ∀ entry ∈ owner.entries, entry.objectId ≠ item.objectId)
    (items_distinct : (items.map PinEntry.objectId).Nodup)
    (same : (items.map PinEntry.contribution).sum = owner.recomputeSignature) :
    owner.replace (owner.entries.map PinEntry.objectId) items = .ok ⟨items, owner.signature⟩ := by
  have removed := removedSum_ok [] 0 (List.nil_append owner.entries).symm distinct
  have added := addedSum_ok [] 0 fresh (by simpa using items_distinct)
  rw [List.map_nil, zero_add, ← recomputeSignature_eq_sum] at removed
  rw [zero_add, same] at added
  have none_kept : (owner.entries.filter fun item =>
      item.objectId ∉ owner.entries.map PinEntry.objectId) = [] := by
    refine List.filter_eq_nil_iff.mpr fun item member absent => ?_
    exact of_decide_eq_true absent (List.mem_map_of_mem member)
  rw [replace, removed, ok_bind, added, ok_bind, require_true rfl, ok_bind]
  simp only [none_kept, List.nil_append, sub_add_cancel]

end PinSet

end Everett

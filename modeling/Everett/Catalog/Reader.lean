import Everett.Catalog.Values

/-!
# The reader of outcomes

`outcome_reader` takes a head back from the bytes of an outcome, so that a replay answers without
looking at the tables.
-/

namespace Everett.Catalog

open Outcome LittleEndian

/-- `invalid`. -/
def invalidOutcome : Failure := .catalog "invalid Everett timeline outcome" 11 false

/-- A part of an outcome and the bytes after it. -/
abbrev Reader (α : Type) := List UInt8 → Answer (α × List UInt8)

/-- `number`. -/
def readNumber : Reader UInt64 := fun data => do
  require (8 ≤ data.length) invalidOutcome
  .ok (UInt64.ofNat (ofBytes (data.take 8)), data.drop 8)

/-- `field`, and the bytes of a checkpoint. -/
def readField : Reader Text := fun data => do
  let (size, data) ← readNumber data
  if fits : size.toNat ≤ data.length then
    .ok (⟨data.take size.toNat, by
      rw [List.length_take_of_le fits]
      exact size.toNat_lt⟩, data.drop size.toNat)
  else .error invalidOutcome

/-- The identity which a field spells, with the error of its constructor. -/
def spelt (error : Failure) (value : Text) : Answer ObjectId :=
  demand (ObjectId.ofHex value.items) error

/-- `timeline`. -/
def readTimeline : Reader TimelineHead := fun data => do
  let (name, data) ← readField data
  let (generation, data) ← readNumber data
  let (native, data) ← readField data
  let (index, data) ← readField data
  let (owner, data) ← readField data
  require (name.items ≠ [] ∧ owner.items ≠ [] ∧ generation.toNat ≤ 2 ^ 63 - 1) invalidOutcome
  let native ← spelt invalidOutcome native
  let index ← spelt invalidOutcome index
  .ok (⟨name, generation, ⟨native, index⟩, owner⟩, data)

/-- The error of `object_id`. -/
def identityError : Failure := .exception "object ID must contain 32 lowercase hex digits"

/-- A native identity. -/
def readIdentity : Reader ObjectId := fun data => do
  let (value, data) ← readField data
  let id ← spelt identityError value
  .ok (id, data)

/-- A pair of identities. -/
def readPair : Reader BlobIdentity := fun data => do
  let (native, data) ← readField data
  let (index, data) ← readField data
  let native ← spelt identityError native
  let index ← spelt identityError index
  .ok (⟨native, index⟩, data)

/-- So many items. -/
def readItems {α : Type} (read : Reader α) : Nat → Reader (List α)
  | 0, data => .ok ([], data)
  | count + 1, data => do
      let (item, data) ← read data
      let (rest, data) ← readItems read count data
      .ok (item :: rest, data)

theorem length_readItems {α : Type} {read : Reader α} {count : Nat} {data rest : List UInt8}
    {items : List α} (accepted : readItems read count data = .ok (items, rest)) :
    items.length = count := by
  induction count generalizing data items with
  | zero =>
      cases accepted
      rfl
  | succ count induction =>
      obtain ⟨⟨item, data⟩, -, later⟩ := bind_eq_ok.mp accepted
      obtain ⟨⟨others, data⟩, found, later⟩ := bind_eq_ok.mp later
      cases later
      rw [List.length_cons, induction found]

/-- A list behind its length, of items with at least so many bytes. -/
def readCounted {α : Type} (width : Nat) (read : Reader α) : Reader (Sized α) := fun data => do
  let (count, data) ← readNumber data
  require (count.toNat ≤ data.length / width) invalidOutcome
  match found : readItems read count.toNat data with
  | .ok (items, data) => .ok (⟨items, length_readItems found ▸ count.toNat_lt⟩, data)
  | .error failure => .error failure

/-- `auxiliary`. -/
def readAuxiliary : Reader Auxiliary := fun data => do
  let (pairs, data) ← readCounted 80 readPair data
  let (natives, data) ← readCounted 40 readIdentity data
  .ok (⟨pairs, natives⟩, data)

/-- `session`. -/
def readSession : Reader SessionHead := fun data => do
  let (head, data) ← readTimeline data
  let (checkpoint, data) ← readField data
  let (retained, data) ← readAuxiliary data
  .ok (⟨head, checkpoint, retained⟩, data)

/-- Read a whole outcome. -/
def readAll {α : Type} (read : Reader α) (outcome : List UInt8) : Answer α := do
  let (value, rest) ← read outcome
  require (rest = []) invalidOutcome
  .ok value

/-- A publication: whether it published, and a head. -/
def readPublication {α : Type} (read : Reader α) : Reader (Bool × α) := fun data => do
  let (published, data) ← readNumber data
  require (published.toNat ≤ 1) invalidOutcome
  let (head, data) ← read data
  .ok ((published ≠ 0, head), data)

/-! ## What was encoded is read -/

theorem readNumber_append (value : UInt64) (rest : List UInt8) :
    readNumber (number value ++ rest) = .ok (value, rest) := by
  have length := length_number value
  have long : 8 ≤ (number value ++ rest).length := by
    rw [List.length_append, length]
    exact Nat.le_add_right _ _
  have stored : ofBytes (number value) = value.toNat := ofBytes_toBytes_of_lt value.toNat_lt
  refine bind_eq_ok.mpr ⟨_, require_true long, ?_⟩
  rw [List.take_left' length, List.drop_left' length, stored, UInt64.ofNat_toNat]

theorem flatMap_octet (bytes : List UInt8) : bytes.flatMap octet = bytes := by
  induction bytes with
  | nil => rfl
  | cons byte bytes induction =>
      rw [List.flatMap_cons, induction]
      rfl

theorem field_eq (value : Text) :
    field value = number (UInt64.ofNat value.items.length) ++ value.items := by
  rw [field, counted, number, UInt64.toNat_ofNat_of_lt' value.length_lt, flatMap_octet]

theorem readField_append (value : Text) (rest : List UInt8) :
    readField (field value ++ rest) = .ok (value, rest) := by
  have size : (UInt64.ofNat value.items.length).toNat = value.items.length :=
    UInt64.toNat_ofNat_of_lt' value.length_lt
  rw [field_eq, List.append_assoc]
  refine bind_eq_ok.mpr ⟨_, readNumber_append _ _, ?_⟩
  have fits : (UInt64.ofNat value.items.length).toNat ≤ (value.items ++ rest).length := by
    rw [size, List.length_append]
    exact Nat.le_add_right _ _
  refine (dif_pos fits).trans ?_
  refine congrArg Except.ok (Prod.ext (Sized.ext ?_) ?_)
  · change (value.items ++ rest).take _ = _
    rw [size, List.take_left]
  · change (value.items ++ rest).drop _ = _
    rw [size, List.drop_left]

/-- An identity is written as a field. -/
def ObjectId.text (id : ObjectId) : Text := ⟨id.hex, by
  rw [id.length_hex]
  decide⟩

theorem identity_eq (id : ObjectId) : identity id = field id.text := by
  have width : id.text.items.length = 32 := id.length_hex
  rw [field_eq, width]
  rfl

theorem spelt_text (error : Failure) (id : ObjectId) : spelt error id.text = .ok id := by
  have spelling : ObjectId.ofHex id.text.items = some id := id.ofHex_hex
  rw [spelt, spelling, demand_some]

theorem readIdentity_append (id : ObjectId) (rest : List UInt8) :
    readIdentity (identity id ++ rest) = .ok (id, rest) := by
  rw [identity_eq]
  refine bind_eq_ok.mpr ⟨_, readField_append _ _, ?_⟩
  exact bind_eq_ok.mpr ⟨_, spelt_text _ _, rfl⟩

theorem readPair_append (value : BlobIdentity) (rest : List UInt8) :
    readPair (pair value ++ rest) = .ok (value, rest) := by
  rw [pair, identity_eq, identity_eq, List.append_assoc]
  refine bind_eq_ok.mpr ⟨_, readField_append _ _, ?_⟩
  refine bind_eq_ok.mpr ⟨_, readField_append _ _, ?_⟩
  refine bind_eq_ok.mpr ⟨_, spelt_text _ _, ?_⟩
  exact bind_eq_ok.mpr ⟨_, spelt_text _ _, rfl⟩

/-- A head which `validate_timeline` accepts. -/
def TimelineHead.Valid (head : TimelineHead) : Prop :=
  head.name.items ≠ [] ∧ head.owner.items ≠ [] ∧ head.generation.toNat ≤ 2 ^ 63 - 1

theorem readTimeline_append {value : TimelineHead} (valid : value.Valid) (rest : List UInt8) :
    readTimeline (timeline value ++ rest) = .ok (value, rest) := by
  simp only [timeline, pair, identity_eq, List.append_assoc]
  refine bind_eq_ok.mpr ⟨_, readField_append _ _, ?_⟩
  refine bind_eq_ok.mpr ⟨_, readNumber_append _ _, ?_⟩
  refine bind_eq_ok.mpr ⟨_, readField_append _ _, ?_⟩
  refine bind_eq_ok.mpr ⟨_, readField_append _ _, ?_⟩
  refine bind_eq_ok.mpr ⟨_, readField_append _ _, ?_⟩
  refine bind_eq_ok.mpr ⟨_, require_true valid, ?_⟩
  refine bind_eq_ok.mpr ⟨_, spelt_text _ _, ?_⟩
  exact bind_eq_ok.mpr ⟨_, spelt_text _ _, rfl⟩

theorem readItems_append {α : Type} {read : Reader α} {encode : α → List UInt8}
    (reads : ∀ a rest, read (encode a ++ rest) = .ok (a, rest)) (items : List α)
    (rest : List UInt8) :
    readItems read items.length (items.flatMap encode ++ rest) = .ok (items, rest) := by
  induction items with
  | nil => rfl
  | cons item items induction =>
      rw [List.flatMap_cons, List.append_assoc]
      refine bind_eq_ok.mpr ⟨_, reads item _, ?_⟩
      exact bind_eq_ok.mpr ⟨_, induction, rfl⟩

theorem readCounted_append {α : Type} {width : Nat} {read : Reader α} {encode : α → List UInt8}
    (positive : 0 < width) (wide : ∀ a, (encode a).length = width)
    (reads : ∀ a rest, read (encode a ++ rest) = .ok (a, rest)) (value : Sized α)
    (rest : List UInt8) :
    readCounted width read (counted encode value ++ rest) = .ok (value, rest) := by
  have size : (UInt64.ofNat value.items.length).toNat = value.items.length :=
    UInt64.toNat_ofNat_of_lt' value.length_lt
  have front : counted encode value =
      number (UInt64.ofNat value.items.length) ++ value.items.flatMap encode := by
    rw [counted, number, size]
  have total : (value.items.flatMap encode).length = value.items.length * width := by
    rw [List.length_flatMap, List.map_congr_left fun a _ => wide a, List.map_const',
      List.sum_replicate, smul_eq_mul]
  rw [front, List.append_assoc]
  refine bind_eq_ok.mpr ⟨_, readNumber_append _ _, ?_⟩
  have enough : (UInt64.ofNat value.items.length).toNat ≤
      (value.items.flatMap encode ++ rest).length / width := by
    rw [size, Nat.le_div_iff_mul_le positive, List.length_append, total]
    exact Nat.le_add_right _ _
  refine bind_eq_ok.mpr ⟨_, require_true enough, ?_⟩
  have items := readItems_append reads value.items rest
  rw [← size] at items
  split
  · rename_i found accepted
    cases accepted.symm.trans items
    rfl
  · rename_i failure refused
    cases refused.symm.trans items

theorem length_identity (id : ObjectId) : (identity id).length = 40 := by
  rw [identity, List.length_append, length_toBytes, id.length_hex]

theorem length_pair (value : BlobIdentity) : (pair value).length = 80 := by
  rw [pair, List.length_append, length_identity, length_identity]

theorem readAuxiliary_append (value : Auxiliary) (rest : List UInt8) :
    readAuxiliary (auxiliary value ++ rest) = .ok (value, rest) := by
  rw [auxiliary, List.append_assoc]
  refine bind_eq_ok.mpr
    ⟨_, readCounted_append (by decide) length_pair readPair_append value.pairs _, ?_⟩
  exact bind_eq_ok.mpr
    ⟨_, readCounted_append (by decide) length_identity readIdentity_append value.natives _, rfl⟩

theorem readSession_append {value : SessionHead} (valid : value.timeline.Valid)
    (rest : List UInt8) : readSession (session value ++ rest) = .ok (value, rest) := by
  rw [session, List.append_assoc, List.append_assoc]
  refine bind_eq_ok.mpr ⟨_, readTimeline_append valid _, ?_⟩
  refine bind_eq_ok.mpr ⟨_, readField_append _ _, ?_⟩
  exact bind_eq_ok.mpr ⟨_, readAuxiliary_append _ _, rfl⟩

/-- An encoding is read to its end. -/
theorem readAll_eq {α : Type} {read : Reader α} {bytes : List UInt8} {value : α}
    (reads : read (bytes ++ []) = .ok (value, [])) : readAll read bytes = .ok value := by
  rw [List.append_nil] at reads
  refine bind_eq_ok.mpr ⟨_, reads, ?_⟩
  exact bind_eq_ok.mpr ⟨_, require_true rfl, rfl⟩

end Everett.Catalog

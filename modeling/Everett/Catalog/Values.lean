import Everett.File.Envelope
import Everett.Library.Framing

/-!
# Values of the catalog

Identities, names and heads, their byte encodings in requests and outcomes, and the reader of
outcomes.
-/

namespace Everett.Catalog

open Outcome LittleEndian

/-! ## Failures -/

/-- What a call of the catalog throws. -/
inductive Failure
  /-- `catalog_error`, with the extended result code and `outcome_unknown`. -/
  | catalog (message : String) (code : Nat) (outcomeUnknown : Bool)
  /-- Any other exception. -/
  | exception (message : String)
  deriving DecidableEq, Repr

/-- The result of a call of the catalog. -/
abbrev Answer := Except Failure

/-- `storage_error`. -/
def storageError (code : Nat) : Bool :=
  -- `SQLITE_IOERR`, `FULL`, `CORRUPT`, `NOTADB`, `NOMEM`, `CANTOPEN`, `PROTOCOL`
  [10, 13, 11, 26, 7, 14, 15].contains (code % 256)

/-- Throw `std::invalid_argument` unless the condition holds. -/
def demands (condition : Prop) [Decidable condition] (message : String) : Answer Unit :=
  require condition (.exception message)

/-! ## Strings and identities -/

/-- A string of bytes. -/
abbrev Text := Sized UInt8

/-- `name`: the check that a name is not empty. -/
def name (value : Text) : Answer Unit :=
  demands (value.items ≠ []) "empty Everett catalog name"

/-- A lower-case hexadecimal digit. -/
def isDigit (c : UInt8) : Bool := (48 ≤ c ∧ c ≤ 57) ∨ (97 ≤ c ∧ c ≤ 102)

/-- `object_id`: thirty-two lower-case hexadecimal digits. -/
structure ObjectId where
  hex : List UInt8
  length_hex : hex.length = 32
  digits : hex.all isDigit
  deriving DecidableEq

namespace ObjectId

@[ext]
theorem ext {a b : ObjectId} (same : a.hex = b.hex) : a = b := by
  cases a
  cases b
  cases same
  rfl

/-- The order of the spellings. -/
instance : LinearOrder ObjectId :=
  LinearOrder.lift' (fun id => id.hex.map UInt8.toNat) fun a b same => by
    refine ObjectId.ext (List.map_injective_iff.mpr ?_ same)
    exact fun c d equal => UInt8.toNat_inj.mp equal

/-- The identity which a string spells. -/
def ofHex (hex : List UInt8) : Option ObjectId :=
  if spelt : hex.length = 32 ∧ hex.all isDigit then some ⟨hex, spelt.1, spelt.2⟩ else none

theorem ofHex_hex (id : ObjectId) : ofHex id.hex = some id :=
  dif_pos ⟨id.length_hex, id.digits⟩

end ObjectId

/-- `blob_identity`. -/
@[ext]
structure BlobIdentity where
  native : ObjectId
  index : ObjectId
  deriving DecidableEq

/-- Native identities first, then index identities. -/
instance : LinearOrder BlobIdentity :=
  LinearOrder.lift' (fun pair => toLex (pair.native, pair.index)) fun a b same => by
    have both := Prod.mk.inj (toLex.injective same)
    exact BlobIdentity.ext both.1 both.2

/-! ## Heads -/

/-- `catalog_timeline_head`. -/
@[ext]
structure TimelineHead where
  name : Text
  generation : UInt64
  head : BlobIdentity
  owner : Text
  deriving DecidableEq

/-- `catalog_auxiliary_roots`. -/
@[ext]
structure Auxiliary where
  pairs : Sized BlobIdentity
  natives : Sized ObjectId
  deriving DecidableEq

/-- `catalog_session_head`. -/
@[ext]
structure SessionHead where
  timeline : TimelineHead
  checkpoint : Text
  auxiliary : Auxiliary
  deriving DecidableEq

/-- `std::unique`: the first of each run of equal items. -/
def unique {α : Type} [DecidableEq α] : List α → List α
  | [] => []
  | [a] => [a]
  | a :: b :: rest => if a = b then unique (b :: rest) else a :: unique (b :: rest)

theorem length_unique_le {α : Type} [DecidableEq α] (list : List α) :
    (unique list).length ≤ list.length := by
  fun_induction unique list with
  | case1 => exact Nat.le_refl _
  | case2 a => exact Nat.le_refl _
  | case3 a rest induction => exact induction.trans (Nat.le_succ _)
  | case4 a b rest different induction => exact Nat.succ_le_succ induction

/-- Sorted, without repetitions. -/
def sortedUnique {α : Type} [LinearOrder α] (list : List α) : List α :=
  unique (list.mergeSort fun a b => decide (a ≤ b))

theorem length_sortedUnique_le {α : Type} [LinearOrder α] (list : List α) :
    (sortedUnique list).length ≤ list.length :=
  (length_unique_le _).trans (List.length_mergeSort list).le

/-- `canonical_auxiliary`. -/
def canonicalAuxiliary (value : Auxiliary) (primary : BlobIdentity) : Auxiliary where
  pairs := value.pairs.shorten ((sortedUnique value.pairs.items).filter (· ≠ primary))
    ((List.length_filter_le _ _).trans (length_sortedUnique_le _))
  natives := value.natives.shorten (sortedUnique value.natives.items) (length_sortedUnique_le _)

/-! ## Encodings -/

/-- `number`. -/
def number (value : UInt64) : List UInt8 := toBytes 8 value.toNat

/-- `number` of a truth value. -/
def flag (value : Bool) : List UInt8 := number (if value then 1 else 0)

/-- A byte of a string. -/
def octet (byte : UInt8) : List UInt8 := [byte]

/-- `field`, and `binary`. -/
def field (value : Text) : List UInt8 := counted octet value

/-- `identity`. -/
def identity (value : ObjectId) : List UInt8 := toBytes 8 32 ++ value.hex

/-- `pair`. -/
def pair (value : BlobIdentity) : List UInt8 := identity value.native ++ identity value.index

/-- `timeline`. -/
def timeline (value : TimelineHead) : List UInt8 :=
  field value.name ++ (number value.generation ++ (pair value.head ++ field value.owner))

/-- `auxiliary`. -/
def auxiliary (value : Auxiliary) : List UInt8 :=
  counted pair value.pairs ++ counted identity value.natives

/-- `session`. -/
def session (value : SessionHead) : List UInt8 :=
  timeline value.timeline ++ (field value.checkpoint ++ auxiliary value.auxiliary)

/-! ## Encodings are framed -/

theorem length_number (value : UInt64) : (number value).length = 8 := length_toBytes _ _

theorem framed_number : Framed number := by
  apply Framed.of_length 8 length_number
  intro a b same
  exact UInt64.toNat_inj.mp (toBytes_injective a.toNat_lt b.toNat_lt same)

theorem framed_flag : Framed flag := by
  apply framed_number.comp
  intro a b same
  revert same
  cases a <;> cases b <;> decide

theorem framed_field : Framed field := by
  apply framed_counted
  apply Framed.of_length 1 fun _ => rfl
  intro a b same
  exact (List.cons.inj same).1

theorem framed_identity : Framed identity := by
  apply Framed.of_length 40
  · intro id
    rw [identity, List.length_append, length_toBytes, id.length_hex]
  · intro a b same
    exact ObjectId.ext (List.append_cancel_left same)

theorem framed_pair : Framed pair :=
  (framed_identity.append framed_identity).comp (f := fun p : BlobIdentity => (p.native, p.index))
    fun _ _ same => BlobIdentity.ext (Prod.mk.inj same).1 (Prod.mk.inj same).2

theorem framed_timeline : Framed timeline := by
  intro a b rest other same
  simp only [timeline, List.append_assoc] at same
  obtain ⟨names, same⟩ := framed_field _ _ _ _ same
  obtain ⟨generations, same⟩ := framed_number _ _ _ _ same
  obtain ⟨heads, same⟩ := framed_pair _ _ _ _ same
  obtain ⟨owners, same⟩ := framed_field _ _ _ _ same
  exact ⟨TimelineHead.ext names generations heads owners, same⟩

theorem framed_auxiliary : Framed auxiliary := by
  intro a b rest other same
  simp only [auxiliary, List.append_assoc] at same
  obtain ⟨pairs, same⟩ := framed_counted framed_pair _ _ _ _ same
  obtain ⟨natives, same⟩ := framed_counted framed_identity _ _ _ _ same
  exact ⟨Auxiliary.ext pairs natives, same⟩

theorem framed_session : Framed session := by
  intro a b rest other same
  simp only [session, List.append_assoc] at same
  obtain ⟨timelines, same⟩ := framed_timeline _ _ _ _ same
  obtain ⟨checkpoints, same⟩ := framed_field _ _ _ _ same
  obtain ⟨roots, same⟩ := framed_auxiliary _ _ _ _ same
  exact ⟨SessionHead.ext timelines checkpoints roots, same⟩

end Everett.Catalog

import Everett.Sort.Registry
import Everett.SortProfile.Codecs

/-!
# Selectors

Selection is a protocol: a selector writes a path for each sort, and finds the sort of a path, which
may come in part from an earlier record.  The declarative registry is one implementation.
-/

namespace Everett

open Outcome

/-- A selector of sorts. -/
structure Selector (S : Type) where
  /-- `write`: append the path of a sort. -/
  write : S → BitString → Result BitString
  /-- `select` from a bit reader. -/
  select : SortBitReader → Result (S × SortBitReader)
  /-- `select` from a reader which replays a retained path. -/
  selectReplayed : SortPrefixReader → Result (S × SortPrefixReader)

/-- A selector writes fixed paths, and reads exactly a path. -/
structure Selector.Lawful {S : Type} (selector : Selector S) (path : S → BitString) : Prop where
  written : ∀ {sort : S} {out result : BitString}, selector.write sort out = .ok result →
    result = out ++ path sort
  accepts : ∀ (sort : S) (out : BitString),
    Ensures SizeError (selector.write sort out) fun _ => True
  selects : ∀ sort, Reads selector.select (path sort) sort
  replays : ∀ {sort : S} {reader : SortPrefixReader} {fresh rest : BitString} {position : Nat},
    reader.retained.drop reader.replayed ++ fresh = path sort →
    reader.replayed ≤ reader.retained.length → reader.input = ⟨fresh ++ rest, position⟩ →
    reader.path.length + (path sort).length ≤ maximum64 - 7 →
    selector.selectReplayed reader = .ok (sort, ⟨⟨rest, position + fresh.length⟩,
      reader.retained, reader.retained.length, reader.path ++ path sort⟩)

/-- No path is a prefix of another. -/
theorem Selector.Lawful.prefix_free {S : Type} {selector : Selector S} {path : S → BitString}
    (lawful : selector.Lawful path) {sort other : S} (extends_path : path sort <+: path other) :
    sort = other := by
  obtain ⟨tail, split⟩ := extends_path
  have one := lawful.selects sort tail 0
  have two := lawful.selects other [] 0
  rw [List.append_nil, ← split, one] at two
  exact congrArg Prod.fst (Except.ok.inj two)

theorem Selector.Lawful.injective {S : Type} {selector : Selector S} {path : S → BitString}
    (lawful : selector.Lawful path) {sort other : S} (same : path sort = path other) :
    sort = other := by
  apply lawful.prefix_free
  rw [same]

namespace SortRegistry

variable {S : Type} [DecidableEq S]

/-- `read_bits` of one bit. -/
def readBit (reader : SortBitReader) : Result (Bool × SortBitReader) := do
  let (bit, reader) ← reader.readBits 1
  .ok (bit ≠ 0, reader)

/-- `registry_selector`. -/
def selector (registry : SortRegistry S) : Selector S where
  write := registry.writeCode
  select := registry.dispatch readBit
  selectReplayed := registry.dispatch SortPrefixReader.readBit

theorem readBit_reads (bit : Bool) : Reads readBit [bit] bit := by
  intro rest position
  have field : BitField.toBits 1 bit.toNat = [bit] := by cases bit <;> rfl
  have value : bit.toNat % 2 ^ 1 = bit.toNat := Nat.mod_eq_of_lt (Nat.lt_succ_of_le bit.toNat_le)
  have reads := SortBitReader.readBits_reads (show 1 ≤ 64 by decide) bit.toNat rest position
  have nonzero : decide (bit.toNat ≠ 0) = bit := by cases bit <;> rfl
  rw [field, value] at reads
  rw [readBit, reads, ok_bind]
  dsimp only
  rw [nonzero]

variable {registry : SortRegistry S} {sort : S}

theorem dispatch_reads (member : sort ∈ registry.leaves) :
    Reads (registry.dispatch readBit) (registry.code sort) sort := by
  induction registry with
  | undefined => cases member
  | tip leaf =>
      cases leaf with
      | none => cases member
      | some leaf =>
          obtain rfl := List.mem_singleton.mp member
          exact fun _ _ => rfl
  | bin left right left_induction right_induction =>
      intro rest position
      have step : ∀ (bit : Bool) (more : BitString), position + (bit :: more).length =
          position + [bit].length + more.length := by
        intro bit more
        simp only [List.length_cons, List.length_nil]
        omega
      rw [code]
      split_ifs with here
      · rw [List.cons_append, dispatch, ← List.singleton_append, readBit_reads false, ok_bind]
        dsimp only
        rw [if_neg Bool.false_ne_true, left_induction here]
        exact congrArg (fun position => Except.ok (sort, (⟨rest, position⟩ : SortBitReader)))
          (step false _).symm
      · have there := (List.mem_append.mp member).resolve_left here
        rw [List.cons_append, dispatch, ← List.singleton_append, readBit_reads true, ok_bind]
        dsimp only
        rw [if_pos rfl, right_induction there]
        exact congrArg (fun position => Except.ok (sort, (⟨rest, position⟩ : SortBitReader)))
          (step true _).symm

theorem writeCode_ensures (out : BitString) :
    Ensures SizeError (registry.writeCode sort out) fun _ => True := by
  have bit_ensures : ∀ (out : BitString) (bit : Nat), bit < 2 →
      Ensures SizeError (SortBitWriter.writeBits out bit 1) fun _ => True := by
    intro out bit small
    rw [SortBitWriter.writeBits, require_true ⟨by decide, small⟩, ok_bind]
    exact ProfileDetail.append_ensures _ _
  induction registry generalizing out with
  | undefined => trivial
  | tip => trivial
  | bin left right left_induction right_induction =>
      rw [writeCode]
      split_ifs
      · exact (bit_ensures out 0 (by decide)).bind fun next _ => left_induction next
      · exact (bit_ensures out 1 (by decide)).bind fun next _ => right_induction next

/-- The selector of a registry is lawful when its sorts are those of the registry. -/
theorem selector_lawful (complete : ∀ sort, sort ∈ registry.leaves) :
    registry.selector.Lawful fun sort => registry.code sort where
  written := writeCode_ok
  accepts := fun _ => writeCode_ensures
  selects := fun sort => dispatch_reads (complete sort)
  replays := fun left within input room => dispatch_ok (complete _) left within input room

end SortRegistry

/-- What the codecs and the selector of a sort profile fix at compile time. -/
structure SortProfileLayout (S : Type) where
  selector : Selector S
  Key : S → Type
  Value : S → Type
  key : ∀ sort, ProfileKey (Key sort)
  value : ∀ sort, ProfileValue (Value sort)

/-- Every codec is lawful, and values have the width which the policy fixes, if any. -/
structure SortProfileLayout.Lawful {S : Type} (layout : SortProfileLayout S) (P : StoragePolicy)
    (path : S → BitString) : Prop where
  /-- "sort profile framing uses bit addresses". -/
  unit : P.unit = .bit
  selector : layout.selector.Lawful path
  key : ∀ sort, (layout.key sort).Lawful
  value : ∀ sort, (layout.value sort).Lawful
  /-- "sort encoding promises a value width its codec does not supply". -/
  fixed : ∀ width ∈ P.valueWidth, ∀ sort bits, Reads (layout.value sort).skip bits () →
    bits.length = width

end Everett

import Everett.Sort.Stream

/-!
# Registry trees

A registry is a binary tree of sorts.  The code of a sort is the path to its tip, so no code is a
prefix of another, and dispatch reads exactly the code.
-/

namespace Everett

open Outcome

/-- Registries of bit streams: `sort_undefined`, `tip<S>` and `bin<L, R>`.  `unsorted<T>` is its own
tip, and the tip of `sort_undefined` has no sort. -/
inductive SortRegistry (S : Type)
  | undefined
  | tip (sort : Option S)
  | bin (left right : SortRegistry S)

namespace SortRegistry

variable {S : Type}

/-- `leaves`. -/
def leaves : SortRegistry S → List S
  | .undefined => []
  | .tip sort => sort.toList
  | .bin left right => left.leaves ++ right.leaves

/-- `dispatch`: follow bits to a sort. -/
def dispatch {σ : Type} (read : σ → Result (Bool × σ)) : SortRegistry S → σ → Result (S × σ)
  | .undefined, _ => .error "empty sort registry"
  | .tip none, _ => .error "undefined sort code"
  | .tip (some sort), reader => .ok (sort, reader)
  | .bin left right, reader => do
      let (bit, reader) ← read reader
      if bit then dispatch read right reader else dispatch read left reader

variable [DecidableEq S]

/-- `code`: the path to a sort. -/
def code (sort : S) : SortRegistry S → BitString
  | .bin left right =>
      if sort ∈ left.leaves then false :: left.code sort else true :: right.code sort
  | _ => []

/-- `write_sort_code`. -/
def writeCode (sort : S) : SortRegistry S → BitString → Result BitString
  | .bin left right, out =>
      if sort ∈ left.leaves then do
        let out ← SortBitWriter.writeBits out 0 1
        left.writeCode sort out
      else do
        let out ← SortBitWriter.writeBits out 1 1
        right.writeCode sort out
  | _, out => .ok out

/-- `sort_code`. -/
def sortCode (registry : SortRegistry S) (sort : S) : Result BitString := registry.writeCode sort []

variable {registry : SortRegistry S} {sort other : S}

theorem writeCode_ok {out result : BitString} (written : registry.writeCode sort out = .ok result) :
    result = out ++ registry.code sort := by
  induction registry generalizing out with
  | undefined =>
      cases written
      exact (List.append_nil _).symm
  | tip =>
      cases written
      exact (List.append_nil _).symm
  | bin left right left_induction right_induction =>
      rw [writeCode] at written
      rw [code]
      split_ifs at written ⊢
      · obtain ⟨next, bit, rest⟩ := bind_eq_ok.mp written
        rw [left_induction rest, (SortBitWriter.writeBits_ok bit).2.2, List.append_assoc]
        rfl
      · obtain ⟨next, bit, rest⟩ := bind_eq_ok.mp written
        rw [right_induction rest, (SortBitWriter.writeBits_ok bit).2.2, List.append_assoc]
        rfl

theorem writeCode_length {out result : BitString} (start : out.length ≤ maximum64 - 7)
    (written : registry.writeCode sort out = .ok result) : result.length ≤ maximum64 - 7 := by
  induction registry generalizing out with
  | undefined =>
      cases written
      exact start
  | tip =>
      cases written
      exact start
  | bin left right left_induction right_induction =>
      rw [writeCode] at written
      split_ifs at written
      · obtain ⟨next, bit, rest⟩ := bind_eq_ok.mp written
        obtain ⟨_, -, appended⟩ := bind_eq_ok.mp bit
        exact left_induction (ProfileDetail.append_ok appended).2 rest
      · obtain ⟨next, bit, rest⟩ := bind_eq_ok.mp written
        obtain ⟨_, -, appended⟩ := bind_eq_ok.mp bit
        exact right_induction (ProfileDetail.append_ok appended).2 rest

theorem sortCode_ok {path : BitString} (coded : registry.sortCode sort = .ok path) :
    path = registry.code sort ∧ path.length ≤ maximum64 - 7 :=
  ⟨writeCode_ok coded, writeCode_length (Nat.zero_le _) coded⟩

/-- No code is a prefix of another. -/
theorem code_prefix_free (unique : registry.leaves.Nodup) (member : sort ∈ registry.leaves)
    (other_member : other ∈ registry.leaves) (extends_code : registry.code sort <+: registry.code other) :
    sort = other := by
  induction registry with
  | undefined => cases member
  | tip leaf =>
      cases leaf with
      | none => cases member
      | some leaf =>
          rw [List.mem_singleton.mp member, List.mem_singleton.mp other_member]
  | bin left right left_induction right_induction =>
      obtain ⟨left_unique, right_unique, -⟩ := List.nodup_append.mp unique
      rw [code, code] at extends_code
      split_ifs at extends_code with here there there
      · exact left_induction left_unique here there (List.cons_prefix_cons.mp extends_code).2
      · cases (List.cons_prefix_cons.mp extends_code).1
      · cases (List.cons_prefix_cons.mp extends_code).1
      · exact right_induction right_unique ((List.mem_append.mp member).resolve_left here)
          ((List.mem_append.mp other_member).resolve_left there)
          (List.cons_prefix_cons.mp extends_code).2

end SortRegistry

/-- `prefix_reader`: replay retained bits of a path, then read new ones. -/
structure SortPrefixReader where
  input : SortBitReader
  retained : BitString
  /-- `at`: how many retained bits were replayed. -/
  replayed : Nat
  path : BitString

namespace SortPrefixReader

/-- `read_bits` of one bit. -/
def readBit (reader : SortPrefixReader) : Result (Bool × SortPrefixReader) :=
  match reader.retained[reader.replayed]? with
  | some bit => do
      let path ← SortBitWriter.writeBits reader.path bit.toNat 1
      .ok (bit, { reader with
        replayed := reader.replayed + 1
        path })
  | none => do
      let (bit, input) ← reader.input.readBits 1
      let path ← SortBitWriter.writeBits reader.path bit 1
      .ok (bit ≠ 0, { reader with
        input
        path })

/-- What is left of the retained bits, and the bits after them, are a path. -/
theorem readBit_ok {reader : SortPrefixReader} {bit : Bool} {tail fresh rest : BitString}
    {position : Nat} (left : reader.retained.drop reader.replayed ++ fresh = bit :: tail)
    (within : reader.replayed ≤ reader.retained.length)
    (input : reader.input = ⟨fresh ++ rest, position⟩)
    (room : reader.path.length + 1 ≤ maximum64 - 7) :
    ∃ next fresh' position', reader.readBit = .ok (bit, next) ∧
      next.retained = reader.retained ∧ next.retained.drop next.replayed ++ fresh' = tail ∧
      next.replayed ≤ next.retained.length ∧ next.input = ⟨fresh' ++ rest, position'⟩ ∧
      position' + fresh'.length = position + fresh.length ∧ next.path = reader.path ++ [bit] := by
  have writes : SortBitWriter.writeBits reader.path bit.toNat 1 = .ok (reader.path ++ [bit]) := by
    have field : BitField.toBits 1 bit.toNat = [bit] := by cases bit <;> rfl
    have small : ¬ maximum64 - 7 < reader.path.length + [bit].length := Nat.not_lt.mpr room
    have summed : reader.path.length + [bit].length ≤ maximum64 := room.trans (Nat.sub_le _ _)
    rw [SortBitWriter.writeBits, require_true ⟨by decide, Nat.lt_succ_of_le (Bool.toNat_le bit)⟩,
      ok_bind, field, ProfileDetail.append, ProfileDetail.add, if_pos summed, ok_bind, if_neg small]
  unfold readBit
  rcases within.lt_or_eq with some_left | none_left
  · rw [List.drop_eq_getElem_cons some_left, List.cons_append] at left
    obtain ⟨same, left⟩ := List.cons.inj left
    rw [List.getElem?_eq_getElem some_left, same]
    dsimp only
    rw [writes, ok_bind]
    refine ⟨_, fresh, position, rfl, ?_⟩
    exact ⟨rfl, left, some_left, input, rfl, rfl⟩
  · rw [none_left, List.drop_length, List.nil_append] at left
    subst left
    have field : BitField.toBits 1 bit.toNat = [bit] := by cases bit <;> rfl
    have value : bit.toNat % 2 ^ 1 = bit.toNat := Nat.mod_eq_of_lt (Nat.lt_succ_of_le bit.toNat_le)
    have reads := SortBitReader.readBits_reads (show 1 ≤ 64 by decide) bit.toNat (tail ++ rest)
      position
    rw [field, value] at reads
    rw [List.getElem?_eq_none none_left.ge, input]
    dsimp only
    rw [← List.singleton_append, List.append_assoc, reads, ok_bind]
    dsimp only
    rw [writes, ok_bind]
    have nonzero : decide (bit.toNat ≠ 0) = bit := by cases bit <;> rfl
    rw [nonzero]
    refine ⟨_, tail, position + 1, rfl, rfl, ?_, none_left.le, rfl, ?_, rfl⟩
    · rw [none_left, List.drop_length, List.nil_append]
    · rw [List.length_append, List.length_singleton, Nat.add_assoc]

end SortPrefixReader

/-- Dispatch follows the code of a sort through retained and fresh bits. -/
theorem SortRegistry.dispatch_ok {S : Type} [DecidableEq S] {registry : SortRegistry S} {sort : S}
    (member : sort ∈ registry.leaves) {reader : SortPrefixReader} {fresh rest : BitString}
    {position : Nat}
    (left : reader.retained.drop reader.replayed ++ fresh = registry.code sort)
    (within : reader.replayed ≤ reader.retained.length)
    (input : reader.input = ⟨fresh ++ rest, position⟩)
    (room : reader.path.length + (registry.code sort).length ≤ maximum64 - 7) :
    registry.dispatch SortPrefixReader.readBit reader = .ok (sort,
      ⟨⟨rest, position + fresh.length⟩, reader.retained, reader.retained.length,
        reader.path ++ registry.code sort⟩) := by
  induction registry generalizing reader fresh position with
  | undefined => cases member
  | tip leaf =>
      cases leaf with
      | none => cases member
      | some leaf =>
          obtain rfl := List.mem_singleton.mp member
          obtain ⟨all_replayed, none_fresh⟩ := List.append_eq_nil_iff.mp left
          have all := within.antisymm (List.drop_eq_nil_iff.mp all_replayed)
          obtain ⟨bits, retained, replayed, path⟩ := reader
          dsimp only at all input ⊢
          rw [dispatch, input, none_fresh, all]
          simp [code]
  | bin left_tree right_tree left_induction right_induction =>
      rw [code] at left room ⊢
      rw [dispatch]
      split_ifs at left room ⊢ with here
      · rw [List.length_cons] at room
        obtain ⟨next, fresh', position', read, retained, left', within', input', positions, path⟩ :=
          SortPrefixReader.readBit_ok left within input (by omega)
        rw [read, ok_bind]
        have rest_ok := left_induction here left' within' input' (by
          rw [path, List.length_append, List.length_singleton]
          omega)
        dsimp only
        rw [if_neg Bool.false_ne_true, rest_ok, retained, path, positions, List.append_assoc]
        rfl
      · rw [List.length_cons] at room
        obtain ⟨next, fresh', position', read, retained, left', within', input', positions, path⟩ :=
          SortPrefixReader.readBit_ok left within input (by omega)
        rw [read, ok_bind]
        have rest_ok := right_induction ((List.mem_append.mp member).resolve_left here) left' within'
          input' (by
            rw [path, List.length_append, List.length_singleton]
            omega)
        dsimp only
        rw [if_pos rfl, rest_ok, retained, path, positions, List.append_assoc]
        rfl

end Everett

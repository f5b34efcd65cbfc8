import Everett.Sort.Ordered
import Mathlib.Data.List.ReduceOption

/-!
# Typed keys

A typed key is the code of its sort in a registry tree followed by the ordered encoding of its key.
Dispatch reads the sort and then the key, from any bit position, and accepts nothing else.
-/

namespace Everett

open Outcome

/-- Registries of typed keys: `sort_undefined`, `tip<S>`, `bin<L, R>` and `sort_list<S...>`, whose
holes have no sort. -/
inductive KeyRegistry (S : Type)
  | undefined
  | tip (sort : Option S)
  | bin (left right : KeyRegistry S)
  | list (sorts : List (Option S))

namespace KeyRegistry

variable {S : Type}

/-- `leaves`. -/
def leaves : KeyRegistry S → List S
  | .undefined => []
  | .tip sort => sort.toList
  | .bin left right => left.leaves ++ right.leaves
  | .list sorts => sorts.reduceOption

/-- A byte sort list has at most 256 codes. -/
def Short : KeyRegistry S → Prop
  | .bin left right => left.Short ∧ right.Short
  | .list sorts => sorts.length ≤ 256
  | _ => True

/-- `discriminator`. -/
def discriminator (width : Nat) (reader : SortBitReader) : Result (Nat × SortBitReader) := do
  let (code, reader) ← reader.readBits width
  require (code < 2 ^ width) "sort discriminator exceeds its width"
  .ok (code, reader)

/-- `visit` of the sort at a code of a list. -/
def visitAt (sorts : List (Option S)) (code : Nat) : Result S :=
  match sorts[code]? with
  | some (some sort) => .ok sort
  | _ => .error "undefined sort code"

/-- `dispatch_sort`. -/
def dispatch : KeyRegistry S → SortBitReader → Result (S × SortBitReader)
  | .undefined, _ => .error "empty sort registry"
  | .tip none, _ => .error "undefined sort code"
  | .tip (some sort), reader => .ok (sort, reader)
  | .bin left right, reader => do
      let (code, reader) ← discriminator 1 reader
      if code ≠ 0 then right.dispatch reader else left.dispatch reader
  | .list sorts, reader => do
      let (code, reader) ← discriminator 8 reader
      let sort ← visitAt sorts code
      .ok (sort, reader)

variable [DecidableEq S]

/-- The index which the fold over a sort list leaves. -/
def listIndex (sort : S) (sorts : List (Option S)) : Nat :=
  (sorts.foldl (fun (index, i) here => (if here = some sort then i else index, i + 1)) (0, 0)).1

/-- `write_sort_code`. -/
def writeCode (sort : S) : KeyRegistry S → BitString → Result BitString
  | .bin left right, out =>
      if sort ∈ left.leaves then do
        let out ← SortBitWriter.writeBits out 0 1
        left.writeCode sort out
      else do
        let out ← SortBitWriter.writeBits out 1 1
        right.writeCode sort out
  | .list sorts, out => SortBitWriter.writeBits out (listIndex sort sorts) 8
  | _, out => .ok out

/-- The bits of the code of a sort. -/
def code (sort : S) : KeyRegistry S → BitString
  | .bin left right =>
      if sort ∈ left.leaves then false :: left.code sort else true :: right.code sort
  | .list sorts => BitField.toBits 8 (listIndex sort sorts)
  | _ => []

variable {registry : KeyRegistry S} {sort other : S}

theorem discriminator_reads {width : Nat} (narrow : width ≤ 64) (n : Nat) :
    Reads (discriminator width) (BitField.toBits width n) (n % 2 ^ width) := by
  intro rest position
  simp only [discriminator]
  rw [SortBitReader.readBits_reads narrow, ok_bind]
  dsimp only
  rw [require_true (Nat.mod_lt _ (Nat.two_pow_pos width)), ok_bind]

theorem discriminator_ok {width code : Nat} {reader rest : SortBitReader}
    (done : discriminator width reader = .ok (code, rest)) :
    reader.bits = BitField.toBits width code ++ rest.bits ∧ code < 2 ^ width := by
  obtain ⟨⟨value, next⟩, read, last⟩ := bind_eq_ok.mp done
  obtain ⟨_, _, last⟩ := bind_eq_ok.mp last
  cases last
  exact SortBitReader.readBits_ok read

/-! ## Codes of lists -/

theorem listIndex_counter (sort : S) (sorts : List (Option S)) :
    (sorts.foldl (fun ((index, i) : Nat × Nat) here =>
      (if here = some sort then i else index, i + 1)) (0, 0)).2 = sorts.length := by
  induction sorts using List.reverseRecOn with
  | nil => rfl
  | append_singleton sorts here induction =>
      rw [List.foldl_append, List.length_append, List.length_singleton, ← induction]
      rfl

theorem getElem_listIndex {sorts : List (Option S)} (member : some sort ∈ sorts) :
    sorts[listIndex sort sorts]? = some (some sort) := by
  induction sorts using List.reverseRecOn with
  | nil => cases member
  | append_singleton sorts here induction =>
      have step : listIndex sort (sorts ++ [here]) =
          if here = some sort then sorts.length else listIndex sort sorts := by
        rw [listIndex, List.foldl_append, listIndex, ← listIndex_counter sort sorts]
        rfl
      rw [step]
      split_ifs with found
      · rw [List.getElem?_append_right le_rfl, Nat.sub_self, found]
        rfl
      · have inside := induction ((List.mem_append.mp member).resolve_right fun last =>
          found (List.mem_singleton.mp last).symm)
        have less := (List.getElem?_eq_some_iff.mp inside).1
        rw [List.getElem?_append_left less, inside]

/-- A sort has one code in a list. -/
theorem listIndex_unique {sorts : List (Option S)} (unique : sorts.reduceOption.Nodup) {i j : Nat}
    (first : sorts[i]? = some (some sort)) (second : sorts[j]? = some (some sort)) : i = j := by
  induction sorts generalizing i j with
  | nil => cases first
  | cons here sorts induction =>
      have later : ∀ {k}, sorts[k]? = some (some sort) → sort ∈ sorts.reduceOption := fun found =>
        List.reduceOption_mem_iff.mpr (List.mem_of_getElem? found)
      have rest_unique : sorts.reduceOption.Nodup := by
        cases here with
        | none => exact unique
        | some here => exact (List.nodup_cons.mp unique).2
      have apart : here = some sort → sort ∉ sorts.reduceOption := by
        rintro rfl
        exact (List.nodup_cons.mp unique).1
      cases i with
      | zero =>
          cases j with
          | zero => rfl
          | succ j => exact absurd (later second) (apart (Option.some.inj first))
      | succ i =>
          cases j with
          | zero => exact absurd (later first) (apart (Option.some.inj second))
          | succ j => exact congrArg Nat.succ (induction rest_unique first second)

/-! ## Codes of trees -/

theorem writeCode_ok {out result : BitString} (written : registry.writeCode sort out = .ok result) :
    result = out ++ registry.code sort := by
  induction registry generalizing out with
  | undefined =>
      cases written
      exact (List.append_nil _).symm
  | tip =>
      cases written
      exact (List.append_nil _).symm
  | list sorts => exact (SortBitWriter.writeBits_ok written).2.2
  | bin left right left_induction right_induction =>
      rw [writeCode] at written
      rw [code]
      split_ifs at written ⊢
      · obtain ⟨next, bit, rest⟩ := bind_eq_ok.mp written
        rw [left_induction rest, (SortBitWriter.writeBits_ok bit).2.2, List.append_assoc]
        rfl
      · obtain ⟨next, bit, rest⟩ := bind_eq_ok.mp written
        rw [right_induction rest, (SortBitWriter.writeBits_ok bit).2.2, List.append_assoc]
        rfl

theorem listIndex_lt {sorts : List (Option S)} (short : sorts.length ≤ 256)
    (member : sort ∈ sorts.reduceOption) : listIndex sort sorts < 2 ^ 8 := by
  have found := getElem_listIndex (List.reduceOption_mem_iff.mp member)
  exact (List.getElem?_eq_some_iff.mp found).1.trans_le short

theorem writeCode_fits {out : BitString} (short : registry.Short) (member : sort ∈ registry.leaves)
    (room : out.length + (registry.code sort).length ≤ maximum64 - 7) :
    registry.writeCode sort out = .ok (out ++ registry.code sort) := by
  induction registry generalizing out with
  | undefined => cases member
  | tip => exact congrArg Except.ok (List.append_nil out).symm
  | list sorts =>
      rw [code, BitField.length_toBits] at room
      exact SortBitWriter.writeBits_fits (by decide) (listIndex_lt short member) room
  | bin left right left_induction right_induction =>
      rw [code] at room
      rw [writeCode, code]
      split_ifs at room ⊢ with here
      · rw [List.length_cons] at room
        rw [SortBitWriter.writeBits_fits (by decide) (by decide) (by omega), ok_bind,
          left_induction short.1 here, List.append_assoc]
        · rfl
        · rw [List.length_append, BitField.length_toBits]
          omega
      · rw [List.length_cons] at room
        rw [SortBitWriter.writeBits_fits (by decide) (by decide) (by omega), ok_bind,
          right_induction short.2 ((List.mem_append.mp member).resolve_left here),
          List.append_assoc]
        · rfl
        · rw [List.length_append, BitField.length_toBits]
          omega

/-- Dispatch reads exactly the code of a sort. -/
theorem dispatch_reads (short : registry.Short) (member : sort ∈ registry.leaves) :
    Reads registry.dispatch (registry.code sort) sort := by
  intro rest position
  induction registry generalizing position with
  | undefined => cases member
  | tip leaf =>
      cases leaf with
      | none => cases member
      | some leaf =>
          rw [List.mem_singleton.mp member]
          rfl
  | list sorts =>
      have found := getElem_listIndex (List.reduceOption_mem_iff.mp member)
      have small := Nat.mod_eq_of_lt (listIndex_lt short member)
      have read := discriminator_reads (show 8 ≤ 64 by decide) (listIndex sort sorts) rest position
      rw [small] at read
      simp only [dispatch, code]
      rw [read, ok_bind]
      dsimp only
      rw [visitAt, found]
      rfl
  | bin left right left_induction right_induction =>
      have read := @discriminator_reads 1 (by decide)
      rw [code, dispatch]
      split_ifs with here
      · have first : false :: left.code sort ++ rest =
            BitField.toBits 1 0 ++ (left.code sort ++ rest) := rfl
        rw [first, read, ok_bind]
        dsimp only
        rw [if_neg (by decide), left_induction short.1 here, BitField.length_toBits,
          List.length_cons, Nat.add_assoc, Nat.add_comm 1]
      · have first : true :: right.code sort ++ rest =
            BitField.toBits 1 1 ++ (right.code sort ++ rest) := rfl
        rw [first, read, ok_bind]
        dsimp only
        rw [if_pos (by decide), right_induction short.2 ((List.mem_append.mp member).resolve_left
          here), BitField.length_toBits, List.length_cons, Nat.add_assoc, Nat.add_comm 1]

/-- Dispatch accepts nothing but codes. -/
theorem dispatch_accepted (unique : registry.leaves.Nodup) {reader rest : SortBitReader}
    (done : registry.dispatch reader = .ok (sort, rest)) :
    sort ∈ registry.leaves ∧ reader.bits = registry.code sort ++ rest.bits := by
  induction registry generalizing reader with
  | undefined => cases done
  | tip leaf =>
      cases leaf with
      | none => cases done
      | some leaf =>
          cases done
          exact ⟨List.mem_singleton_self _, rfl⟩
  | list sorts =>
      obtain ⟨⟨index, next⟩, read, last⟩ := bind_eq_ok.mp done
      obtain ⟨bits, _⟩ := discriminator_ok read
      obtain ⟨found, visited, last⟩ := bind_eq_ok.mp last
      cases last
      have here : sorts[index]? = some (some sort) := by
        unfold visitAt at visited
        split at visited
        · cases visited
          assumption
        · cases visited
      have member : some sort ∈ sorts := List.mem_of_getElem? here
      refine ⟨List.reduceOption_mem_iff.mpr member, ?_⟩
      rw [bits, code, listIndex_unique unique (getElem_listIndex member) here]
  | bin left right left_induction right_induction =>
      obtain ⟨left_unique, right_unique, apart⟩ := List.nodup_append.mp unique
      obtain ⟨⟨branch, next⟩, read, last⟩ := bind_eq_ok.mp done
      obtain ⟨bits, small⟩ := discriminator_ok read
      dsimp only at last
      by_cases right_branch : branch ≠ 0
      · rw [if_pos right_branch] at last
        obtain ⟨member, tail⟩ := right_induction right_unique last
        have absent : sort ∉ left.leaves := fun there => apart sort there sort member rfl
        have one : branch = 1 := by omega
        rw [bits, tail, one, code, if_neg absent]
        exact ⟨List.mem_append_right _ member, rfl⟩
      · rw [if_neg right_branch] at last
        obtain ⟨member, tail⟩ := left_induction left_unique last
        rw [bits, tail, not_not.mp right_branch, code, if_pos member]
        exact ⟨List.mem_append_left _ member, rfl⟩

/-- Codes of two sorts are no prefixes of each other. -/
theorem code_apart (short : registry.Short) (member : sort ∈ registry.leaves)
    (other_member : other ∈ registry.leaves) (different : sort ≠ other) :
    ¬registry.code sort <+: registry.code other := by
  rintro ⟨rest, whole⟩
  have one := dispatch_reads short member rest 0
  have two := dispatch_reads short other_member [] 0
  rw [List.append_nil, ← whole, one] at two
  exact different (Prod.mk.inj (Except.ok.inj two)).1

end KeyRegistry

/-! ## Grammars of keys -/

/-- The ordered key codecs; a string may be the key of the built-in string sort. -/
inductive KeyGrammar
  | string (builtin : Bool)
  | bits
  | unsigned (width : Nat) (positive : 1 ≤ width) (narrow : width ≤ 64)

namespace KeyGrammar

/-- `key_t`. -/
def Key : KeyGrammar → Type
  | .string _ => List UInt8
  | .bits => PackedBits
  | .unsigned .. => UInt64

/-- `key_codec`. -/
def codec : (grammar : KeyGrammar) → OrderedCodec grammar.Key
  | .string _ => SortCodec.orderedString
  | .bits => SortCodec.orderedBits
  | .unsigned width _ _ => SortCodec.orderedUnsigned width

/-- Keys which have an encoding: integers within their width. -/
def Valid : (grammar : KeyGrammar) → grammar.Key → Prop
  | .string _, _ => True
  | .bits, _ => True
  | .unsigned width _ _, key => UInt64.toNat key < 2 ^ width

/-- The encoding of a key. -/
def code : (grammar : KeyGrammar) → grammar.Key → BitString
  | .string _, key => SortCodec.stringCode key
  | .bits, key => SortCodec.bitsCode key.1
  | .unsigned width _ _, key => BitField.toBits width (UInt64.toNat key)

theorem lawful (grammar : KeyGrammar) : grammar.codec.Lawful grammar.Valid grammar.code := by
  cases grammar with
  | string builtin => exact SortCodec.orderedString_lawful
  | bits => exact SortCodec.orderedBits_lawful
  | unsigned width positive narrow => exact SortCodec.orderedUnsigned_lawful narrow

/-- `byte_strings`: a byte profile frames the keys of the built-in string sort itself. -/
def byteStrings (unit : ProfileUnit) (grammar : KeyGrammar) : Bool :=
  match unit, grammar with
  | .byte, .string true => true
  | _, _ => false

/-- `byte_string` of the rest of a view at a bit offset. -/
def readFramed (offset : Nat) (reader : SortBitReader) : Result (List UInt8 × SortBitReader) := do
  let (taken, rest) ← reader.takeBits reader.bits.length
  require ((offset + reader.position) % 8 = 0 ∧ taken.length % 8 = 0) "unaligned byte string"
  .ok (SortString.ofBits taken, rest)

/-- `append` of `string_bits`. -/
def writeFramed (value : List UInt8) (out : BitString) : Result BitString := do
  let spelled ← SortString.stringBits value
  ProfileDetail.append out spelled

/-- `read_key`, in a view at a bit offset. -/
def readKey (unit : ProfileUnit) (offset : Nat) : (grammar : KeyGrammar) → SortBitReader →
    Result (grammar.Key × SortBitReader)
  | .string true, reader =>
      match unit with
      | .byte => readFramed offset reader
      | .bit => SortCodec.orderedString.read reader
  | grammar, reader => grammar.codec.read reader

/-- The key part of `key`. -/
def writeKey (unit : ProfileUnit) : (grammar : KeyGrammar) → grammar.Key → BitString →
    Result BitString
  | .string true, value, out =>
      match unit with
      | .byte => writeFramed value out
      | .bit => SortCodec.orderedString.write value out
  | grammar, value, out => grammar.codec.write value out

/-- The bits of the key part. -/
def payload (unit : ProfileUnit) : (grammar : KeyGrammar) → grammar.Key → BitString
  | .string true, value =>
      match unit with
      | .byte => SortString.bits value
      | .bit => SortCodec.stringCode value
  | grammar, value => grammar.code value

/-- The bits which spell a string again. -/
theorem bits_ofBits : ∀ {bits : BitString}, bits.length % 8 = 0 →
    SortString.bits (SortString.ofBits bits) = bits := by
  intro bits
  induction bits using SortString.ofBits.induct with
  | case1 a b c d e f g h rest induction =>
      intro whole
      have field := BitField.toBits_ofBits [a, b, c, d, e, f, g, h]
      have small := BitField.ofBits_lt [a, b, c, d, e, f, g, h]
      simp only [List.length_cons, List.length_nil, Nat.reduceAdd] at field small
      have byte : (UInt8.ofNat (BitField.ofBits [a, b, c, d, e, f, g, h])).toNat =
          BitField.ofBits [a, b, c, d, e, f, g, h] := UInt8.toNat_ofNat_of_lt' small
      have shorter : rest.length % 8 = 0 := by
        simp only [List.length_cons] at whole
        omega
      rw [SortString.ofBits, SortString.bits, List.flatMap_cons, byte, ← SortString.bits,
        induction shorter, field]
      rfl
  | case2 bits few =>
      intro whole
      rcases bits with
        _ | ⟨a, _ | ⟨b, _ | ⟨c, _ | ⟨d, _ | ⟨e, _ | ⟨f, _ | ⟨g, _ | ⟨h, rest⟩⟩⟩⟩⟩⟩⟩⟩
      · rfl
      iterate 7 · simp at whole
      · exact (few _ _ _ _ _ _ _ _ _ rfl).elim

theorem writeFramed_ok {value : List UInt8} {out result : BitString}
    (written : writeFramed value out = .ok result) : result = out ++ SortString.bits value := by
  obtain ⟨spelled, bytes, last⟩ := bind_eq_ok.mp written
  rw [(ProfileDetail.append_ok last).1, (SortString.stringBits_ok bytes).1]

theorem writeFramed_fits {value : List UInt8} {out : BitString}
    (room : out.length + (SortString.bits value).length ≤ maximum64 - 7) :
    writeFramed value out = .ok (out ++ SortString.bits value) := by
  have summed : out.length + (SortString.bits value).length ≤ maximum64 :=
    room.trans (Nat.sub_le _ _)
  have bytes : value.length * 8 ≤ maximum64 := by
    rw [SortString.length_bits] at summed
    omega
  rw [writeFramed, SortString.stringBits, ProfileDetail.multiply, if_pos bytes, ok_bind, ok_bind,
    ProfileDetail.append, ProfileDetail.add, if_pos summed, ok_bind, if_neg (Nat.not_lt.mpr room)]

theorem readFramed_ok {offset position : Nat} (aligned : (offset + position) % 8 = 0)
    (value : List UInt8) :
    readFramed offset ⟨SortString.bits value, position⟩ =
      .ok (value, ⟨[], position + (SortString.bits value).length⟩) := by
  have taken := SortBitReader.takeBits_reads (SortString.bits value) [] position
  have whole : (SortString.bits value).length % 8 = 0 := by
    rw [SortString.length_bits, Nat.mul_mod_right]
  rw [List.append_nil] at taken
  rw [readFramed, taken, ok_bind]
  dsimp only
  rw [require_true ⟨aligned, whole⟩, ok_bind, SortString.ofBits_bits]

theorem readFramed_accepted {offset : Nat} {reader rest : SortBitReader} {value : List UInt8}
    (done : readFramed offset reader = .ok (value, rest)) :
    reader.bits = SortString.bits value ++ rest.bits := by
  obtain ⟨⟨taken, next⟩, take, last⟩ := bind_eq_ok.mp done
  obtain ⟨_, whole, last⟩ := bind_eq_ok.mp last
  obtain ⟨_, _, take⟩ := bind_eq_ok.mp take
  have bytes := (require_eq_ok.mp whole).2
  cases take
  cases last
  rw [bits_ofBits bytes, List.take_append_drop]

variable {unit : ProfileUnit} {grammar : KeyGrammar}

theorem ordered_payload (framed : byteStrings unit grammar = false) (value : grammar.Key) :
    payload unit grammar value = grammar.code value := by
  cases grammar with
  | string builtin =>
      cases builtin <;> cases unit <;> first | rfl | cases framed
  | bits => rfl
  | unsigned => rfl

/-- What was written is the payload of a valid key. -/
theorem writeKey_ok {value : grammar.Key} {out result : BitString}
    (written : writeKey unit grammar value out = .ok result) :
    grammar.Valid value ∧ result = out ++ payload unit grammar value := by
  cases grammar with
  | string builtin =>
      cases builtin with
      | false => exact SortCodec.orderedString_lawful.written written
      | true =>
          cases unit with
          | bit => exact SortCodec.orderedString_lawful.written written
          | byte => exact ⟨trivial, writeFramed_ok written⟩
  | bits => exact SortCodec.orderedBits_lawful.written written
  | unsigned width positive narrow => exact (SortCodec.orderedUnsigned_lawful narrow).written written

/-- A valid key whose payload fits is written. -/
theorem writeKey_fits {value : grammar.Key} {out : BitString} (valid : grammar.Valid value)
    (room : out.length + (payload unit grammar value).length ≤ maximum64 - 7) :
    writeKey unit grammar value out = .ok (out ++ payload unit grammar value) := by
  cases grammar with
  | string builtin =>
      cases builtin with
      | false => exact SortCodec.orderedString_lawful.complete valid room
      | true =>
          cases unit with
          | bit => exact SortCodec.orderedString_lawful.complete valid room
          | byte => exact writeFramed_fits room
  | bits => exact SortCodec.orderedBits_lawful.complete valid room
  | unsigned width positive narrow =>
      exact (SortCodec.orderedUnsigned_lawful narrow).complete valid room

/-- A key is read back from its payload, to the end of a view for framed strings. -/
theorem readKey_ok {value : grammar.Key} (valid : grammar.Valid value) {offset position : Nat}
    (aligned : byteStrings unit grammar = true → (offset + position) % 8 = 0) :
    readKey unit offset grammar ⟨payload unit grammar value, position⟩ =
      .ok (value, ⟨[], position + (payload unit grammar value).length⟩) := by
  have ends : ∀ {K : Type} {read : SortBitReader → Result (K × SortBitReader)} {bits : BitString}
      {key : K}, Reads read bits key →
        read ⟨bits, position⟩ = .ok (key, ⟨[], position + bits.length⟩) := by
    intro K read bits key reads
    have whole := reads [] position
    rwa [List.append_nil] at whole
  cases grammar with
  | string builtin =>
      cases builtin with
      | false => exact ends (SortCodec.orderedString_lawful.reads valid)
      | true =>
          cases unit with
          | bit => exact ends (SortCodec.orderedString_lawful.reads valid)
          | byte => exact readFramed_ok (aligned rfl) value
  | bits => exact ends (SortCodec.orderedBits_lawful.reads valid)
  | unsigned width positive narrow =>
      exact ends ((SortCodec.orderedUnsigned_lawful narrow).reads valid)

/-- What was read is the payload of the key. -/
theorem readKey_accepted {value : grammar.Key} {offset : Nat} {reader rest : SortBitReader}
    (done : readKey unit offset grammar reader = .ok (value, rest)) :
    grammar.Valid value ∧ reader.bits = payload unit grammar value ++ rest.bits := by
  cases grammar with
  | string builtin =>
      cases builtin with
      | false => exact SortCodec.orderedString_lawful.accepted done
      | true =>
          cases unit with
          | bit => exact SortCodec.orderedString_lawful.accepted done
          | byte => exact ⟨trivial, readFramed_accepted done⟩
  | bits => exact SortCodec.orderedBits_lawful.accepted done
  | unsigned width positive narrow => exact (SortCodec.orderedUnsigned_lawful narrow).accepted done

end KeyGrammar

/-! ## Typed keys -/

/-- A registry of sorts with a key grammar for each, within its static assertions. -/
structure KeySchema (S : Type) [DecidableEq S] where
  registry : KeyRegistry S
  grammar : S → KeyGrammar
  /-- Each sort type has one registry code. -/
  unique : registry.leaves.Nodup
  /-- A byte sort list has at most 256 codes. -/
  short : registry.Short

namespace KeySchema

variable {S : Type} [DecidableEq S] (schema : KeySchema S) (P : StoragePolicy)

/-- `key`: the code of a sort, then the ordered encoding of a key. -/
def key (sort : S) (value : (schema.grammar sort).Key) : Result BitString := do
  let out ← schema.registry.writeCode sort []
  let out ← (schema.grammar sort).writeKey P.unit value out
  require (P.Aligned out) "sort key is not aligned for its profile policy"
  .ok out

/-- `dispatch_key` of a view at a bit offset, as the sort and the key it hands to the action. -/
def dispatchKey (offset : Nat) (encoded : BitString) :
    Result (Σ sort, (schema.grammar sort).Key) := do
  let (sort, reader) ← schema.registry.dispatch ⟨encoded, 0⟩
  let (decoded, reader) ← (schema.grammar sort).readKey P.unit offset reader
  require (reader.bits = []) "trailing typed key bits"
  .ok ⟨sort, decoded⟩

/-- The bits of a typed key. -/
def encoding (sort : S) (value : (schema.grammar sort).Key) : BitString :=
  schema.registry.code sort ++ (schema.grammar sort).payload P.unit value

variable {schema P} {sort other : S}

theorem key_ok {value : (schema.grammar sort).Key} {encoded : BitString}
    (written : schema.key P sort value = .ok encoded) :
    (schema.grammar sort).Valid value ∧ encoded = schema.encoding P sort value := by
  obtain ⟨path, coded, written⟩ := bind_eq_ok.mp written
  obtain ⟨whole, payload, written⟩ := bind_eq_ok.mp written
  obtain ⟨_, _, written⟩ := bind_eq_ok.mp written
  cases written
  obtain ⟨valid, spelled⟩ := KeyGrammar.writeKey_ok payload
  rw [spelled, KeyRegistry.writeCode_ok coded]
  exact ⟨valid, rfl⟩

/-- The encoding of a valid key is written when it has whole units and fits into a bit string. -/
theorem key_fits {value : (schema.grammar sort).Key} (member : sort ∈ schema.registry.leaves)
    (valid : (schema.grammar sort).Valid value)
    (fits : (schema.encoding P sort value).length ≤ maximum64 - 7)
    (aligned : P.Aligned (schema.encoding P sort value)) :
    schema.key P sort value = .ok (schema.encoding P sort value) := by
  rw [encoding, List.length_append] at fits
  rw [key, KeyRegistry.writeCode_fits schema.short member (by rw [List.length_nil]; omega),
    List.nil_append, ok_bind, KeyGrammar.writeKey_fits valid fits, ok_bind]
  rw [encoding] at aligned ⊢
  rw [require_true aligned, ok_bind]

theorem dispatchKey_ok {value : (schema.grammar sort).Key}
    (member : sort ∈ schema.registry.leaves) (valid : (schema.grammar sort).Valid value)
    {offset : Nat} (aligned : (schema.grammar sort).byteStrings P.unit = true →
      (offset + (schema.registry.code sort).length) % 8 = 0) :
    schema.dispatchKey P offset (schema.encoding P sort value) = .ok ⟨sort, value⟩ := by
  have path := KeyRegistry.dispatch_reads schema.short member
    ((schema.grammar sort).payload P.unit value) 0
  rw [dispatchKey, encoding, path, ok_bind]
  dsimp only
  rw [Nat.zero_add, KeyGrammar.readKey_ok valid aligned, ok_bind]
  rfl

theorem dispatchKey_accepted {value : (schema.grammar sort).Key} {offset : Nat}
    {encoded : BitString} (done : schema.dispatchKey P offset encoded = .ok ⟨sort, value⟩) :
    sort ∈ schema.registry.leaves ∧ (schema.grammar sort).Valid value ∧
      encoded = schema.encoding P sort value := by
  obtain ⟨⟨found, next⟩, path, done⟩ := bind_eq_ok.mp done
  obtain ⟨⟨decoded, rest⟩, read, done⟩ := bind_eq_ok.mp done
  obtain ⟨_, finished, done⟩ := bind_eq_ok.mp done
  have none_left : rest.bits = [] := require_eq_ok.mp finished
  cases done
  obtain ⟨member, bits⟩ := KeyRegistry.dispatch_accepted schema.unique path
  obtain ⟨valid, payload⟩ := KeyGrammar.readKey_accepted read
  dsimp only at bits
  rw [none_left, List.append_nil] at payload
  exact ⟨member, valid, by rw [bits, payload, encoding]⟩

theorem encoding_order {a b : (schema.grammar sort).Key}
    (ordered : (schema.grammar sort).byteStrings P.unit = false)
    (first : (schema.grammar sort).Valid a) (second : (schema.grammar sort).Valid b) :
    compareBits (schema.encoding P sort a) (schema.encoding P sort b) = .lt ↔
      (schema.grammar sort).codec.less a b = true := by
  have payloads := (schema.grammar sort).lawful.ordered first second
  rw [encoding, encoding, KeyGrammar.ordered_payload ordered, KeyGrammar.ordered_payload ordered,
    ← payloads]
  change Word.order _ _ = .lt ↔ Word.order _ _ = .lt
  rw [Word.order_append]

theorem encoding_prefix_free {a b : (schema.grammar sort).Key}
    (ordered : (schema.grammar sort).byteStrings P.unit = false)
    (first : (schema.grammar sort).Valid a) (second : (schema.grammar sort).Valid b)
    (extends_key : schema.encoding P sort a <+: schema.encoding P sort b) : a = b := by
  rw [encoding, encoding, KeyGrammar.ordered_payload ordered, KeyGrammar.ordered_payload ordered,
    List.prefix_append_right_inj] at extends_key
  exact (schema.grammar sort).lawful.prefix_free first second extends_key

/-- Keys of two sorts are compared by the codes of their sorts. -/
theorem encoding_apart (member : sort ∈ schema.registry.leaves)
    (other_member : other ∈ schema.registry.leaves) (different : sort ≠ other)
    (a : (schema.grammar sort).Key) (b : (schema.grammar other).Key) :
    ¬schema.encoding P sort a <+: schema.encoding P other b ∧
      compareBits (schema.encoding P sort a) (schema.encoding P other b) =
        compareBits (schema.registry.code sort) (schema.registry.code other) := by
  have first := KeyRegistry.code_apart schema.short member other_member different
  have second := KeyRegistry.code_apart schema.short other_member member (Ne.symm different)
  have beyond : ¬schema.registry.code sort <+: schema.encoding P other b := by
    intro extends_code
    rcases List.prefix_or_prefix_of_prefix extends_code (List.prefix_append _ _) with left | right
    · exact first left
    · exact second right
  refine ⟨fun extends_key => beyond ((List.prefix_append _ _).trans extends_key), ?_⟩
  have left := (Word.append_of_not_prefix beyond
    ((schema.grammar sort).payload P.unit a)).2
  have right := (Word.append_of_not_prefix second
    ((schema.grammar other).payload P.unit b)).2
  change Word.order _ _ = Word.order _ _
  rw [encoding, left, Word.order_swap, encoding, right, ← Word.order_swap]

end KeySchema

/-- What the ordered encodings of typed keys promise. -/
structure FaithfulKeys {S : Type} [DecidableEq S] (schema : KeySchema S) (P : StoragePolicy) :
    Prop where
  /-- Keys of one sort compare bit by bit as `less` orders them. -/
  ordered : ∀ sort, (schema.grammar sort).byteStrings P.unit = false → ∀ a b first second,
    schema.key P sort a = .ok first → schema.key P sort b = .ok second →
      (compareBits first second = .lt ↔ (schema.grammar sort).codec.less a b = true)
  /-- No encoding is a prefix of the encoding of a different key. -/
  prefix_free : ∀ sort, (schema.grammar sort).byteStrings P.unit = false → ∀ a b first second,
    schema.key P sort a = .ok first → schema.key P sort b = .ok second → first <+: second → a = b
  /-- Keys of different sorts are separated by the codes of their sorts. -/
  separated : ∀ sort ∈ schema.registry.leaves, ∀ other ∈ schema.registry.leaves, sort ≠ other →
    ∀ a b first second, schema.key P sort a = .ok first → schema.key P other b = .ok second →
      schema.registry.code sort <+: first ∧ schema.registry.code other <+: second ∧
      ¬schema.registry.code sort <+: schema.registry.code other ∧ ¬first <+: second ∧
      compareBits first second =
        compareBits (schema.registry.code sort) (schema.registry.code other)
  /-- `read_ordered` takes exactly the bits of a key which was written, wherever they stand. -/
  read_back : ∀ sort value out result, (schema.grammar sort).codec.write value out = .ok result →
    Appends out (schema.grammar sort).codec.read value result
  /-- A written key is dispatched to its sort from any bit offset; a framed string needs a byte
  address. -/
  dispatched : ∀ sort ∈ schema.registry.leaves, ∀ value encoded,
    schema.key P sort value = .ok encoded → ∀ offset,
      ((schema.grammar sort).byteStrings P.unit = true →
        (offset + (schema.registry.code sort).length) % 8 = 0) →
      schema.dispatchKey P offset encoded = .ok ⟨sort, value⟩
  /-- Whatever dispatch accepts is the encoding of the sort and the key it returns, and is written
  for them when it has whole units and fits into a bit string. -/
  accepted : ∀ offset encoded sort value, schema.dispatchKey P offset encoded = .ok ⟨sort, value⟩ →
    sort ∈ schema.registry.leaves ∧ encoded = schema.encoding P sort value ∧
      (encoded.length ≤ maximum64 - 7 → P.Aligned encoded →
        schema.key P sort value = .ok encoded)

/-- Ordered key encodings are faithful, in every registry and for every policy. -/
theorem ordered_keys_faithful {S : Type} [DecidableEq S] (schema : KeySchema S)
    (P : StoragePolicy) : FaithfulKeys schema P where
  ordered := by
    intro sort ordered a b first second one two
    obtain ⟨valid_a, rfl⟩ := KeySchema.key_ok one
    obtain ⟨valid_b, rfl⟩ := KeySchema.key_ok two
    exact KeySchema.encoding_order ordered valid_a valid_b
  prefix_free := by
    intro sort ordered a b first second one two
    obtain ⟨valid_a, rfl⟩ := KeySchema.key_ok one
    obtain ⟨valid_b, rfl⟩ := KeySchema.key_ok two
    exact KeySchema.encoding_prefix_free ordered valid_a valid_b
  separated := by
    intro sort member other other_member different a b first second one two
    obtain ⟨_, rfl⟩ := KeySchema.key_ok one
    obtain ⟨_, rfl⟩ := KeySchema.key_ok two
    have codes := KeyRegistry.code_apart schema.short member other_member different
    obtain ⟨apart, compared⟩ := KeySchema.encoding_apart member other_member different a b
    exact ⟨List.prefix_append _ _, List.prefix_append _ _, codes, apart, compared⟩
  read_back := by
    intro sort value out result written
    obtain ⟨valid, appended⟩ := (schema.grammar sort).lawful.written written
    exact ⟨_, appended, (schema.grammar sort).lawful.reads valid⟩
  dispatched := by
    intro sort member value encoded written offset aligned
    obtain ⟨valid, rfl⟩ := KeySchema.key_ok written
    exact KeySchema.dispatchKey_ok member valid aligned
  accepted := by
    intro offset encoded sort value done
    obtain ⟨member, valid, rfl⟩ := KeySchema.dispatchKey_accepted done
    exact ⟨member, rfl, fun fits aligned => KeySchema.key_fits member valid fits aligned⟩

end Everett

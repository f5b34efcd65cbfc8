import Everett.SortProfile.Frames

/-!
# Views of encoded arrays

A view of an array which stands for some entries finds the frame of each of them: from the start of
its block, and after the frame of the one before it.
-/

namespace Everett

open Word Outcome SortEntry

variable {S : Type} [DecidableEq S] {P : StoragePolicy} {layout : SortProfileLayout S}
  {path : S → BitString}

/-- An array stands for some entries, with a dictionary of some sorts. -/
structure SortProfileArray.Encodes (P : StoragePolicy) (layout : SortProfileLayout S)
    (path : S → BitString) (array : SortProfileArray) (ids : List S)
    (entries : List (SortEntry S)) : Prop where
  data : array.data = allBits P layout path entries
  valid : ValidFrom layout path none entries
  distinct : ids.Nodup
  listed : ∀ entry ∈ entries, entry.sort ∈ ids
  dictionary : array.dictionary = (ids.map path).flatten
  dictionaryOffsets : array.dictionaryOffsets = Delimited.offsets (ids.map path)
  seeds : ∀ block entry, entries[block * P.codecBlockSize]? = some entry →
    (if array.seedWidth = 0 then 0
      else BitField.ofBits ((array.seeds.drop (block * array.seedWidth)).take array.seedWidth)) =
      ids.idxOf entry.sort
  offsets : ∀ deposits block, block ≤ array.blockCount P → array.blockOffset P deposits block =
    .ok (allBits P layout path (entries.take (block * P.codecBlockSize))).length
  size : array.size = entries.length
  terminal : array.metadata.terminalKeyUnits =
    ((entries.getLast?.map (logical path)).getD []).length
  common : ∀ width ∈ array.metadata.commonValueWidth, ∀ entry ∈ entries, entry.value.length = width

namespace SortEntry

variable {entry : SortEntry S}

/-- What a frame retains as a view reads it is shared with the preceding key. -/
theorem Valid.viewRetained_le {previous : Option (SortEntry S)}
    (valid : entry.Valid layout path previous) (restart : Bool) :
    entry.viewRetained path restart previous ≤
      lcp ((previous.map (logical path)).getD []) (entry.logical path) := by
  have shared : entry.follows previous = true →
      entry.retained ≤ lcp ((previous.map (logical path)).getD []) (entry.logical path) := by
    intro follows
    cases previous with
    | none => cases follows
    | some before => exact valid.shares before rfl (of_decide_eq_true follows)
  rw [viewRetained]
  split
  · rename_i inherited
    apply shared
    cases restart with
    | false => exact inherited
    | true =>
        by_contra apart
        have same := valid.apart (Bool.eq_false_iff.mpr apart)
        simp [inherits, same] at inherited
  · cases restart with
    | true => exact Nat.zero_le _
    | false =>
        cases previous with
        | none => exact Nat.zero_le _
        | some before =>
            rw [if_neg Bool.false_ne_true]
            refine le_lcp_iff.mpr ⟨?_, ?_, ?_⟩
            · exact (lcp_le_left _ _).trans (by simp [logical])
            · exact (lcp_le_right _ _).trans (by simp [logical])
            · have left := lcp_le_left (path before.sort) (path entry.sort)
              have right := lcp_le_right (path before.sort) (path entry.sort)
              simp only [Option.map_some, Option.getD_some, joint, logical]
              rw [List.take_append_of_le_length left, List.take_append_of_le_length right]
              exact take_lcp _ _

end SortEntry

namespace SortProfileArray

variable {array : SortProfileArray} {ids : List S} {entries front back : List (SortEntry S)}
  {entry : SortEntry S}

/-- Where a part of the data stands, and what it is followed by. -/
structure At (array : SortProfileArray) (position : Nat) (bits rest : BitString) : Prop where
  within : position ≤ array.data.length
  here : array.data.drop position = bits ++ rest

theorem at_of_data {before bits rest : BitString} (data : array.data = before ++ (bits ++ rest)) :
    array.At before.length bits rest := by
  refine ⟨?_, ?_⟩
  · rw [data, List.length_append]
    exact Nat.le_add_right _ _
  · rw [data, List.drop_left]

theorem At.skip {position : Nat} {bits more rest : BitString}
    (stands : array.At position (bits ++ more) rest) : array.At (position + bits.length) more rest := by
  have length : array.data.length - position = (bits ++ more ++ rest).length := by
    rw [← stands.here, List.length_drop]
  refine ⟨?_, ?_⟩
  · have within := stands.within
    rw [List.append_assoc, List.length_append] at length
    omega
  · rw [← List.drop_drop, stands.here, List.append_assoc, List.drop_left]

theorem At.reader {position : Nat} {bits rest : BitString} (stands : array.At position bits rest) :
    array.readerAt position = .ok ⟨bits ++ rest, 0⟩ := by
  rw [readerAt, require_true stands.within, ok_bind, stands.here]

/-- The payload of a frame is read behind its control. -/
theorem payload_ok {previous : Option (SortEntry S)} (valid : entry.Valid layout path previous)
    (common : ∀ width ∈ array.metadata.commonValueWidth, entry.value.length = width)
    {position : Nat} {rest : BitString}
    (stands : array.At position (entry.header ++ entry.literal path ++ entry.value) rest)
    (retained : Nat) {frame : SortProfileFrame S} (leaf : frame.leaf = entry.sort)
    (frame_path : frame.path = path entry.sort) (same restart : Bool)
    (inner : (if same then retained else entry.pathBits path) = entry.retained) :
    array.payload layout position retained frame same restart = .ok { frame with
      retained := if same && (entry.retained ≠ entry.pathBits path || !restart) then retained
        else if same then 0 else retained
      literal := [if same && (entry.retained ≠ entry.pathBits path || !restart) then []
        else (path entry.sort).drop
          (if same && (entry.retained ≠ entry.pathBits path || !restart) then retained
            else if same then 0 else retained), entry.literal path]
      keyUnits := (entry.logical path).length
      value := entry.value
      nextOffset := position + (entry.header ++ entry.literal path ++ entry.value).length } := by
  obtain ⟨ordinal, _, _, _, _, _, framePath, pathOffset, frameLeaf, frontCoded, limit⟩ := frame
  dsimp only at leaf frame_path
  subst leaf frame_path
  have inner' : (if same = true then retained else (path entry.sort).length) = entry.retained :=
    inner
  have floor := valid.floor
  rw [pathBits] at floor
  have literal_length : (entry.literal path).length =
      (path entry.sort).length + entry.key.length - entry.retained := by
    rw [literal, List.length_drop, length_logical, pathBits]
  have within := valid.within
  have bounded := valid.bounded
  rw [length_logical, pathBits] at within bounded
  have key_bits : entry.retained - (path entry.sort).length + (entry.literal path).length =
      entry.key.length := by
    rw [literal_length]
    omega
  have key_fits : entry.retained - (path entry.sort).length + (entry.literal path).length ≤
      maximum64 := by omega
  have total_fits : (path entry.sort).length + (entry.retained - (path entry.sort).length +
      (entry.literal path).length) ≤ maximum64 := by omega
  have read := valid.frame (entry.value ++ rest) 0
  have skipped := valid.value rest (0 + (entry.header ++ entry.literal path).length)
  have here := stands.here
  rw [pathBits] at read
  have value_here : ((array.data.drop (position + (0 + (entry.header ++ entry.literal path).length))).take
      (0 + (entry.header ++ entry.literal path).length + entry.value.length -
        (0 + (entry.header ++ entry.literal path).length))) = entry.value := by
    rw [Nat.zero_add, (At.skip stands).here, Nat.add_sub_cancel_left, List.take_left]
  have nonzero : (entry.retained - (path entry.sort).length ≠ 0) =
      (entry.retained ≠ (path entry.sort).length) := by
    apply propext
    omega
  unfold payload
  simp only [inner']
  rw [stands.reader, ok_bind, require_true floor, ok_bind, List.append_assoc, read, ok_bind]
  dsimp only
  rw [skipped, ok_bind]
  dsimp only
  rw [ProfileDetail.add, if_pos key_fits, ok_bind, ProfileDetail.add, if_pos total_fits, ok_bind,
    value_here, require_true common, ok_bind, key_bits, length_logical, pathBits]
  simp only [nonzero, Nat.zero_add, List.length_append, Nat.add_assoc]

namespace Encodes

variable (encodes : array.Encodes P layout path ids entries)
  (lawful : layout.Lawful P path)
include encodes

theorem stands (split : entries = front ++ entry :: back) :
    array.At (allBits P layout path front).length
      (entry.control P layout path (restarts P front.length) front.getLast? ++
        (entry.header ++ entry.literal path ++ entry.value))
      (bitsFrom P layout path (front.length + 1) (some entry) back) := by
  apply at_of_data
  rw [encodes.data, split, allBits_append_cons]
  rfl

theorem valid_entry (split : entries = front ++ entry :: back) :
    entry.Valid layout path front.getLast? := by
  have valid := encodes.valid
  rw [split] at valid
  simpa using valid.split

theorem common_entry (split : entries = front ++ entry :: back) :
    ∀ width ∈ array.metadata.commonValueWidth, entry.value.length = width :=
  fun width fixed => encodes.common width fixed entry (by simp [split])

theorem dictionarySize_eq : array.dictionarySize = ids.length := by
  rw [dictionarySize, encodes.dictionaryOffsets, Delimited.length_offsets, List.length_map,
    Nat.add_sub_cancel]

/-- The path of a sort is found at its place in the dictionary. -/
theorem dictionaryEntry_ok {id : Nat} {sort : S} (found : ids[id]? = some sort) :
    array.dictionaryEntry id =
      .ok (path sort, ((ids.map path).take id).flatten.length) := by
  obtain ⟨within, -⟩ := List.getElem?_eq_some_iff.mp found
  have word : (ids.map path)[id]? = some (path sort) := by rw [List.getElem?_map, found]; rfl
  have first := @Delimited.getElem?_offsets _ (ids.map path) id (by simp; omega)
  have last := @Delimited.getElem?_offsets _ (ids.map path) (id + 1) (by simp; omega)
  have step := Delimited.length_take_succ word
  have bounded := @Delimited.length_take_le _ (ids.map path) (id + 1)
  unfold dictionaryEntry
  rw [encodes.dictionaryOffsets, encodes.dictionary, first, demand_some, ok_bind, last, demand_some,
    ok_bind, require_true ⟨by omega, bounded⟩, ok_bind, step, Nat.add_sub_cancel_left,
    Delimited.between word]

theorem pathEntry_ok {sort : S} (listed : sort ∈ ids) :
    array.dictionaryEntry (ids.idxOf sort) = .ok (path sort, pathOffset path ids sort) :=
  encodes.dictionaryEntry_ok (List.getElem?_idxOf listed)

include lawful

/-- The dictionary has one entry for a path. -/
theorem findPath_ok {sort : S} (listed : sort ∈ ids) {count id : Nat}
    (before : id ≤ ids.idxOf sort) (whole : id + count = ids.length) :
    array.findPath (path sort) count id = .ok (path sort, pathOffset path ids sort) := by
  have there := List.idxOf_lt_length_of_mem listed
  induction count generalizing id with
  | zero => omega
  | succ count induction =>
      have within : id < ids.length := by omega
      rw [findPath, encodes.dictionaryEntry_ok (List.getElem?_eq_getElem within), ok_bind]
      dsimp only
      by_cases here : id = ids.idxOf sort
      · have same : ids[id] = sort := by
          subst here
          exact List.getElem_idxOf there
        have equal : compareBits (path sort) (path sort) = .eq := order_self _
        rw [same, if_pos equal, here]
        rfl
      · have differs : compareBits (path ids[id]) (path sort) ≠ .eq := by
          intro equal
          have same := lawful.selector.injective (order_eq_eq.mp equal)
          have first := encodes.distinct.idxOf_getElem id within
          rw [same] at first
          exact here first.symm
        rw [if_neg differs]
        exact induction (by omega) (by omega)

/-- What a view knows of a sort from its path. -/
theorem selectSeed_ok {sort : S} (listed : sort ∈ ids) {previous : Option (SortProfileFrame S)}
    (known : ∀ frame ∈ previous, ∃ other ∈ ids, frame.leaf = other ∧ frame.path = path other ∧
      frame.pathOffset = pathOffset path ids other ∧
      frame.frontCoded = (layout.key other).frontCoded) :
    selectSeed layout (path sort) (pathOffset path ids sort) previous =
      .ok (sort, (layout.key sort).frontCoded) := by
  have reads := lawful.selector.selects sort [] 0
  rw [List.append_nil] at reads
  unfold selectSeed
  cases previous with
  | none =>
      dsimp only
      rw [reads, ok_bind]
      rfl
  | some frame =>
      obtain ⟨other, other_listed, leaf, frame_path, offset, frontCoded⟩ := known frame rfl
      dsimp only
      split
      · rename_i same
        -- Both paths are the same part of the dictionary.
        have one := encodes.pathEntry_ok listed
        have two := encodes.pathEntry_ok other_listed
        have word : ∀ {wanted : S}, wanted ∈ ids → path wanted =
            (array.dictionary.drop (pathOffset path ids wanted)).take (path wanted).length := by
          intro wanted wanted_listed
          have found : (ids.map path)[ids.idxOf wanted]? = some (path wanted) := by
            rw [List.getElem?_map, List.getElem?_idxOf wanted_listed]
            rfl
          rw [encodes.dictionary]
          exact (Delimited.between found).symm
        have equal : path other = path sort := by
          rw [word other_listed, word listed, ← same.1, offset, ← same.2, frame_path]
        have same_sort := lawful.selector.injective equal
        rw [leaf, frontCoded, same_sort]
      · rw [reads, ok_bind]
        rfl

/-- A block starts with the frame of its first entry. -/
theorem startBlock_ok (deposits : Bool) (split : entries = front ++ entry :: back) {block : Nat}
    (start : front.length = block * P.codecBlockSize) {previous : Option (SortProfileFrame S)}
    (known : ∀ frame ∈ previous, ∃ other ∈ ids, frame.leaf = other ∧ frame.path = path other ∧
      frame.pathOffset = pathOffset path ids other ∧
      frame.frontCoded = (layout.key other).frontCoded) :
    array.startBlock P layout deposits block previous = .ok (frameOf P layout path ids front entry) := by
  have listed : entry.sort ∈ ids := encodes.listed entry (by simp [split])
  have valid := encodes.valid_entry split
  have first : entries[block * P.codecBlockSize]? = some entry := by
    rw [← start, split]
    simp
  have seed := encodes.seeds block entry first
  have id_small : ids.idxOf entry.sort < array.dictionarySize := by
    rw [encodes.dictionarySize_eq]
    exact List.idxOf_lt_length_of_mem listed
  have some_block : block ≤ array.blockCount P := by
    have inside : block * P.codecBlockSize ≤ array.size := by
      rw [← start, encodes.size, split, List.length_append]
      exact Nat.le_add_right _ _
    have quotient := (Nat.le_div_iff_mul_le P.codecBlockSize_pos).mpr inside
    rw [blockCount]
    exact quotient.trans (Nat.le_add_right _ _)
  have before : entries.take (block * P.codecBlockSize) = front := by
    rw [← start, split, List.take_left]
  have stands := encodes.stands split
  have restart : restarts P front.length = true := by
    rw [restarts, start, Nat.mul_mod_left]
    rfl
  have control : entry.control P layout path (restarts P front.length) front.getLast? =
      CountCode.exponential.bits entry.retained := by
    rw [SortEntry.control, restart]
    rfl
  have bounded : entry.retained ≤ maximum64 :=
    (valid.within.trans valid.bounded).trans (Nat.sub_le _ _)
  have ends := @length_allBits_append_singleton _ _ P layout path front entry
  rw [control] at stands ends
  have counted := SortBitReader.readCount_reads .exponential bounded
    (entry.header ++ entry.literal path ++ entry.value ++
      bitsFrom P layout path (front.length + 1) (some entry) back) 0
  have parsed := @payload_ok _ _ layout path array entry _ valid (encodes.common_entry split) _ _
    stands.skip entry.retained (.of (block * P.codecBlockSize) entry.sort
      (layout.key entry.sort).frontCoded (path entry.sort) (pathOffset path ids entry.sort)) rfl rfl
    true true (if_pos rfl)
  unfold startBlock
  simp only [seed]
  rw [require_true id_small, ok_bind, encodes.pathEntry_ok listed, ok_bind]
  dsimp only
  rw [encodes.selectSeed_ok lawful listed known, ok_bind]
  dsimp only
  rw [encodes.offsets deposits block some_block, ok_bind, before, stands.reader, ok_bind,
    List.append_assoc, counted, ok_bind]
  dsimp only
  rw [Nat.zero_add, parsed, ← ends]
  rw [start] at restart
  simp [frameOf, SortProfileFrame.of, viewRetained, inherits, restart, start]

omit encodes in
/-- Different sorts part before the end of the first path. -/
theorem joint_lt {before : SortEntry S} (apart : before.sort ≠ entry.sort) :
    lcp (path before.sort) (path entry.sort) < (path before.sort).length := by
  by_contra whole
  have shared := take_eq_of_le_lcp (Nat.not_lt.mp whole)
  rw [List.take_length] at shared
  exact apart (lawful.selector.prefix_free (shared ▸ List.take_prefix _ _))

omit encodes lawful in
/-- What the following frame may inherit. -/
theorem continuation_frameOf (front : List (SortEntry S)) (before : SortEntry S) :
    (frameOf P layout path ids front before).continuation =
      SortEntry.continuation layout path before := by
  rw [SortProfileFrame.continuation, SortEntry.continuation]
  simp only [frameOf, length_logical, pathBits]
  split <;> rfl

omit encodes lawful in
/-- An entry of the same sort backs up to what it retains. -/
theorem retained_le_continuation {before : SortEntry S} {previous : Option (SortEntry S)}
    (valid : entry.Valid layout path previous) (is_before : previous = some before)
    (same : before.sort = entry.sort) :
    entry.retained ≤ SortEntry.continuation layout path before := by
  have shares := valid.shares before is_before same
  have within := shares.trans (lcp_le_left _ _)
  rw [length_logical] at within
  rw [SortEntry.continuation]
  split
  · exact within
  · rename_i raw
    rw [valid.whole (same ▸ Bool.eq_false_iff.mpr raw), pathBits, pathBits, same, Nat.add_zero]

/-- A new path is read as far as the preceding one does not supply it. -/
theorem transition_ok {before : S} {previous : Option (SortEntry S)} (listed : entry.sort ∈ ids)
    (valid : entry.Valid layout path previous) {frame : SortProfileFrame S}
    (frame_path : frame.path = path before) {ordinal : Nat} (ordinal_eq : frame.ordinal = ordinal)
    {joint : Nat} (is_joint : joint = lcp (path before) (path entry.sort))
    {position : Nat} {more rest : BitString}
    (stands : array.At position ((path entry.sort).drop joint ++ more) rest) :
    array.transition layout position joint frame =
      .ok (position + ((path entry.sort).drop joint).length,
        .of (ordinal + 1) entry.sort (layout.key entry.sort).frontCoded (path entry.sort)
          (pathOffset path ids entry.sort)) := by
  have retained_length : ((path before).take joint).length = joint :=
    List.length_take_of_le (is_joint ▸ lcp_le_left _ _)
  have spelt : ((path before).take joint).drop 0 ++ (path entry.sort).drop joint =
      path entry.sort := by
    rw [List.drop_zero, is_joint, take_lcp, List.take_append_drop]
  have bounded := valid.bounded
  rw [length_logical, pathBits] at bounded
  have room : ([] : BitString).length + (path entry.sort).length ≤ maximum64 - 7 := by
    rw [List.length_nil]
    omega
  have walked := @Selector.Lawful.replays _ _ _ lawful.selector entry.sort
    ⟨⟨(path entry.sort).drop joint ++ (more ++ rest), 0⟩, (path before).take joint, 0, []⟩ _ _ _
    spelt (Nat.zero_le _) rfl room
  have found := encodes.findPath_ok lawful listed (Nat.zero_le _) (Nat.zero_add ids.length)
  unfold transition
  rw [stands.reader, ok_bind, frame_path, List.append_assoc, walked, ok_bind]
  dsimp only
  rw [require_true retained_length, ok_bind, List.nil_append, encodes.dictionarySize_eq, found,
    ok_bind]
  dsimp only
  rw [Nat.zero_add, ordinal_eq]

/-- A frame is followed by that of the next entry. -/
theorem next_ok (deposits : Bool) {before : SortEntry S}
    (split : entries = front ++ before :: entry :: back) :
    array.next P layout deposits (frameOf P layout path ids front before) =
      .ok (frameOf P layout path ids (front ++ [before]) entry) := by
  have split' : entries = (front ++ [before]) ++ entry :: back := by simp [split]
  have listed : entry.sort ∈ ids := encodes.listed entry (by simp [split])
  have before_listed : before.sort ∈ ids := encodes.listed before (by simp [split])
  have valid := encodes.valid_entry split'
  have before_valid := encodes.valid_entry split
  have length : (front ++ [before]).length = front.length + 1 := by simp
  have last : (front ++ [before]).getLast? = some before := by simp
  have more : front.length + 1 < array.size := by
    rw [encodes.size, split]
    simp
  have stands := encodes.stands split'
  have ends := @length_allBits_append_singleton _ _ P layout path (front ++ [before]) entry
  rw [length, last] at stands ends
  rw [last] at valid
  obtain ⟨frame, frame_eq⟩ : ∃ frame, frame = frameOf P layout path ids front before := ⟨_, rfl⟩
  have ordinal_eq : frame.ordinal = front.length := by rw [frame_eq]; rfl
  have offset_eq : frame.nextOffset = (allBits P layout path (front ++ [before])).length := by
    rw [frame_eq]
    rfl
  have path_eq : frame.path = path before.sort := by rw [frame_eq]; rfl
  have leaf_eq : frame.leaf = before.sort := by rw [frame_eq]; rfl
  have place_eq : frame.pathOffset = pathOffset path ids before.sort := by rw [frame_eq]; rfl
  have coded_eq : frame.frontCoded = (layout.key before.sort).frontCoded := by rw [frame_eq]; rfl
  have continuation_eq : frame.continuation = SortEntry.continuation layout path before := by
    rw [frame_eq]
    exact continuation_frameOf front before
  rw [← frame_eq]
  unfold next
  dsimp only
  rw [ordinal_eq, require_true more, ok_bind]
  by_cases restart : (front.length + 1) % P.codecBlockSize = 0
  · have block : (front ++ [before]).length =
        (front.length + 1) / P.codecBlockSize * P.codecBlockSize := by
      rw [length, Nat.div_mul_cancel (Nat.dvd_of_mod_eq_zero restart)]
    have some_block : (front.length + 1) / P.codecBlockSize ≤ array.blockCount P := by
      rw [blockCount]
      exact (Nat.div_le_div_right more.le).trans (Nat.le_add_right _ _)
    have here : entries.take ((front.length + 1) / P.codecBlockSize * P.codecBlockSize) =
        front ++ [before] := by
      rw [← block, split', List.take_left]
    rw [if_pos restart, encodes.offsets deposits _ some_block, ok_bind, here, offset_eq,
      require_true rfl, ok_bind]
    refine encodes.startBlock_ok lawful deposits split' block fun known is_known => ?_
    cases is_known
    exact ⟨before.sort, before_listed, leaf_eq, path_eq, place_eq, coded_eq⟩
  · have fresh : restarts P (front.length + 1) = false := decide_eq_false restart
    have fits : SortEntry.continuation layout path before ≤ maximum64 := by
      have bounded := before_valid.bounded
      rw [length_logical] at bounded
      rw [SortEntry.continuation]
      split <;> omega
    rw [if_neg restart, offset_eq]
    rw [fresh] at stands ends
    by_cases same : before.sort = entry.sort
    · have follows : entry.follows (some before) = true := decide_eq_true same
      have kept := retained_le_continuation valid rfl same
      have control : entry.control P layout path false (some before) =
          P.backspace.bits (SortEntry.continuation layout path before - entry.retained) := by
        rw [SortEntry.control]
        simp [follows]
      rw [control] at stands ends
      have counted := SortBitReader.readCount_reads P.backspace
        ((Nat.sub_le _ entry.retained).trans fits) (entry.header ++ entry.literal path ++ entry.value ++
          bitsFrom P layout path (front.length + 1 + 1) (some entry) back) 0
      have floor := valid.floor
      rw [pathBits] at floor
      have parsed := @payload_ok _ _ layout path array entry _ valid (encodes.common_entry split') _ _
        stands.skip entry.retained (.of (front.length + 1) entry.sort
          (layout.key entry.sort).frontCoded (path entry.sort) (pathOffset path ids entry.sort)) rfl
        rfl true false (if_pos rfl)
      rw [stands.reader, ok_bind, List.append_assoc, counted, ok_bind]
      dsimp only
      rw [continuation_eq, require_true (Nat.sub_le _ _), ok_bind, Nat.sub_sub_self kept, path_eq,
        leaf_eq, place_eq, coded_eq, same, if_pos floor, Nat.zero_add, parsed, ← ends]
      simp [frameOf, SortProfileFrame.of, viewRetained, inherits, fresh, follows]
    · have apart : entry.follows (some before) = false := decide_eq_false same
      have joint_small := joint_lt lawful same
      have whole := valid.apart apart
      have path_le : (path before.sort).length ≤ SortEntry.continuation layout path before := by
        rw [SortEntry.continuation, pathBits]
        exact Nat.le_add_right _ _
      have joint_le := joint_small.le.trans path_le
      have control : entry.control P layout path false (some before) =
          P.backspace.bits (SortEntry.continuation layout path before -
            lcp (path before.sort) (path entry.sort)) ++
            (path entry.sort).drop (lcp (path before.sort) (path entry.sort)) := by
        rw [SortEntry.control]
        simp [apart, joint]
      rw [control] at stands ends
      have counted := SortBitReader.readCount_reads P.backspace
        ((Nat.sub_le _ (lcp (path before.sort) (path entry.sort))).trans fits)
        ((path entry.sort).drop (lcp (path before.sort) (path entry.sort)) ++
          (entry.header ++ entry.literal path ++ entry.value ++
            bitsFrom P layout path (front.length + 1 + 1) (some entry) back)) 0
      rw [List.append_assoc (P.backspace.bits _)] at stands
      rw [@List.length_append _ (P.backspace.bits _), ← Nat.add_assoc] at ends
      have spelt := stands.skip
      have walked := encodes.transition_ok lawful listed valid path_eq ordinal_eq rfl spelt
      have parsed := @payload_ok _ _ layout path array entry _ valid (encodes.common_entry split') _ _
        spelt.skip (lcp (path before.sort) (path entry.sort)) (.of (front.length + 1) entry.sort
          (layout.key entry.sort).frontCoded (path entry.sort) (pathOffset path ids entry.sort)) rfl
        rfl false false whole.symm
      rw [stands.reader, ok_bind, List.append_assoc, List.append_assoc, counted, ok_bind]
      dsimp only
      rw [continuation_eq, require_true (Nat.sub_le _ _), ok_bind, Nat.sub_sub_self joint_le, path_eq,
        if_neg (Nat.not_le.mpr joint_small), Nat.zero_add, walked, ok_bind]
      dsimp only
      rw [parsed, ← ends]
      simp [frameOf, SortProfileFrame.of, viewRetained, inherits, fresh, apart, joint]

end Encodes

end SortProfileArray

end Everett

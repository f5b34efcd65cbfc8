import Everett.Profile.Context

/-!
# Exact comparisons

The comparisons which a query context reports are those of the keys with the query, whichever key
the context started from, and whether a suffix comes as one literal or in parts.
-/

namespace Everett

open Word Outcome

variable (P : StoragePolicy)

namespace QueryContext

/-- `with_key`: the comparison of any key with the query. -/
def withKey (context : QueryContext) (key : BitString) : Result QueryContext :=
  if ¬P.Aligned key then .error "boundary key unit mismatch"
  else
    let comparison := compareCommonBits key context.query
    .ok { context with
      commonBits := comparison.commonBits
      fullUnits := P.units key
      lengthKnown := true
      order := comparison.order }

/-- The loop of `advance_parts`: agreement with the query behind a position, and the order if it
was decided. -/
def compareParts (query : BitString) : List BitString → Nat → Nat × Ordering
  | [], position => (position, .eq)
  | part :: rest, position =>
      let available := query.length - position
      let other := (query.drop position).take available
      let result := compareCommonBits part (other.take (min part.length available))
      if result.order = .eq then compareParts query rest (position + result.commonBits)
      else (position + result.commonBits, result.order)

/-- `advance_parts`: move the comparison to a key whose suffix comes in parts. -/
def advanceParts (context : QueryContext) (retainedBits fullBits : Nat)
    (literal : List BitString) : Result QueryContext := do
  require (fullBits % P.bitsPerUnit = 0 ∧ retainedBits ≤ fullBits ∧
      ¬(context.lengthKnown ∧ context.fullUnits * P.bitsPerUnit < retainedBits))
    "invalid inherited comparison frame"
  let total ← literal.foldlM (fun total part => ProfileDetail.add total part.length) retainedBits
  require (total = fullBits) "incomplete comparison literal"
  let known := { context with
    fullUnits := fullBits / P.bitsPerUnit
    lengthKnown := true }
  if retainedBits ≤ context.commonBits then
    let (position, order) := compareParts context.query literal retainedBits
    .ok { known with
      commonBits := position
      order := if order = .eq then compare fullBits context.query.length else order }
  else .ok known

/-- The comparison of a key with a query. -/
def exact (query key : BitString) : QueryContext :=
  ⟨query, lcp key query, P.units key, Word.order key query, true⟩

variable {P}

theorem exact_compares (query key : BitString) : (exact P query key).Compares P query key :=
  ⟨⟨rfl, rfl, fun _ => rfl⟩, rfl⟩

theorem Compares.eq_exact {context : QueryContext} {query key : BitString}
    (compares : context.Compares P query key) (known : context.lengthKnown = true) :
    context = exact P query key := by
  obtain ⟨⟨common, order, units⟩, rfl⟩ := compares
  obtain ⟨query, commonBits, fullUnits, _, lengthKnown⟩ := context
  subst known
  dsimp only at common order units
  rw [common, order, units rfl]
  rfl

theorem withKey_ok {context : QueryContext} {key : BitString} (aligned : P.Aligned key) :
    context.withKey P key = .ok (exact P context.query key) :=
  by
  rw [withKey, if_neg (not_not.mpr aligned)]
  rfl

theorem advance_known {context following : QueryContext} {frame : Frame}
    (advanced : context.advance P frame = .ok following) : following.lengthKnown = true := by
  unfold advance at advanced
  dsimp only at advanced
  split_ifs at advanced <;> cases advanced <;> rfl

/-- The frame of an entry leads to the comparison of its key. -/
theorem advance_exact {context : QueryContext} {query anchor : BitString} {entry : Entry}
    (compares : context.Compares P query anchor)
    (shares : entry.retained * P.bitsPerUnit ≤ lcp anchor entry.key) :
    context.advance P (entry.frame P) = .ok (exact P query entry.key) := by
  obtain ⟨following, advanced, reached⟩ := advance_compares compares shares
  rw [advanced, reached.eq_exact (advance_known advanced)]

/-! ## Parts -/

theorem compareParts_window {query : BitString} {position : Nat} (part : BitString) :
    ((query.drop position).take (query.length - position)).take
      (min part.length (query.length - position)) = (query.drop position).take part.length := by
  have size : (query.drop position).length = query.length - position := List.length_drop
  rw [List.take_of_length_le size.le]
  rcases le_total part.length (query.length - position) with less | more
  · rw [min_eq_left less]
  · rw [min_eq_right more, List.take_of_length_le size.le,
      List.take_of_length_le (size.le.trans more)]

theorem compareParts_of_extends {query part : BitString} {rest : List BitString} {position : Nat}
    (inside : part <+: query.drop position) :
    compareParts query (part :: rest) position =
      compareParts query rest (position + part.length) := by
  have same : (query.drop position).take part.length = part :=
    (List.prefix_iff_eq_take.mp inside).symm
  rw [compareParts]
  simp only [compareParts_window, same, compareCommonBits, order_self, lcp_self, if_true]

theorem compareParts_of_apart {query part : BitString} {rest : List BitString}
    {position : Nat} (outside : ¬part <+: query.drop position) :
    compareParts query (part :: rest) position =
      (position + lcp part (query.drop position), Word.order part (query.drop position)) := by
  obtain ⟨common, decided⟩ := take_of_not_prefix outside
  have differs : Word.order part (query.drop position) ≠ .eq := by
    rw [Ne, order_eq_eq]
    rintro rfl
    exact outside List.prefix_rfl
  rw [compareParts]
  simp only [compareParts_window, compareCommonBits, common, decided, if_neg differs]

theorem compareParts_spec {query : BitString} (parts : List BitString) {position : Nat}
    (within : position ≤ query.length) :
    (compareParts query parts position).1 =
        position + lcp parts.flatten (query.drop position) ∧
      ((compareParts query parts position).2 = .eq → parts.flatten <+: query.drop position) ∧
      ((compareParts query parts position).2 ≠ .eq →
        (compareParts query parts position).2 =
          Word.order parts.flatten (query.drop position)) := by
  induction parts generalizing position with
  | nil => simp [compareParts]
  | cons part rest induction =>
      rw [List.flatten_cons]
      by_cases inside : part <+: query.drop position
      · -- the part agrees, and the next one goes on behind it
        rw [compareParts_of_extends inside]
        have room : position + part.length ≤ query.length := by
          have := inside.length_le
          rw [List.length_drop] at this
          omega
        obtain ⟨tail, split⟩ := inside
        have behind : query.drop (position + part.length) = tail := by
          rw [← List.drop_drop, ← split, List.drop_left]
        have shared : part.length ≤ lcp (part ++ rest.flatten) (query.drop position) := by
          rw [le_lcp_iff, ← split]
          simp
        obtain ⟨agreed, equal, differs⟩ := induction room
        have common := lcp_drop shared
        have decided := order_drop shared
        rw [← split, List.drop_left, List.drop_left] at common decided
        rw [behind] at agreed equal differs
        rw [← split]
        refine ⟨by omega, fun eq => ?_, fun ne => ?_⟩
        · obtain ⟨more, rest_split⟩ := equal eq
          exact ⟨more, by rw [List.append_assoc, rest_split]⟩
        · rw [differs ne, decided]
      · obtain ⟨common, decided⟩ := append_of_not_prefix inside rest.flatten
        rw [compareParts_of_apart inside, common, decided]
        refine ⟨rfl, fun eq => ?_, fun _ => rfl⟩
        rw [order_eq_eq] at eq
        exact absurd (eq ▸ List.prefix_rfl) inside

theorem order_of_extends {v w : BitString} (inside : v <+: w) :
    Word.order v w = compare v.length w.length := by
  obtain ⟨tail, rfl⟩ := inside
  cases tail with
  | nil => rw [List.append_nil, order_self, compare_eq_iff_eq.mpr rfl]
  | cons bit tail =>
      have shorter : Word.order v (v ++ bit :: tail) = .lt := by
        induction v with
        | nil => rfl
        | cons first v induction => simpa [Word.order] using induction
      rw [shorter, compare_lt_iff_lt.mpr (by simp)]

theorem total_ok {literal : List BitString} {start : Nat}
    (fits : start + literal.flatten.length ≤ maximum64) :
    literal.foldlM (fun total part => ProfileDetail.add total part.length) start =
      .ok (start + literal.flatten.length) := by
  induction literal generalizing start with
  | nil => rfl
  | cons part rest induction =>
      rw [List.flatten_cons, List.length_append, ← Nat.add_assoc] at fits ⊢
      have here : ProfileDetail.add start part.length = .ok (start + part.length) :=
        if_pos (by omega)
      rw [List.foldlM_cons, here, ok_bind, induction fits]

/-- A suffix in parts leads to the comparison of its key. -/
theorem advanceParts_exact {context : QueryContext} {query anchor key : BitString}
    {retainedBits : Nat} {literal : List BitString} (compares : context.Compares P query anchor)
    (anchor_aligned : P.Aligned anchor) (aligned : P.Aligned key)
    (fits : key.length ≤ maximum64) (shares : retainedBits ≤ lcp anchor key)
    (suffix : literal.flatten = key.drop retainedBits) :
    context.advanceParts P retainedBits key.length literal = .ok (exact P query key) := by
  obtain ⟨⟨common, order_eq, units⟩, rfl⟩ := compares
  have within := shares.trans (lcp_le_right anchor key)
  have whole : retainedBits + literal.flatten.length = key.length := by
    rw [suffix, List.length_drop]
    omega
  have accepted : key.length % P.bitsPerUnit = 0 ∧ retainedBits ≤ key.length ∧
      ¬(context.lengthKnown = true ∧ context.fullUnits * P.bitsPerUnit < retainedBits) := by
    refine ⟨Nat.mod_eq_zero_of_dvd aligned, within, ?_⟩
    rintro ⟨known, short⟩
    rw [units known, P.units_mul anchor_aligned] at short
    exact absurd (shares.trans (lcp_le_left _ _)) (Nat.not_le.mpr short)
  unfold advanceParts
  rw [require_true accepted, ok_bind, total_ok (whole.le.trans fits), ok_bind, whole,
    require_true rfl, ok_bind]
  split_ifs with enough
  · have inherited : retainedBits ≤ lcp key context.query := by
      refine (le_min ?_ ?_).trans (min_lcp_le key anchor context.query)
      · rwa [lcp_comm]
      · rwa [← common]
    have room := inherited.trans (lcp_le_right _ _)
    obtain ⟨agreed, equal, differs⟩ :=
      compareParts_spec literal room
    rw [suffix, ← lcp_drop inherited] at agreed
    rw [suffix, ← order_drop inherited] at differs
    have decided : (if (compareParts context.query literal retainedBits).2 = .eq then
        compare key.length context.query.length
        else (compareParts context.query literal retainedBits).2) = Word.order key context.query := by
      split_ifs with eq
      · have inside := equal eq
        rw [suffix] at inside
        have prefixed : key <+: context.query := by
          obtain ⟨tail, split⟩ := inside
          refine ⟨tail, ?_⟩
          rw [← List.take_append_drop retainedBits key, List.append_assoc, split,
            take_eq_of_le_lcp inherited, List.take_append_drop]
        exact (order_of_extends prefixed).symm
      · exact differs eq
    dsimp only
    rw [decided, agreed]
    rfl
  · rw [common, Nat.not_le] at enough
    obtain ⟨same_common, same_order⟩ := past_difference (enough.trans_le shares)
    rw [exact, same_common, same_order, ← common, ← order_eq]
    rfl

end QueryContext

/-! ## Windows -/

/-- A callback visits items until it stops. -/
def visitItems {σ : Type} (callback : σ → ComparisonItem → Result (σ × Bool)) :
    List ComparisonItem → σ → Result σ
  | [], state => .ok state
  | item :: rest, state => do
      let (state, more) ← callback state item
      if more then visitItems callback rest state else .ok state

/-- The exact comparisons of records from an ordinal on. -/
def exactItems (query : BitString) (entries : List Entry) (ordinal : Nat) : List ComparisonItem :=
  (entries.zipIdx ordinal).map fun record =>
    ⟨record.2, .exact P query record.1.key, record.1.value⟩

variable {P}

theorem compareFrames_exact {σ : Type} {callback : σ → ComparisonItem → Result (σ × Bool)}
    {query anchor : BitString} {entries : List Entry} {ordinal : Nat} {context : QueryContext}
    {state : σ} (compares : context.Compares P query anchor) (retains : Retains P anchor entries) :
    compareFrames P callback (entries.map (Entry.frame P)) ordinal context state =
      visitItems callback (exactItems P query entries ordinal) state := by
  induction entries generalizing anchor ordinal context state with
  | nil => rfl
  | cons entry rest induction =>
      have advanced := QueryContext.advance_exact compares retains.1
      rw [List.map_cons, compareFrames, advanced, ok_bind, exactItems, List.zipIdx_cons,
        List.map_cons, visitItems]
      refine congrArg _ (funext fun answer => ?_)
      obtain ⟨after, more⟩ := answer
      dsimp only
      split_ifs
      · cases rest with
        | nil => rfl
        | cons next rest =>
            have later := retains.2.2
            have fits : (next.frame P).retained ≤ (entry.frame P).keyUnits P := by
              rw [frame_keyUnits retains.1]
              exact (Nat.le_div_iff_mul_le P.bitsPerUnit_pos).mpr
                (later.1.trans (lcp_le_left _ _))
            rw [List.map_cons]
            dsimp only
            rw [require_true fits, ok_bind]
            exact induction (QueryContext.exact_compares query entry.key) later
      · rfl

/-- A window behind an anchor which is not below the preceding key. -/
theorem Retains.after_predecessor {anchor : BitString} {entries : List Entry} {first : Nat}
    (retains : Retains P [] entries)
    (lower : ∀ entry, 0 < first → entries[first - 1]? = some entry → entry.key ≤ anchor)
    (upper : ∀ entry, entries[first]? = some entry → anchor ≤ entry.key) (count : Nat) :
    Retains P anchor ((entries.drop first).take count) := by
  rw [← List.take_append_drop first entries] at retains
  refine Retains.take (retains.tail_of_append.anchored fun entry head => ?_) count
  have here : entries[first]? = some entry := by simpa [List.head?_drop] using head
  refine ⟨?_, upper entry here⟩
  have within : first < entries.length := (List.getElem?_eq_some_iff.mp here).1
  cases last : (entries.take first).getLast? with
  | none => simp
  | some earlier =>
      have nonempty : 0 < first := by
        rcases Nat.eq_zero_or_pos first with rfl | positive
        · cases last
        · exact positive
      rw [List.getLast?_eq_getElem?, List.length_take_of_le within.le,
        List.getElem?_take_of_lt (by omega)] at last
      exact lower earlier nonempty last


/-- From the context of a key, a window reports the exact comparison of every record with the query,
`predecessor` that of an earlier key, and `advance_parts` that of a key in parts. -/
theorem query_context_exact {related : BitString → BitString → Prop}
    (array : ProfileArray P related) {query b : BitString} {context : QueryContext}
    (compares : context.Compares P query b) (aligned : P.Aligned b) :
    (∀ {σ : Type} (callback : σ → ComparisonItem → Result (σ × Bool)) (state : σ)
      (first last : Nat),
      (∀ entry, 0 < first → array.entries[first - 1]? = some entry → entry.key ≤ b) →
      (∀ entry, array.entries[first]? = some entry → b ≤ entry.key) →
      compareWindow P array.frames first last context callback state =
        if first ≤ last ∧ last ≤ array.size ∧ last - first ≤ P.groupSize then
          visitItems callback
            (exactItems P query ((array.entries.drop first).take (last - first)) first) state
        else .error "profile comparison window exceeds cascade group") ∧
    (∀ c, c ≤ b → b ≤ query →
      ∃ back, context.predecessor P (lcp c b) = .ok back ∧ back.Compares P query c) ∧
    ∀ key retainedBits literal, P.Aligned key → key.length ≤ maximum64 →
      retainedBits ≤ lcp b key → List.flatten literal = key.drop retainedBits →
      context.advanceParts P retainedBits key.length literal = .ok (.exact P query key) := by
  refine ⟨fun callback state first last lower upper => ?_, fun c below upper =>
    QueryContext.predecessor_compares compares aligned below upper,
    fun key retainedBits literal key_aligned fits shares suffix =>
      QueryContext.advanceParts_exact compares aligned key_aligned fits shares suffix⟩
  have window : (array.frames.drop first).take (last - first) =
      ((array.entries.drop first).take (last - first)).map (Entry.frame P) := by
    rw [ProfileArray.frames, List.map_take, List.map_drop]
  unfold compareWindow
  rw [ProfileArray.length_frames]
  split_ifs with refused accepted accepted
  · omega
  · rfl
  · rw [window]
    exact compareFrames_exact compares (array.retains.after_predecessor lower upper _)
  · omega

theorem query_context_exact_singleton :
    let key := List.replicate 8 true
    let array : NativeArray .bytes3 := .singleton key [] (by decide)
    let context : QueryContext := .exact .bytes3 key []
    (∀ callback (state : Nat), compareWindow .bytes3 array.frames 0 1 context callback state =
      visitItems callback (exactItems .bytes3 key [⟨key, 0, []⟩] 0) state) ∧
    (∃ back, context.predecessor .bytes3 (lcp ([] : BitString) []) = .ok back ∧
      back.Compares .bytes3 key []) ∧
    context.advanceParts .bytes3 0 8 [key.take 3, key.drop 3] = .ok (.exact .bytes3 key key) := by
  intro key array context
  have all := query_context_exact array (QueryContext.exact_compares (P := .bytes3) key [])
    (by decide)
  exact ⟨fun callback state => all.1 callback state 0 1 (fun _ positive => absurd positive (by decide))
      (fun _ _ => nil_le _),
    all.2.1 [] le_rfl (nil_le _), all.2.2 key 0 _ (by decide) (by decide) (Nat.zero_le _) (by decide)⟩

end Everett

import Everett.Profile.Cursor

/-!
# Query contexts

A query compares itself with frames without reconstructing any key: a context remembers how the
last key compares with the query and how long it is.  Contexts are carried from record to record,
and through a borrowed record to the group it routes to.
-/

namespace Everett

open Word Outcome

variable (P : StoragePolicy)

/-- `profile_query_context`: a query and its comparison with the current key. -/
structure QueryContext where
  /-- The query. -/
  query : BitString
  /-- Common prefix of the current key and the query in bits. -/
  commonBits : Nat
  /-- Length of the current key in units, meaningful only when it is known. -/
  fullUnits : Nat
  /-- Order of the current key relative to the query. -/
  order : Ordering
  /-- Whether the length of the current key is known. -/
  lengthKnown : Bool
  deriving DecidableEq, Repr

namespace QueryContext

/-- Compare the query with the empty key. -/
def fromOwned (query : BitString) : Result QueryContext :=
  if ¬ P.Aligned query then .error "query unit mismatch"
  else .ok ⟨query, 0, 0, if query = [] then .eq else .lt, true⟩

/-- `advance`: move the comparison to the key of the following frame. -/
def advance (context : QueryContext) (frame : Frame) : Result QueryContext :=
  if context.lengthKnown ∧ context.fullUnits < frame.retained then
    .error "comparison anchor is too short"
  else
    let retained := frame.retainedBits P
    if retained ≤ context.commonBits then
      let comparison := compareCommonBits frame.suffix (context.query.drop retained)
      .ok { context with
        commonBits := retained + comparison.commonBits
        order := comparison.order
        fullUnits := frame.keyUnits P
        lengthKnown := true }
    else .ok { context with fullUnits := frame.keyUnits P, lengthKnown := true }

/-- `predecessor`: move the comparison back to an earlier key of known common prefix. -/
def predecessor (context : QueryContext) (lcpBits : Nat) : Result QueryContext :=
  if context.order = .gt ∨
      (context.lengthKnown ∧ context.fullUnits * P.bitsPerUnit < lcpBits) then
    .error "invalid cut predecessor comparison"
  else
    let common := min lcpBits context.commonBits
    if common = context.query.length then
      .ok ⟨context.query, common, P.units context.query, .eq, true⟩
    else .ok ⟨context.query, common, 0, .lt, false⟩

/-- The context compares its query with this key. -/
structure Describes (context : QueryContext) (key : BitString) : Prop where
  common : context.commonBits = lcp key context.query
  order : context.order = Word.order key context.query
  units : context.lengthKnown = true → context.fullUnits = P.units key

/-- A query context over the given query describes some anchor exactly. -/
structure Compares (context : QueryContext) (query key : BitString) : Prop
    extends Describes P context key where
  same_query : context.query = query

end QueryContext

/-- One item of a comparison window: ordinal, comparison and value bits. -/
structure ComparisonItem where
  /-- Ordinal of the record. -/
  ordinal : Nat
  /-- Comparison of the key of the record with the query. -/
  comparison : QueryContext
  /-- Value bits of the record. -/
  value : BitString

/-- The loop of `compare_window`; the callback decides whether to go on. -/
def compareFrames {σ : Type} (callback : σ → ComparisonItem → Result (σ × Bool)) :
    List Frame → Nat → QueryContext → σ → Result σ
  | [], _, _, state => .ok state
  | frame :: frames, ordinal, context, state => do
      let context ← context.advance P frame
      let (state, more) ← callback state ⟨ordinal, context, frame.value⟩
      if more then
        match frames with
        | [] => .ok state
        | next :: _ => do
            require (next.retained ≤ frame.keyUnits P)
              "profile retained prefix exceeds predecessor"
            compareFrames callback frames (ordinal + 1) context state
      else .ok state

/-- `compare_window`: visit the records `first` up to `last`, at most one cascade group. -/
def compareWindow {σ : Type} (frames : List Frame) (first last : Nat) (context : QueryContext)
    (callback : σ → ComparisonItem → Result (σ × Bool)) (state : σ) : Result σ :=
  if last < first ∨ frames.length < last ∨ P.groupSize < last - first then
    .error "profile comparison window exceeds cascade group"
  else compareFrames P callback ((frames.drop first).take (last - first)) first context state

/-- `encoded_at`. -/
def encodedAt (frames : List Frame) (ordinal : Nat) : Result Frame :=
  demand frames[ordinal]? "profile record ordinal"

variable {P}

namespace QueryContext

theorem fromOwned_compares {query : BitString} (aligned : P.Aligned query) :
    ∃ context, fromOwned P query = .ok context ∧ context.Compares P query [] := by
  refine ⟨_, if_neg (not_not.mpr aligned), ⟨⟨by simp, ?_, ?_⟩, rfl⟩⟩
  · cases query <;> simp [Word.order]
  · simp [StoragePolicy.units]

/-- An anchor sharing the retained prefix of a frame suffices to compare with its key. -/
theorem advance_compares {context : QueryContext} {query anchor : BitString} {entry : Entry}
    (compares : context.Compares P query anchor)
    (shares : entry.retained * P.bitsPerUnit ≤ lcp anchor entry.key) :
    ∃ following, context.advance P (entry.frame P) = .ok following ∧
      following.Compares P query entry.key := by
  obtain ⟨⟨common, order, units⟩, rfl⟩ := compares
  have long_enough : ¬ (context.lengthKnown = true ∧
      context.fullUnits < (entry.frame P).retained) := by
    rintro ⟨known, short⟩
    rw [units known] at short
    exact absurd (shares.trans (lcp_le_left _ _))
      (Nat.not_le.mpr ((Nat.div_lt_iff_lt_mul P.bitsPerUnit_pos).mp short))
  have key_units := frame_keyUnits shares
  have retained : (entry.frame P).retainedBits P = entry.retained * P.bitsPerUnit := rfl
  unfold advance
  rw [if_neg long_enough, retained]
  by_cases within : entry.retained * P.bitsPerUnit ≤ context.commonBits
  · have inherited : entry.retained * P.bitsPerUnit ≤ lcp entry.key context.query := by
      refine (le_min ?_ ?_).trans (min_lcp_le entry.key anchor context.query)
      · rwa [lcp_comm]
      · rwa [← common]
    rw [if_pos within]
    refine ⟨_, rfl, ⟨⟨?_, ?_, fun _ => key_units⟩, rfl⟩⟩
    · exact (lcp_drop inherited).symm
    · exact (order_drop inherited).symm
  · rw [if_neg within]
    rw [common, Nat.not_le] at within
    obtain ⟨same_common, same_order⟩ := past_difference (within.trans_le shares)
    exact ⟨_, rfl, ⟨⟨common.trans same_common.symm, order.trans same_order.symm,
      fun _ => key_units⟩, rfl⟩⟩

/-- Moving back from a key at most the query to an earlier key at a known common prefix. -/
theorem predecessor_compares {context : QueryContext} {query anchor earlier : BitString}
    (compares : context.Compares P query anchor) (anchor_aligned : P.Aligned anchor)
    (lower : earlier ≤ anchor) (upper : anchor ≤ query) :
    ∃ back, context.predecessor P (lcp earlier anchor) = .ok back ∧
      back.Compares P query earlier := by
  obtain ⟨⟨common, order, units⟩, rfl⟩ := compares
  have accepted : ¬ (context.order = .gt ∨
      (context.lengthKnown = true ∧ context.fullUnits * P.bitsPerUnit < lcp earlier anchor)) := by
    rintro (above | ⟨known, short⟩)
    · exact order_ne_gt.mpr upper (order ▸ above)
    · rw [units known, P.units_mul anchor_aligned] at short
      exact absurd (lcp_le_right earlier anchor) (Nat.not_le.mpr short)
  have composed : min (lcp earlier anchor) context.commonBits = lcp earlier context.query := by
    rw [common, lcp_sorted lower upper]
  have below : earlier ≤ context.query := lower.trans upper
  unfold predecessor
  simp only [if_neg accepted, composed]
  by_cases whole : lcp earlier context.query = context.query.length
  · have equal : earlier = context.query := by
      by_contra different
      have less := order_eq_lt.mpr (lt_of_le_of_ne below different)
      have prefix_of := take_eq_of_le_lcp whole.ge
      rw [List.take_length] at prefix_of
      have longer : context.query <+: earlier := prefix_of ▸ List.take_prefix _ _
      exact different (below.antisymm (not_lt.mp fun less => longer.le less))
    rw [if_pos whole]
    exact ⟨_, rfl, ⟨⟨rfl, by simp [equal, order_self], fun _ => by simp [equal]⟩, rfl⟩⟩
  · rw [if_neg whole]
    have less : earlier < context.query := by
      refine lt_of_le_of_ne below ?_
      rintro equal
      exact whole (by rw [equal, lcp_self])
    exact ⟨_, rfl, ⟨⟨rfl, (order_eq_lt.mpr less).symm, by simp⟩, rfl⟩⟩

end QueryContext

/-- A callback loop over frames which keeps an invariant until it stops. -/
theorem compareFrames_ensures {σ : Type} {callback : σ → ComparisonItem → Result (σ × Bool)}
    (query : BitString) (inv : List Entry → Nat → σ → Prop) (post : σ → Prop)
    (step : ∀ entry rest ordinal context state, inv (entry :: rest) ordinal state →
      context.Compares P query entry.key →
      ∃ result more, callback state ⟨ordinal, context, entry.value⟩ = .ok (result, more) ∧
        (more = true → inv rest (ordinal + 1) result) ∧ (more = false → post result))
    (finish : ∀ ordinal state, inv [] ordinal state → post state)
    {entries : List Entry} {anchor : BitString} {ordinal : Nat} {context : QueryContext} {state : σ}
    (start : inv entries ordinal state) (compares : context.Compares P query anchor)
    (retains : Retains P anchor entries) :
    ∃ result, compareFrames P callback (entries.map (Entry.frame P)) ordinal context state =
      .ok result ∧ post result := by
  induction entries generalizing anchor ordinal context state with
  | nil => exact ⟨state, rfl, finish ordinal state start⟩
  | cons entry rest induction =>
      obtain ⟨moved, advanced, moved_compares⟩ := QueryContext.advance_compares compares retains.1
      obtain ⟨result, more, called, continued, stopped⟩ :=
        step entry rest ordinal moved state start moved_compares
      have value : (entry.frame P).value = entry.value := rfl
      simp only [List.map_cons, compareFrames, advanced, ok_bind, value, called]
      cases more with
      | false => exact ⟨result, rfl, stopped rfl⟩
      | true =>
          rw [if_pos rfl]
          cases rest with
          | nil => exact ⟨result, rfl, finish _ _ (continued rfl)⟩
          | cons next rest =>
              have later := retains.2.2
              have fits : (next.frame P).retained ≤ (entry.frame P).keyUnits P := by
                rw [frame_keyUnits retains.1]
                exact (Nat.le_div_iff_mul_le P.bitsPerUnit_pos).mpr
                  (later.1.trans (lcp_le_left _ _))
              simp only [List.map_cons, require_true fits, ok_bind]
              exact induction (continued rfl) moved_compares later

/-- A comparison window of an array read after an anchor between its neighbouring keys. -/
theorem compareWindow_ensures {σ : Type} {callback : σ → ComparisonItem → Result (σ × Bool)}
    {related : BitString → BitString → Prop} {array : ProfileArray P related} (query : BitString)
    (inv : List Entry → Nat → σ → Prop) (post : σ → Prop)
    (step : ∀ entry rest ordinal context state, inv (entry :: rest) ordinal state →
      context.Compares P query entry.key →
      ∃ result more, callback state ⟨ordinal, context, entry.value⟩ = .ok (result, more) ∧
        (more = true → inv rest (ordinal + 1) result) ∧ (more = false → post result))
    (finish : ∀ ordinal state, inv [] ordinal state → post state)
    {anchor : BitString} {first last : Nat} {context : QueryContext} {state : σ}
    (ordered : first ≤ last) (within : last ≤ array.size) (width : last - first ≤ P.groupSize)
    (start : inv ((array.entries.drop first).take (last - first)) first state)
    (compares : context.Compares P query anchor)
    (between : ∀ entry, array.entries[first]? = some entry →
      (∀ earlier ∈ array.entries.take first, earlier.key ≤ anchor) ∧ anchor ≤ entry.key) :
    ∃ result, compareWindow P array.frames first last context callback state = .ok result ∧
      post result := by
  have accepted : ¬ (last < first ∨ array.frames.length < last ∨ P.groupSize < last - first) := by
    rw [ProfileArray.length_frames]
    omega
  have window : (array.frames.drop first).take (last - first) =
      ((array.entries.drop first).take (last - first)).map (Entry.frame P) := by
    rw [ProfileArray.frames, List.map_take, List.map_drop]
  rw [compareWindow, if_neg accepted, window]
  exact compareFrames_ensures query inv post step finish start compares (array.retains.window between _)

end Everett

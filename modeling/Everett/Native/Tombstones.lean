import Everett.Native.Union

/-!
# Conservative tombstones

A tombstone is admitted with a limit, so that it repeats the literal of what it cancels.  Through a
tree of merges the limit is only known by what each stored frame retains: a merge keeps a tombstone
within the stored retained units of the records which form it.
-/

namespace Everett

open Word Outcome

variable {P : StoragePolicy}

/-- A key, its value and the units which its frame retains. -/
def Entry.limited (entry : Entry) : BitString × BitString × Nat :=
  (entry.key, entry.value, entry.retained)

/-- The stored retained units of a key. -/
def ProfileArray.storedRetained {related : BitString → BitString → Prop}
    (array : ProfileArray P related) (key : BitString) : Option Nat :=
  valueAt key (array.entries.map fun entry => (entry.key, entry.retained))

namespace NativeMerge

/-! ## Retained units of a merge -/

/-- Combine the values and the limits of a common key. -/
def combineLimited (composition : Composition P) (key : BitString)
    (older newer : BitString × Nat) : BitString × Nat :=
  (composition.compose.apply key older.1 newer.1, min older.2 newer.2)

/-- Place keys, values and limits in order after a preceding key. -/
def placeAll (composition : Composition P) : BitString → List (BitString × BitString × Nat) → List Entry
  | _, [] => []
  | previous, (key, value, limit) :: rest =>
      placed composition previous key value limit :: placeAll composition key rest

/-- The entries which two inputs have still to form. -/
def toPlace (composition : Composition P) (older newer : List Entry) :
    List (BitString × BitString × Nat) :=
  mergeWith (combineLimited composition) (older.map Entry.limited) (newer.map Entry.limited)

theorem Takes.places {composition : Composition P} {previous : BitString}
    {olderRest newerRest olderRest' newerRest' : List Entry} {entry : Entry}
    (takes : Takes composition previous olderRest newerRest entry olderRest' newerRest') :
    placeAll composition previous (toPlace composition olderRest newerRest) =
      entry :: placeAll composition entry.key (toPlace composition olderRest' newerRest') := by
  cases takes with
  | @older a _ _ before =>
      have first : toPlace composition (a :: olderRest') newerRest =
          a.limited :: toPlace composition olderRest' newerRest := by
        cases newerRest with
        | nil => simp [toPlace]
        | cons b newerRest => exact mergeWith_of_lt (before b List.mem_cons_self)
      rw [first]
      rfl
  | @newer b _ _ before =>
      have first : toPlace composition olderRest (b :: newerRest') =
          b.limited :: toPlace composition olderRest newerRest' := by
        cases olderRest with
        | nil => simp [toPlace]
        | cons a olderRest => exact mergeWith_of_gt (before a List.mem_cons_self)
      rw [first]
      rfl
  | @both a b _ _ same =>
      have heads : b.limited = (a.key, b.value, b.retained) := by rw [Entry.limited, same]
      have first : toPlace composition (a :: olderRest') (b :: newerRest') =
          (a.key, combineLimited composition a.key (a.value, a.retained) (b.value, b.retained)) ::
            toPlace composition olderRest' newerRest' := by
        rw [toPlace, List.map_cons, List.map_cons, heads]
        exact mergeWith_of_eq
      rw [first]
      rfl

/-- What is written, completed by what is to be placed after it. -/
structure Placing (merge : NativeMerge P) (composition : Composition P)
    (target : List (BitString × BitString)) (entries : List Entry)
    (written olderRest newerRest : List Entry) : Prop where
  merging : merge.Merging written olderRest newerRest target
  policy : merge.composition = composition
  places : written ++ placeAll composition (lastWritten written)
    (toPlace composition olderRest newerRest) = entries

/-- One key at a time, a merge writes the entries which it has to place. -/
theorem Placing.mergeOne_ok {merge : NativeMerge P} {composition : Composition P}
    {target : List (BitString × BitString)} {entries written olderRest newerRest : List Entry}
    (placing : merge.Placing composition target entries written olderRest newerRest)
    (live : merge.done = false) :
    ∃ next consumed written' olderRest' newerRest', merge.mergeOne = .ok (next, consumed) ∧
      next.Placing composition target entries written' olderRest' newerRest' := by
  have some_left : ¬ (olderRest = [] ∧ newerRest = []) := fun none_left => by
    rw [placing.merging.done_iff.mpr none_left] at live
    cases live
  obtain ⟨next, consumed, entry, olderRest', newerRest', merged, kept, takes, after, -⟩ :=
    placing.merging.mergeOne_ok some_left
  rw [placing.policy] at kept takes
  refine ⟨next, consumed, written ++ [entry], olderRest', newerRest', merged, after, kept, ?_⟩
  rw [lastWritten_append, List.append_assoc, List.singleton_append, ← takes.places]
  exact placing.places

/-! ## Reachable states -/

/-- The states of a merge, one distinct key at a time. -/
inductive Reachable (opened : NativeMerge P) : NativeMerge P → Prop
  | opened : Reachable opened opened
  | next {merge next : NativeMerge P} {consumed : Nat} (before : Reachable opened merge)
      (live : merge.done = false) (merged : merge.mergeOne = .ok (next, consumed)) :
      Reachable opened next

theorem Reachable.stepKeys {opened merge : NativeMerge P} (reachable : Reachable opened merge)
    {budget : Nat} {final : NativeMerge P} {work : NativeMergeProgress}
    (stepped : stepKeys budget merge = .ok (final, work)) : Reachable opened final := by
  induction budget generalizing merge final work with
  | zero =>
      cases stepped
      exact reachable
  | succ budget induction =>
      rw [NativeMerge.stepKeys] at stepped
      split at stepped
      · cases stepped
        exact reachable
      · rename_i live
        obtain ⟨⟨next, consumed⟩, merged, rest⟩ := bind_eq_ok.mp stepped
        obtain ⟨⟨last, more⟩, looped, same⟩ := bind_eq_ok.mp rest
        cases same
        exact induction (reachable.next (Bool.not_eq_true _ ▸ live) merged) looped

theorem Reachable.runSteps {opened merge : NativeMerge P} (reachable : Reachable opened merge)
    {budgets : List Nat} {final : NativeMerge P} {work : NativeMergeProgress}
    (ran : runSteps budgets merge = .ok (final, work)) : Reachable opened final := by
  induction budgets generalizing merge final work with
  | nil =>
      cases ran
      exact reachable
  | cons budget budgets induction =>
      obtain ⟨⟨next, consumed⟩, stepped, rest⟩ := bind_eq_ok.mp ran
      obtain ⟨⟨last, more⟩, looped, same⟩ := bind_eq_ok.mp rest
      cases same
      obtain ⟨_, -, looped_keys⟩ := bind_eq_ok.mp stepped
      exact induction (reachable.stepKeys looped_keys) looped

theorem Reachable.placing {opened merge : NativeMerge P} {composition : Composition P}
    {target : List (BitString × BitString)} {entries older newer : List Entry}
    (opens : opened.Placing composition target entries [] older newer)
    (reachable : Reachable opened merge) : ∃ written olderRest newerRest,
      merge.Placing composition target entries written olderRest newerRest := by
  induction reachable with
  | opened => exact ⟨_, _, _, opens⟩
  | next before live merged induction =>
      obtain ⟨written, olderRest, newerRest, placing⟩ := induction
      obtain ⟨following, consumed, written', olderRest', newerRest', result, after⟩ :=
        placing.mergeOne_ok live
      rw [merged] at result
      cases result
      exact ⟨written', olderRest', newerRest', after⟩

/-! ## Reconstruction of full keys -/

/-- The condition on which `append` reconstructs a full key: an encoded source is asked for a
literal which starts before its own. -/
def fallsBack (merge : NativeMerge P) (source : MergeSource) (item : Frame) (value : BitString)
    (retained limitBits : Nat) : Bool :=
  match source with
  | .encoded _ => decide ((if merge.composition.isTombstone (source.key P) value then
      min retained (limitBits / P.bitsPerUnit) else retained) < item.retained)
  | .materialized _ => false

/-- Whether the next iteration of `step` reconstructs a full key. -/
def reconstructs (merge : NativeMerge P) : Result Bool := do
  let comparison ← merge.compareHeads
  match comparison.order with
  | .lt => do
      let item ← merge.olderCursor.peek
      .ok (merge.fallsBack merge.olderCursor item item.value merge.olderPrefix
        (item.retainedBits P))
  | .gt => do
      let item ← merge.newerCursor.peek
      .ok (merge.fallsBack merge.newerCursor item item.value merge.newerPrefix
        (item.retainedBits P))
  | .eq => do
      let older ← merge.olderCursor.peek
      let newer ← merge.newerCursor.peek
      let value := merge.composition.compose.apply (merge.olderCursor.key P) older.value newer.value
      let donor := merge.donor older newer
      let item ← donor.peek
      .ok (merge.fallsBack donor item value merge.olderPrefix
        (min (older.retainedBits P) (newer.retainedBits P)))

/-- Without a reconstruction, `append` takes its literal from the frame of the source. -/
theorem append_of_not_fallsBack {merge : NativeMerge P} {source : EncodedSource} {item : Frame}
    {value : BitString} {retained limitBits : Nat}
    (peeked : (MergeSource.encoded source).peek = .ok item)
    (direct : merge.fallsBack (.encoded source) item value retained limitBits = false) :
    merge.append (.encoded source) value retained limitBits =
      let retained := if merge.composition.isTombstone ((MergeSource.encoded source).key P) value then
        min retained (limitBits / P.bitsPerUnit) else retained
      (MergeSource.encoded source).suffix P retained >>= fun literal =>
        merge.writer.append P retained literal value := by
  have not_before := of_decide_eq_false direct
  rw [append]
  simp only [literalFrom, peeked, ok_bind]
  rw [if_neg not_before]

theorem Remains.not_fallsBack {source : MergeSource} {shared : Nat}
    {written rest : List Entry} {entry : Entry}
    (remains : Remains (P := P) source shared written (entry :: rest)) (merge : NativeMerge P)
    (value : BitString)
    {limit : Nat} (covers : entry.retained ≤ limit) :
    merge.fallsBack source (entry.frame P) value shared (limit * P.bitsPerUnit) = false := by
  have within := remains.retained_le.1
  cases source with
  | materialized cursor => rfl
  | encoded source =>
      have item_retained : (entry.frame P).retained = entry.retained := rfl
      simp only [fallsBack, Nat.mul_div_cancel _ P.bitsPerUnit_pos, item_retained]
      apply decide_eq_false
      split <;> omega

/-- Merging encoded keys, the literal of the chosen donor always reaches far enough. -/
theorem Merging.reconstructs_eq {merge : NativeMerge P} {written olderRest newerRest : List Entry}
    {target : List (BitString × BitString)}
    (merging : merge.Merging written olderRest newerRest target)
    (keyFree : merge.composition.compose.readsKeys = false)
    (live : ¬ (olderRest = [] ∧ newerRest = [])) : merge.reconstructs = .ok false := by
  have from_older : ∀ {a : Entry} {rest : List Entry},
      merge.Merging written (a :: rest) newerRest target → ∀ commonBits,
      merge.compareHeads = .ok ⟨commonBits, .lt⟩ → merge.reconstructs = .ok false := by
    intro a rest merging commonBits compared
    obtain ⟨_, _, tracks⟩ := merging.older.tracks
    have direct := merging.older.not_fallsBack merge a.value (le_refl a.retained)
    rw [reconstructs, compared, ok_bind]
    simp only
    rw [tracks.peek_ok, ok_bind]
    exact congrArg _ direct
  have from_newer : ∀ {b : Entry} {rest : List Entry},
      merge.Merging written olderRest (b :: rest) target → ∀ commonBits,
      merge.compareHeads = .ok ⟨commonBits, .gt⟩ → merge.reconstructs = .ok false := by
    intro b rest merging commonBits compared
    obtain ⟨_, _, tracks⟩ := merging.newer.tracks
    have direct := merging.newer.not_fallsBack merge b.value (le_refl b.retained)
    rw [reconstructs, compared, ok_bind]
    simp only
    rw [tracks.peek_ok, ok_bind]
    exact congrArg _ direct
  cases olderRest with
  | nil =>
      cases newerRest with
      | nil => exact absurd ⟨rfl, rfl⟩ live
      | cons b newerRest =>
          obtain ⟨_, _, tracks⟩ := merging.older.tracks
          have exhausted : merge.olderCursor.done = true := tracks.done_iff
          exact from_newer merging 0 (by simp [compareHeads, exhausted])
  | cons a olderRest =>
      obtain ⟨_, _, older_tracks⟩ := merging.older.tracks
      have older_live : merge.olderCursor.done = false := older_tracks.done_iff
      cases newerRest with
      | nil =>
          obtain ⟨_, _, tracks⟩ := merging.newer.tracks
          have exhausted : merge.newerCursor.done = true := tracks.done_iff
          exact from_older merging 0 (by simp [compareHeads, older_live, exhausted])
      | cons b newerRest =>
          obtain ⟨_, _, newer_tracks⟩ := merging.newer.tracks
          obtain ⟨⟨commonBits, compared_order⟩, compared, ordered, shares⟩ := merging.compareHeads_ok
          cases compared_order with
          | lt => exact from_older merging commonBits compared
          | gt => exact from_newer merging commonBits compared
          | eq =>
              have same : a.key = b.key := order_eq_eq.mp ordered.symm
              have prefixes : merge.olderPrefix = merge.newerPrefix := by
                rw [merging.older.shared a rfl, merging.newer.shared b rfl, same]
              have limits : min ((a.frame P).retainedBits P) ((b.frame P).retainedBits P) =
                  min a.retained b.retained * P.bitsPerUnit := Nat.mul_min_mul_right _ _ _
              rw [reconstructs, compared, ok_bind]
              simp only
              rw [older_tracks.peek_ok, ok_bind, newer_tracks.peek_ok, ok_bind, limits]
              unfold donor
              split
              · -- The newer frame carries the smaller count.
                rename_i fewer
                have smaller : b.retained < a.retained := fewer.2
                rw [newer_tracks.peek_ok, ok_bind, prefixes]
                exact congrArg _ (merging.newer.not_fallsBack _ _ (by omega))
              · rename_i more
                have smaller : ¬ b.retained < a.retained := fun fewer => more ⟨keyFree, fewer⟩
                rw [older_tracks.peek_ok, ok_bind]
                exact congrArg _ (merging.older.not_fallsBack _ _ (by omega))

end NativeMerge

end Everett

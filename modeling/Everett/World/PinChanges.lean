import Everett.World.Pins

/-!
# Changes of a pin set

An owner assigns what a change of its pin set returns, and keeps its set when the change throws.
The cached signature is the sum of the contributions in every set which changes lead to.
-/

namespace Everett

open Outcome

variable {T E : Type} [Ring E]

/-- An entry as a caller offers it; an empty identity or a null object is none. -/
structure PinItem (T E : Type) where
  objectId : Option Nat
  object : Option T
  contribution : E
  nativeSignature : Option E

namespace PinSet

omit [Ring E] in
/-- `validate`. -/
def validate (item : PinItem T E) : Except String (PinEntry T E) := do
  let objectId ← demand item.objectId "empty pinned object identity"
  let object ← demand item.object "null pinned object"
  .ok ⟨objectId, object, item.contribution, item.nativeSignature⟩

/-- `remove`. -/
def remove (owner : PinSet T E) (objectId : Nat) : Except String (PinSet T E) := do
  let old ← demand (owner.find objectId) "removing an unpinned object identity"
  .ok ⟨owner.entries.filter fun item => item.objectId ≠ objectId,
    owner.signature - old.contribution⟩

/-- The loop of `replace` over its replacements: validate each one and sum the contributions. -/
def offeredSum (owner : PinSet T E) :
    List (PinEntry T E) → List (PinItem T E) → E → Except String (List (PinEntry T E) × E)
  | earlier, [], added => .ok (earlier, added)
  | earlier, item :: rest, added => do
      let entry ← validate item
      require ((owner.find entry.objectId).isSome = false)
        "replacement must name a new immutable object"
      require (∀ other ∈ earlier, other.objectId ≠ entry.objectId)
        "duplicate replacement object identity"
      offeredSum owner (earlier ++ [entry]) rest (added + entry.contribution)

end PinSet

/-- A change of a pin set. -/
inductive PinChange (T E : Type)
  | add (item : PinItem T E)
  | remove (objectId : Nat)
  | replace (expectedInputs : List Nat) (replacements : List (PinItem T E))

namespace PinSet

variable [DecidableEq E]

/-- The set which a change returns. -/
def change (owner : PinSet T E) : PinChange T E → Except String (PinSet T E)
  | .add item => do
      let entry ← validate item
      owner.add entry
  | .remove objectId => owner.remove objectId
  | .replace expectedInputs replacements => do
      let removed ← owner.removedSum [] expectedInputs 0
      let (entries, added) ← owner.offeredSum [] replacements 0
      require (added = removed) "replacement changes the pinned contribution sum"
      let kept := owner.entries.filter fun item => item.objectId ∉ expectedInputs
      .ok ⟨kept ++ entries, owner.signature - removed + added⟩

/-- `owner = owner.change(...)`: the assignment is not reached when the change throws. -/
def assign (owner : PinSet T E) (what : PinChange T E) : Except String Unit × PinSet T E :=
  match owner.change what with
  | .ok next => (.ok (), next)
  | .error e => (.error e, owner)

/-- Sets which changes of an empty set lead to. -/
inductive Reachable : PinSet T E → Prop
  | empty : Reachable empty
  | change {owner : PinSet T E} (reachable : Reachable owner) (what : PinChange T E) :
      Reachable (owner.assign what).2

/-- What every change keeps: identities are unique, and the signature is the sum. -/
structure Exact (owner : PinSet T E) : Prop where
  distinct : (owner.entries.map PinEntry.objectId).Nodup
  signature_eq : owner.signature = owner.recomputeSignature

variable {owner next : PinSet T E}

omit [DecidableEq E] in
theorem exact_empty : (empty : PinSet T E).Exact := ⟨List.nodup_nil, rfl⟩

omit [DecidableEq E] in
theorem Exact.add (exact : owner.Exact) {item : PinEntry T E} (added : owner.add item = .ok next) :
    next.Exact := by
  obtain ⟨_, fresh, done⟩ := bind_eq_ok.mp added
  cases done
  have apart := find_isSome_eq_false.mp (require_eq_ok.mp fresh)
  refine ⟨?_, ?_⟩
  · rw [List.map_append, List.map_singleton, List.nodup_append]
    refine ⟨exact.distinct, List.nodup_singleton _, fun one old two new => ?_⟩
    obtain ⟨entry, member, rfl⟩ := List.mem_map.mp old
    rw [List.mem_singleton.mp new]
    exact apart entry member
  · rw [recomputeSignature_eq_sum, List.map_append, List.sum_append, List.map_singleton,
      List.sum_singleton, ← recomputeSignature_eq_sum, ← exact.signature_eq]

omit [DecidableEq E] [Ring E] in
theorem distinct_filter (exact : (owner.entries.map PinEntry.objectId).Nodup)
    (keep : PinEntry T E → Bool) :
    ((owner.entries.filter keep).map PinEntry.objectId).Nodup :=
  exact.sublist (List.filter_sublist.map _)

omit [DecidableEq E] in
/-- The contributions of the entries with and without a property add up. -/
theorem sum_filter (entries : List (PinEntry T E)) (keep : PinEntry T E → Bool) :
    ((entries.filter keep).map PinEntry.contribution).sum +
      ((entries.filter fun item => !keep item).map PinEntry.contribution).sum =
        (entries.map PinEntry.contribution).sum := by
  rw [← List.sum_append, ← List.map_append]
  exact ((List.filter_append_perm keep entries).map _).sum_eq

omit [DecidableEq E] [Ring E] in
/-- An identity which is found names one of the entries. -/
theorem find_some {objectId : Nat} {entry : PinEntry T E}
    (found : owner.find objectId = some entry) :
    entry ∈ owner.entries ∧ entry.objectId = objectId := by
  refine ⟨List.mem_of_find?_eq_some found, ?_⟩
  simpa using List.find?_some found

/-- Contribution of the entry with an identity. -/
def contributionOf (owner : PinSet T E) (objectId : Nat) : E :=
  ((owner.find objectId).map PinEntry.contribution).getD 0

omit [DecidableEq E] in
theorem removedSum_eq_ok {inputs expected : List Nat} {start removed : E}
    (summed : owner.removedSum inputs expected start = .ok removed) :
    (inputs.Nodup → (inputs ++ expected).Nodup) ∧
      (∀ objectId ∈ expected, ∃ entry ∈ owner.entries, entry.objectId = objectId) ∧
      removed = start + (expected.map owner.contributionOf).sum := by
  induction expected generalizing inputs start with
  | nil =>
      cases summed
      exact ⟨fun distinct => by rwa [List.append_nil],
        fun _ member => absurd member List.not_mem_nil, by simp⟩
  | cons objectId rest induction =>
      obtain ⟨_, new, summed⟩ := bind_eq_ok.mp summed
      obtain ⟨old, found, summed⟩ := bind_eq_ok.mp summed
      have there : owner.find objectId = some old := by
        cases held : owner.find objectId with
        | none => rw [held] at found; cases found
        | some entry => rw [held] at found; cases found; rfl
      obtain ⟨distinct, present, sum⟩ := induction summed
      refine ⟨fun before => ?_, fun other member => ?_, ?_⟩
      · have extended : (inputs ++ [objectId]).Nodup := by
          rw [List.nodup_append]
          exact ⟨before, List.nodup_singleton _, fun one old two only same =>
            require_eq_ok.mp new (List.mem_singleton.mp only ▸ same ▸ old)⟩
        have whole := distinct extended
        rwa [List.append_assoc, List.singleton_append] at whole
      · rcases List.mem_cons.mp member with rfl | later
        · exact ⟨old, find_some there⟩
        · exact present other later
      · rw [sum, List.map_cons, List.sum_cons, contributionOf, there, ← add_assoc]
        rfl

omit [DecidableEq E] in
/-- What the inputs of a replacement contribute together. -/
theorem sum_inputs (distinct : (owner.entries.map PinEntry.objectId).Nodup) {expected : List Nat}
    (unique : expected.Nodup)
    (present : ∀ objectId ∈ expected, ∃ entry ∈ owner.entries, entry.objectId = objectId) :
    (expected.map owner.contributionOf).sum =
      ((owner.entries.filter fun item => item.objectId ∈ expected).map
        PinEntry.contribution).sum := by
  have same : expected.Perm
      ((owner.entries.filter fun item => item.objectId ∈ expected).map PinEntry.objectId) := by
    refine (List.perm_ext_iff_of_nodup unique (distinct_filter distinct _)).mpr fun objectId => ?_
    rw [List.mem_map]
    constructor
    · intro member
      obtain ⟨entry, held, rfl⟩ := present objectId member
      exact ⟨entry, List.mem_filter.mpr ⟨held, decide_eq_true member⟩, rfl⟩
    · rintro ⟨entry, member, rfl⟩
      exact of_decide_eq_true (List.mem_filter.mp member).2
  rw [(same.map owner.contributionOf).sum_eq, List.map_map]
  refine congrArg List.sum (List.map_congr_left fun entry member => ?_)
  rw [Function.comp_apply, contributionOf, find_eq_some distinct (List.mem_filter.mp member).1]
  rfl

omit [DecidableEq E] in
theorem offeredSum_eq_ok {earlier entries : List (PinEntry T E)} {items : List (PinItem T E)}
    {start added : E} (summed : owner.offeredSum earlier items start = .ok (entries, added))
    (sum : start = (earlier.map PinEntry.contribution).sum)
    (fresh : ((owner.entries ++ earlier).map PinEntry.objectId).Nodup) :
    ((owner.entries ++ entries).map PinEntry.objectId).Nodup ∧
      added = (entries.map PinEntry.contribution).sum ∧
      entries.map PinEntry.contribution =
        earlier.map PinEntry.contribution ++ items.map PinItem.contribution := by
  induction items generalizing earlier start with
  | nil =>
      cases summed
      exact ⟨fresh, sum, by simp⟩
  | cons item rest induction =>
      obtain ⟨entry, valid, summed⟩ := bind_eq_ok.mp summed
      obtain ⟨_, new, summed⟩ := bind_eq_ok.mp summed
      obtain ⟨_, other, summed⟩ := bind_eq_ok.mp summed
      have apart := find_isSome_eq_false.mp (require_eq_ok.mp new)
      have contribution : entry.contribution = item.contribution := by
        obtain ⟨objectId, -, valid⟩ := bind_eq_ok.mp valid
        obtain ⟨object, -, valid⟩ := bind_eq_ok.mp valid
        cases valid
        rfl
      obtain ⟨unique, total, all⟩ := induction summed (by simp [sum]) (by
        rw [← List.append_assoc, List.map_append, List.map_singleton, List.nodup_append]
        refine ⟨fresh, List.nodup_singleton _, fun one old two only same => ?_⟩
        obtain ⟨held, member, rfl⟩ := List.mem_map.mp old
        have named : held.objectId = entry.objectId := same.trans (List.mem_singleton.mp only)
        rcases List.mem_append.mp member with standing | offered
        · exact apart held standing named
        · exact require_eq_ok.mp other held offered named)
      refine ⟨unique, total, ?_⟩
      rw [all, List.map_append, List.map_singleton, List.map_cons, List.append_assoc,
        List.singleton_append, contribution]

/-- A replacement which succeeds conserves the sum of the contributions. -/
theorem Exact.replace (exact : owner.Exact) {expectedInputs : List Nat}
    {replacements : List (PinItem T E)}
    (replaced : owner.change (.replace expectedInputs replacements) = .ok next) :
    next.Exact ∧ next.signature = owner.signature ∧
      ((owner.entries.filter fun item => item.objectId ∈ expectedInputs).map
        PinEntry.contribution).sum = (replacements.map PinItem.contribution).sum := by
  obtain ⟨removed, inputs, replaced⟩ := bind_eq_ok.mp replaced
  obtain ⟨⟨entries, added⟩, outputs, replaced⟩ := bind_eq_ok.mp replaced
  obtain ⟨_, conserved, replaced⟩ := bind_eq_ok.mp replaced
  cases replaced
  obtain ⟨unique, present, removed_sum⟩ := removedSum_eq_ok inputs
  have expected_unique : expectedInputs.Nodup := unique List.nodup_nil
  rw [zero_add, sum_inputs exact.distinct expected_unique present] at removed_sum
  obtain ⟨fresh, added_sum, offered⟩ := offeredSum_eq_ok outputs rfl (by
    rw [List.append_nil]
    exact exact.distinct)
  have same : added = removed := require_eq_ok.mp conserved
  have split := sum_filter owner.entries fun item => decide (item.objectId ∈ expectedInputs)
  have kept : (owner.entries.filter fun item => decide (item.objectId ∉ expectedInputs)) =
      owner.entries.filter fun item => !decide (item.objectId ∈ expectedInputs) :=
    List.filter_congr fun item _ => decide_not
  refine ⟨⟨?_, ?_⟩, ?_, ?_⟩
  · refine fresh.sublist ?_
    rw [List.map_append, List.map_append]
    exact (List.filter_sublist.map _).append (List.Sublist.refl _)
  · change owner.signature - removed + added = _
    rw [recomputeSignature_eq_sum, List.map_append, List.sum_append, kept, ← added_sum,
      exact.signature_eq, recomputeSignature_eq_sum, ← split, ← removed_sum, add_sub_cancel_left]
  · change owner.signature - removed + added = _
    rw [same, sub_add_cancel]
  · rw [← removed_sum, ← same, added_sum, offered, List.map_nil, List.nil_append]

omit [DecidableEq E] in
theorem Exact.remove (exact : owner.Exact) {objectId : Nat}
    (removed : owner.remove objectId = .ok next) : next.Exact := by
  obtain ⟨old, found, removed⟩ := bind_eq_ok.mp removed
  cases removed
  have there : owner.find objectId = some old := by
    cases held : owner.find objectId with
    | none => rw [held] at found; cases found
    | some entry => rw [held] at found; cases found; rfl
  obtain ⟨member, rfl⟩ := find_some there
  have single := sum_inputs exact.distinct (List.nodup_singleton old.objectId) (by
    intro other only
    exact ⟨old, member, (List.mem_singleton.mp only).symm⟩)
  have split := sum_filter owner.entries fun item => decide (item.objectId ∈ [old.objectId])
  have kept : (owner.entries.filter fun item => decide (item.objectId ≠ old.objectId)) =
      owner.entries.filter fun item => !decide (item.objectId ∈ [old.objectId]) :=
    List.filter_congr fun item _ => by simp
  refine ⟨distinct_filter exact.distinct _, ?_⟩
  change owner.signature - old.contribution = _
  rw [List.map_singleton, List.sum_singleton, contributionOf, there, Option.map_some,
    Option.getD_some] at single
  rw [recomputeSignature_eq_sum, kept, exact.signature_eq, recomputeSignature_eq_sum, ← split,
    ← single, add_sub_cancel_left]

theorem Exact.change (exact : owner.Exact) {what : PinChange T E}
    (changed : owner.change what = .ok next) : next.Exact := by
  cases what with
  | add item =>
      obtain ⟨entry, -, added⟩ := bind_eq_ok.mp changed
      exact exact.add added
  | remove objectId => exact exact.remove changed
  | replace expectedInputs replacements => exact (exact.replace changed).1

/-- The cached signature of every set which can exist is the sum of the contributions. -/
theorem Reachable.exact (reachable : Reachable owner) : owner.Exact := by
  induction reachable with
  | empty => exact exact_empty
  | @change owner _ what induction =>
      unfold assign
      cases changed : owner.change what with
      | ok next => exact induction.change changed
      | error e => exact induction

/-- An entry as it is offered. -/
def offer (entry : PinEntry T E) : PinItem T E :=
  ⟨some entry.objectId, some entry.object, entry.contribution, entry.nativeSignature⟩

omit [DecidableEq E] in
theorem offeredSum_offer (earlier items : List (PinEntry T E)) (start : E) :
    owner.offeredSum earlier (items.map offer) start =
      (owner.addedSum earlier items start).map fun added => (earlier ++ items, added) := by
  induction items generalizing earlier start with
  | nil =>
      rw [List.append_nil]
      rfl
  | cons item items induction =>
      have valid : validate (offer item) = .ok item := rfl
      rw [List.map_cons, offeredSum, valid, ok_bind, addedSum]
      by_cases new : (owner.find item.objectId).isSome = false
      · by_cases other : ∀ one ∈ earlier, one.objectId ≠ item.objectId
        · simp only [require_true new, require_true other, ok_bind, induction, List.append_assoc,
            List.singleton_append]
        · simp only [require, if_pos new, if_neg other]
          rfl
      · simp only [require, if_neg new]
        rfl

/-- The replacement which a compaction makes is a change of its pin set. -/
theorem change_offer (inputs : List Nat) (items : List (PinEntry T E)) :
    owner.change (.replace inputs (items.map offer)) = owner.replace inputs items := by
  unfold change replace
  dsimp only
  rw [offeredSum_offer, List.nil_append]
  cases owner.removedSum [] inputs 0 with
  | error e => rfl
  | ok removed =>
      rw [ok_bind, ok_bind]
      cases owner.addedSum [] items 0 with
      | error e => rfl
      | ok added => rfl

/-- A change which throws leaves the set as it was. -/
theorem assign_error {what : PinChange T E} {e : String} {after : PinSet T E}
    (failed : owner.assign what = (.error e, after)) : after = owner := by
  unfold assign at failed
  cases changed : owner.change what with
  | ok next => rw [changed] at failed; cases failed
  | error fault => rw [changed] at failed; cases failed; rfl

end PinSet

end Everett

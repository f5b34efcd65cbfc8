import Everett.Registry.Accounts

/-!
# Exactness of the registry

Registries are replaced, cleared and moved in any order.  Every registry then holds exactly what its
roots reach, with one reference for each root and each edge of a live pair.
-/

namespace Everett.Retention

open Catalog (ObjectId BlobIdentity)
open Ownership CountedTable OwnerGraph

variable {Pair Native : Type} [DecidableEq Pair] [DecidableEq Native]

namespace OwnerGraph

variable (graph : OwnerGraph Pair Native)

/-- Pairs which a list of roots reaches along main targets. -/
inductive Reaches (roots : List Pair) : Pair → Prop
  | root {value : Pair} (member : value ∈ roots) : Reaches roots value
  | main {value target : Pair} (reached : Reaches roots value)
      (edge : graph.mainTarget value = some target) : Reaches roots target

end OwnerGraph

/-- Entries, counts and lookups of a registry are those of the closure of its roots. -/
structure Exact (graph : OwnerGraph Pair Native) (registry : RuntimeRegistry Pair Native)
    (live : Finset Pair) : Prop where
  /-- The live pairs are those which the roots reach. -/
  live_iff : ∀ value, value ∈ live ↔ graph.Reaches registry.pairRoots value
  /-- Every live pair is entered with its roots and the live pairs above it. -/
  pairs : ∀ key found, registry.pairs.lookup key = some found ↔
    found.value ∈ live ∧ (graph.identity found.value).index = key ∧
      found.references = registry.pairRoots.count found.value +
        (live.filter fun value => graph.mainTarget value = some found.value).card
  /-- Every native root, native owner and secondary is entered with its roots and owners. -/
  natives : ∀ key found, registry.natives.lookup key = some found ↔
    ((key, found.value) ∈ registry.nativeRoots ∨
      ∃ value ∈ live, graph.nativeOf value = (key, found.value) ∨
        graph.secondaryTarget value = some (key, found.value)) ∧
      found.references = registry.nativeRoots.count (key, found.value) +
        ((live.filter fun value => graph.nativeOf value = (key, found.value)).card +
          (live.filter fun value => graph.secondaryTarget value = some (key, found.value)).card)

variable {graph : OwnerGraph Pair Native}

theorem mainDemand_apply (value target : Pair) :
    graph.mainDemand value target = if graph.mainTarget value = some target then 1 else 0 := by
  unfold mainDemand
  cases found : graph.mainTarget value with
  | none => rfl
  | some main => by_cases same : main = target <;> simp [same]

theorem secondaryDemand_apply (value : Pair) (native : ObjectId × Native) :
    graph.secondaryDemand value native =
      if graph.secondaryTarget value = some native then 1 else 0 := by
  unfold secondaryDemand
  cases found : graph.secondaryTarget value with
  | none => rfl
  | some secondary => by_cases same : secondary = native <;> simp [same]

theorem reachable_iff {roots : List Pair} {value : Pair} :
    Reachable graph.owners (tokensOf roots) value ↔ graph.Reaches roots value := by
  constructor
  · intro reached
    induction reached with
    | root token =>
        rw [tokensOf_apply, Ne, List.count_eq_zero, not_not] at token
        exact .root token
    | @child u v reached owned induction =>
        change graph.mainDemand u v ≠ 0 at owned
        rw [mainDemand_apply] at owned
        refine .main induction ?_
        by_contra other
        exact owned (if_neg other)
  · intro reached
    induction reached with
    | root member =>
        refine .root ?_
        rw [tokensOf_apply, Ne, List.count_eq_zero, not_not]
        exact member
    | @main u v reached edge induction =>
        refine .child induction ?_
        change graph.mainDemand u v ≠ 0
        rw [mainDemand_apply, if_pos edge]
        exact one_ne_zero

/-- A registry accounts for its roots. -/
def Settled (graph : OwnerGraph Pair Native) (registry : RuntimeRegistry Pair Native) : Prop :=
  graph.Accounts ∅ (tokensOf registry.pairRoots) (tokensOf registry.nativeRoots) registry.pairs
    registry.natives

theorem settled_empty : Settled graph (RuntimeRegistry.empty : RuntimeRegistry Pair Native) :=
  ⟨0, 0, counts_empty, counts_empty, by constructor <;> simp [tokensOf, RuntimeRegistry.empty]⟩

theorem Settled.exact {registry : RuntimeRegistry Pair Native} (settled : Settled graph registry) :
    ∃ live, Exact graph registry live := by
  obtain ⟨count, nativeCount, counts, nativeCounts, balanced⟩ := settled
  refine ⟨count.support, ?_, ?_, ?_⟩
  · intro value
    rw [Finsupp.mem_support_iff, balanced.live_iff, reachable_iff]
  · rintro key ⟨value, references⟩
    have total : count value = registry.pairRoots.count value +
        (count.support.filter fun u => graph.mainTarget u = some value).card := by
      rw [balanced.count_eq, tokensOf_apply, Finset.sdiff_empty, Finset.card_filter]
      exact congrArg _ (Finset.sum_congr rfl fun u _ => mainDemand_apply u value)
    rw [counts key value references, ← total, Finsupp.mem_support_iff]
    constructor
    · rintro ⟨a, placed, rfl, positive⟩
      cases placed
      exact ⟨positive, rfl, rfl⟩
    · rintro ⟨positive, rfl, rfl⟩
      exact ⟨value, rfl, rfl, positive⟩
  · rintro key ⟨value, references⟩
    have total : nativeCount (key, value) = registry.nativeRoots.count (key, value) +
        ((count.support.filter fun u => graph.nativeOf u = (key, value)).card +
          (count.support.filter fun u => graph.secondaryTarget u = some (key, value)).card) := by
      have demand : ∀ u ∈ count.support, graph.owners.leaves u (key, value) =
          (if graph.nativeOf u = (key, value) then 1 else 0) +
            if graph.secondaryTarget u = some (key, value) then 1 else 0 := by
        intro u _
        rw [show graph.owners.leaves u = .single (graph.nativeOf u) 1 + graph.secondaryDemand u
          from rfl, Finsupp.add_apply, secondaryDemand_apply, Finsupp.single_apply]
      rw [balanced.leafCount_eq, tokensOf_apply, Finset.sdiff_empty, Finset.sum_congr rfl demand,
        Finset.sum_add_distrib, Finset.card_filter, Finset.card_filter]
    rw [nativeCounts key value references, ← total]
    have owned : nativeCount (key, value) ≠ 0 ↔ (key, value) ∈ registry.nativeRoots ∨
        ∃ u ∈ count.support, graph.nativeOf u = (key, value) ∨
          graph.secondaryTarget u = some (key, value) := by
      rw [total, ← Nat.pos_iff_ne_zero, Nat.add_pos_iff_pos_or_pos, Nat.add_pos_iff_pos_or_pos,
        List.count_pos_iff, Finset.card_pos, Finset.card_pos, Finset.filter_nonempty_iff,
        Finset.filter_nonempty_iff]
      simp only [and_or_left, exists_or]
    rw [← owned]
    constructor
    · rintro ⟨a, rfl, rfl, positive⟩
      exact ⟨positive, rfl⟩
    · rintro ⟨positive, rfl⟩
      exact ⟨(key, value), rfl, rfl, positive⟩

section Lookups

variable {registry : RuntimeRegistry Pair Native} {live : Finset Pair}

theorem Exact.entered (exact : Exact graph registry live) {value : Pair}
    (reached : graph.Reaches registry.pairRoots value) :
    ∃ references,
      registry.pairs.lookup (graph.identity value).index = some ⟨value, references⟩ :=
  ⟨registry.pairRoots.count value +
      (live.filter fun other => graph.mainTarget other = some value).card,
    (exact.pairs _ _).mpr ⟨(exact.live_iff value).mpr reached, rfl, rfl⟩⟩

/-- A pair is found exactly when it is authorised. -/
theorem Exact.pair_eq_some (exact : Exact graph registry live) {id : BlobIdentity} {value : Pair} :
    registry.pair graph id = .ok (some value) ↔
      graph.Reaches registry.pairRoots value ∧ graph.identity value = id := by
  unfold RuntimeRegistry.pair
  cases entry : registry.pairs.lookup id.index with
  | none =>
      refine iff_of_false (by simp) ?_
      rintro ⟨reached, rfl⟩
      obtain ⟨references, present⟩ := exact.entered reached
      rw [entry] at present
      cases present
  | some found =>
      obtain ⟨member, key, -⟩ := (exact.pairs _ _).mp entry
      dsimp only
      constructor
      · split
        · exact fun failed => nomatch failed
        · rename_i same
          rintro ⟨⟩
          exact ⟨(exact.live_iff _).mp member, not_not.mp same⟩
      · rintro ⟨reached, rfl⟩
        obtain ⟨references, present⟩ := exact.entered reached
        rw [entry] at present
        cases present
        exact if_neg (not_not.mpr rfl)

/-- Nothing is found exactly when no authorised pair has the index. -/
theorem Exact.pair_eq_none (exact : Exact graph registry live) {id : BlobIdentity} :
    registry.pair graph id = .ok none ↔
      ∀ value, graph.Reaches registry.pairRoots value →
        (graph.identity value).index ≠ id.index := by
  unfold RuntimeRegistry.pair
  cases entry : registry.pairs.lookup id.index with
  | none =>
      refine iff_of_true rfl fun value reached key => ?_
      obtain ⟨references, present⟩ := exact.entered reached
      rw [key, entry] at present
      cases present
  | some found =>
      obtain ⟨member, key, -⟩ := (exact.pairs _ _).mp entry
      refine iff_of_false ?_ fun absent =>
        absent found.value ((exact.live_iff _).mp member) key
      dsimp only
      split <;> exact fun failed => nomatch failed

/-- The remaining lookups throw: an authorised pair has the index and another native. -/
theorem Exact.pair_error (exact : Exact graph registry live) {id : BlobIdentity} :
    (∃ text, registry.pair graph id = .error text) ↔
      ∃ value, graph.Reaches registry.pairRoots value ∧
        (graph.identity value).index = id.index ∧ graph.identity value ≠ id := by
  constructor
  · rintro ⟨text, failed⟩
    unfold RuntimeRegistry.pair at failed
    cases entry : registry.pairs.lookup id.index with
    | none =>
        rw [entry] at failed
        cases failed
    | some found =>
        obtain ⟨member, key, -⟩ := (exact.pairs _ _).mp entry
        refine ⟨found.value, (exact.live_iff _).mp member, key, fun same => ?_⟩
        rw [entry] at failed
        dsimp only at failed
        rw [if_neg (not_not.mpr same)] at failed
        cases failed
  · rintro ⟨value, reached, key, other⟩
    obtain ⟨references, present⟩ := exact.entered reached
    refine ⟨"checkpoint index has another native identity", ?_⟩
    unfold RuntimeRegistry.pair
    rw [← key, present]
    exact if_pos other

/-- A native object is found exactly when a root or a live pair owns it. -/
theorem Exact.native_eq_some (exact : Exact graph registry live) {id : ObjectId} {value : Native} :
    registry.native id = some value ↔ (id, value) ∈ registry.nativeRoots ∨
      ∃ owner, graph.Reaches registry.pairRoots owner ∧
        (graph.nativeOf owner = (id, value) ∨ graph.secondaryTarget owner = some (id, value)) := by
  simp only [← exact.live_iff]
  unfold RuntimeRegistry.native
  rw [Option.map_eq_some_iff]
  constructor
  · rintro ⟨found, entry, rfl⟩
    exact ((exact.natives _ _).mp entry).1
  · intro owned
    exact ⟨⟨value, registry.nativeRoots.count (id, value) +
      ((live.filter fun owner => graph.nativeOf owner = (id, value)).card +
        (live.filter fun owner => graph.secondaryTarget owner = some (id, value)).card)⟩,
      (exact.natives _ _).mpr ⟨owned, rfl⟩, rfl⟩

end Lookups

/-- Acquiring and accounting: an accepted acquisition adds its token. -/
theorem acquirePair_accounts {tokens : Pair →₀ ℕ} {nativeTokens : ObjectId × Native →₀ ℕ}
    {store : Store Pair Native} (value : Pair)
    (accounts : graph.Accounts ∅ tokens nativeTokens store.pairs store.natives) :
    ∃ answer after, graph.acquirePair value store = some (answer, after) ∧
      graph.Accounts ∅ (tokens + if answer = .accepted then .single value 1 else 0) nativeTokens
        after.pairs after.natives := by
  obtain ⟨count, nativeCount, counts, nativeCounts, balanced⟩ := accounts
  obtain ⟨answer, after, acquired, outcome⟩ := acquirePair_spec
    (fun u member => absurd member (Finset.notMem_empty u)) counts nativeCounts balanced
  refine ⟨answer, after, acquired, ?_⟩
  rcases outcome with ⟨rfl, later, nativeLater, laterCounts, nativeLaterCounts, balanced, -⟩ |
    ⟨failed, sameCounts, sameNatives⟩
  · exact ⟨later, nativeLater, laterCounts, nativeLaterCounts, balanced⟩
  · rw [if_neg failed, add_zero]
    exact ⟨count, nativeCount, sameCounts, sameNatives, balanced⟩

theorem acquirePairs_accounts {tokens : Pair →₀ ℕ} {nativeTokens : ObjectId × Native →₀ ℕ}
    (roots acquired : List Pair) (store : Store Pair Native)
    (accounts : graph.Accounts ∅ (tokens + tokensOf acquired) nativeTokens store.pairs
      store.natives) :
    ∃ answer held after,
      RuntimeRegistry.acquirePairs graph acquired roots store = some (answer, held, after) ∧
      graph.Accounts ∅ (tokens + tokensOf held) nativeTokens after.pairs after.natives ∧
      (answer = .accepted → held = roots.reverse ++ acquired) := by
  induction roots generalizing acquired store with
  | nil => exact ⟨_, _, _, rfl, accounts, fun _ => rfl⟩
  | cons value rest induction =>
      obtain ⟨answer, next, acquiredValue, nextAccounts⟩ := acquirePair_accounts value accounts
      unfold RuntimeRegistry.acquirePairs
      rw [acquiredValue, Option.bind_eq_bind, Option.bind_some]
      dsimp only
      split
      · rename_i failed
        rw [if_neg failed, add_zero] at nextAccounts
        exact ⟨_, _, _, rfl, nextAccounts, fun accepted => absurd accepted failed⟩
      · rename_i accepted
        rw [if_pos (not_not.mp accepted), add_assoc] at nextAccounts
        obtain ⟨last, held, after, done, settled, complete⟩ :=
          induction (value :: acquired) next nextAccounts
        refine ⟨last, held, after, done, settled, fun accepted => ?_⟩
        rw [complete accepted, List.reverse_cons, List.append_assoc]
        rfl

theorem acquireNatives_accounts {tokens : Pair →₀ ℕ} {nativeTokens : ObjectId × Native →₀ ℕ}
    (roots acquired : List (ObjectId × Native)) (store : Store Pair Native)
    (accounts : graph.Accounts ∅ tokens (nativeTokens + tokensOf acquired) store.pairs
      store.natives) :
    ∃ answer held after,
      RuntimeRegistry.acquireNatives acquired roots store = (answer, held, after) ∧
      graph.Accounts ∅ tokens (nativeTokens + tokensOf held) after.pairs after.natives ∧
      (answer = .accepted → held = roots.reverse ++ acquired) := by
  induction roots generalizing acquired store with
  | nil => exact ⟨_, _, _, rfl, accounts, fun _ => rfl⟩
  | cons value rest induction =>
      obtain ⟨count, nativeCount, counts, nativeCounts, balanced⟩ := accounts
      obtain ⟨answer, next, acquiredValue, samePairs, outcome⟩ :=
        acquireNative_spec nativeCounts value
      unfold RuntimeRegistry.acquireNatives
      rw [acquiredValue]
      dsimp only
      rcases outcome with ⟨rfl, nextCounts⟩ | ⟨failed, sameNatives⟩
      · rw [if_neg (not_not.mpr rfl)]
        obtain ⟨last, held, after, done, settled, complete⟩ := induction (value :: acquired) next
          ⟨count, _, samePairs ▸ counts, nextCounts, by
            rw [tokensOf, ← add_assoc]
            exact (Balanced.leaf _).mpr balanced⟩
        refine ⟨last, held, after, done, settled, fun accepted => ?_⟩
        rw [complete accepted, List.reverse_cons, List.append_assoc]
        rfl
      · rw [if_pos failed]
        exact ⟨_, _, _, rfl, ⟨count, nativeCount, samePairs ▸ counts, sameNatives ▸ nativeCounts,
          balanced⟩, fun accepted => absurd accepted failed⟩

theorem releaseNatives_accounts {tokens : Pair →₀ ℕ} {nativeTokens : ObjectId × Native →₀ ℕ}
    (roots : List (ObjectId × Native)) {pairs : CountedTable ObjectId Pair}
    {natives : CountedTable ObjectId Native}
    (accounts : graph.Accounts ∅ tokens (nativeTokens + tokensOf roots) pairs natives) :
    ∃ after, RuntimeRegistry.releaseNatives roots natives = some after ∧
      graph.Accounts ∅ tokens nativeTokens pairs after := by
  induction roots generalizing natives with
  | nil => exact ⟨natives, rfl, by simpa [tokensOf] using accounts⟩
  | cons value rest induction =>
      rw [tokensOf, ← add_assoc] at accounts
      obtain ⟨next, released, nextAccounts⟩ := accounts.releaseNative
      obtain ⟨after, done, settled⟩ := induction nextAccounts
      refine ⟨after, ?_, settled⟩
      unfold RuntimeRegistry.releaseNatives
      rw [released]
      exact done

theorem releasePairs_accounts {tokens : Pair →₀ ℕ} {nativeTokens : ObjectId × Native →₀ ℕ}
    (roots : List Pair) {pairs : CountedTable ObjectId Pair}
    {natives : CountedTable ObjectId Native}
    (accounts : graph.Accounts ∅ (tokens + tokensOf roots) nativeTokens pairs natives) :
    ∃ after afterNatives,
      RuntimeRegistry.releasePairs graph roots pairs natives = some (after, afterNatives) ∧
      graph.Accounts ∅ tokens nativeTokens after afterNatives := by
  induction roots generalizing pairs natives with
  | nil => exact ⟨pairs, natives, rfl, by simpa [tokensOf] using accounts⟩
  | cons value rest induction =>
      rw [tokensOf, ← add_assoc] at accounts
      obtain ⟨next, nextNatives, released, nextAccounts⟩ := releasePair_accounts
        (fun u member => absurd member (Finset.notMem_empty u)) accounts
      obtain ⟨after, afterNatives, done, settled⟩ := induction nextAccounts
      refine ⟨after, afterNatives, ?_, settled⟩
      unfold RuntimeRegistry.releasePairs
      rw [released]
      exact done

/-- A replacement which is refused or throws restores the registry; an accepted one settles the new
roots. -/
theorem Settled.replace {registry : RuntimeRegistry Pair Native} (settled : Settled graph registry)
    (pairs : List Pair) (natives : List (ObjectId × Native)) (allocations : List Bool) :
    ∃ answer after, registry.replace graph pairs natives allocations = some (answer, after) ∧
      Settled graph after ∧
      (answer = .accepted → after.pairRoots = pairs ∧ after.nativeRoots = natives) ∧
      (answer ≠ .accepted → after = registry) := by
  -- both loops over the new roots, on top of the old ones
  obtain ⟨pairAnswer, held, middle, acquired, middleAccounts, complete⟩ :=
    acquirePairs_accounts pairs [] ⟨registry.pairs, registry.natives, allocations⟩
      (show graph.Accounts ∅ (tokensOf registry.pairRoots + tokensOf []) _ _ _ by
        rw [tokensOf, add_zero]; exact settled)
  obtain ⟨answer, heldNatives, store, acquiredNatives, accounts, completeNatives⟩ :
      ∃ answer heldNatives store,
        (if pairAnswer ≠ .accepted then (pairAnswer, [], middle)
          else RuntimeRegistry.acquireNatives [] natives middle) = (answer, heldNatives, store) ∧
        graph.Accounts ∅ (tokensOf registry.pairRoots + tokensOf held)
          (tokensOf registry.nativeRoots + tokensOf heldNatives) store.pairs store.natives ∧
        (answer = .accepted → held = pairs.reverse ∧ heldNatives = natives.reverse) := by
    by_cases accepted : pairAnswer = .accepted
    · obtain ⟨answer, heldNatives, store, done, accounts, completeNatives⟩ :=
        acquireNatives_accounts natives [] middle
          (show graph.Accounts ∅ _ (tokensOf registry.nativeRoots + tokensOf []) _ _ by
            rw [tokensOf, add_zero]; exact middleAccounts)
      refine ⟨answer, heldNatives, store, by rw [if_neg (not_not.mpr accepted), done], accounts,
        fun granted => ⟨?_, ?_⟩⟩
      · rw [complete accepted, List.append_nil]
      · rw [completeNatives granted, List.append_nil]
    · exact ⟨pairAnswer, [], middle, if_pos accepted, by rwa [tokensOf, add_zero],
        fun granted => absurd granted accepted⟩
  unfold RuntimeRegistry.replace
  rw [acquired, Option.bind_eq_bind, Option.bind_some]
  dsimp only
  rw [acquiredNatives]
  dsimp only
  by_cases accepted : answer = .accepted
  · -- the old roots are released, the new ones stay
    obtain ⟨rfl, rfl⟩ := completeNatives accepted
    rw [add_comm (tokensOf registry.pairRoots), add_comm (tokensOf registry.nativeRoots),
      tokensOf_reverse, tokensOf_reverse] at accounts
    obtain ⟨nativeTable, releasedNatives, accounts⟩ :=
      releaseNatives_accounts registry.nativeRoots accounts
    obtain ⟨pairTable, last, releasedPairs, accounts⟩ :=
      releasePairs_accounts registry.pairRoots accounts
    rw [if_neg (not_not.mpr accepted), releasedNatives, Option.bind_eq_bind, Option.bind_some,
      releasedPairs]
    exact ⟨.accepted, _, rfl, accounts, fun _ => ⟨rfl, rfl⟩, fun failed => absurd rfl failed⟩
  · -- what was acquired is released again
    obtain ⟨nativeTable, releasedNatives, accounts⟩ :=
      releaseNatives_accounts heldNatives accounts
    obtain ⟨pairTable, last, releasedPairs, accounts⟩ := releasePairs_accounts held accounts
    obtain ⟨rfl, rfl⟩ := accounts.unique settled
    rw [if_pos accepted, releasedNatives, Option.bind_eq_bind, Option.bind_some, releasedPairs]
    exact ⟨_, _, rfl, settled, fun granted => absurd granted accepted, fun _ => rfl⟩

theorem Settled.clear {registry : RuntimeRegistry Pair Native} (settled : Settled graph registry) :
    registry.clear graph = some .empty := by
  obtain ⟨natives, released, accounts⟩ := releaseNatives_accounts registry.nativeRoots
    (show graph.Accounts ∅ _ (0 + tokensOf registry.nativeRoots) _ _ by
      rw [zero_add]; exact settled)
  obtain ⟨pairs, last, done, -⟩ := releasePairs_accounts registry.pairRoots
    (show graph.Accounts ∅ (0 + tokensOf registry.pairRoots) _ _ _ by
      rw [zero_add]; exact accounts)
  unfold RuntimeRegistry.clear
  rw [released, Option.bind_eq_bind, Option.bind_some, done]
  rfl

/-- Operations on the registries of a program. -/
inductive Operation (Name Pair Native : Type)
  | replace (name : Name) (pairs : List Pair) (natives : List (ObjectId × Native))
      (allocations : List Bool)
  | clear (name : Name)
  /-- A new registry takes over another one; the one before it under its name is destroyed. -/
  | moveConstruct (target source : Name) (distinct : target ≠ source)
  | moveAssign (target source : Name)

/-- What an operation returns. -/
inductive Reply
  | done
  | replaced (answer : Acquired)
  deriving DecidableEq, Repr

section Programs

variable {Name : Type} [DecidableEq Name]

/-- Roots and entries of two registries are exchanged. -/
def swapRoots (target source : Name) (registries : Name → RuntimeRegistry Pair Native) :
    Name → RuntimeRegistry Pair Native :=
  Function.update (Function.update registries target (registries source)) source
    (registries target)

/-- One operation, which is undefined where a release is. -/
def perform (graph : OwnerGraph Pair Native) (registries : Name → RuntimeRegistry Pair Native) :
    Operation Name Pair Native → Option (Reply × (Name → RuntimeRegistry Pair Native))
  | .replace name pairs natives allocations => do
      let (answer, after) ← (registries name).replace graph pairs natives allocations
      return (.replaced answer, Function.update registries name after)
  | .clear name => do
      let after ← (registries name).clear graph
      return (.done, Function.update registries name after)
  | .moveConstruct target source _ => do
      let _ ← (registries target).clear graph
      return (.done, swapRoots target source (Function.update registries target .empty))
  | .moveAssign target source =>
      if target ≠ source then do
        let cleared ← (registries target).clear graph
        return (.done, swapRoots target source (Function.update registries target cleared))
      else some (.done, registries)

/-- The registries after a sequence of operations on empty ones. -/
def run (graph : OwnerGraph Pair Native) (operations : List (Operation Name Pair Native)) :
    Option (Name → RuntimeRegistry Pair Native) :=
  operations.foldlM (fun registries operation => (perform graph registries operation).map Prod.snd)
    fun _ => .empty

variable {registries : Name → RuntimeRegistry Pair Native}

/-- The source gives everything to the target. -/
def moved (target source : Name) (registries : Name → RuntimeRegistry Pair Native) :
    Name → RuntimeRegistry Pair Native :=
  Function.update (Function.update registries target (registries source)) source .empty

/-- What an operation does: a replacement which is not accepted changes nothing, and an accepted one
installs its roots in its own registry only. -/
def Outcome (registries after : Name → RuntimeRegistry Pair Native) :
    Operation Name Pair Native → Reply → Prop
  | .replace name pairs natives _, .replaced .accepted =>
      (after name).pairRoots = pairs ∧ (after name).nativeRoots = natives ∧
        ∀ other, other ≠ name → after other = registries other
  | .replace .., reply => reply ≠ .done ∧ after = registries
  | .clear name, reply => reply = .done ∧ after = Function.update registries name .empty
  | .moveConstruct target source _, reply =>
      reply = .done ∧ after = moved target source registries
  | .moveAssign target source, reply =>
      reply = .done ∧ after = if target = source then registries else moved target source registries

theorem swapRoots_empty {target source : Name} (distinct : target ≠ source) :
    swapRoots target source (Function.update registries target .empty) =
      moved target source registries := by
  unfold swapRoots moved
  rw [Function.update_self, Function.update_of_ne distinct.symm, Function.update_idem]

theorem settled_update (settled : ∀ name, Settled graph (registries name)) {name : Name}
    {registry : RuntimeRegistry Pair Native} (one : Settled graph registry) :
    ∀ other, Settled graph (Function.update registries name registry other) := by
  intro other
  by_cases same : other = name
  · subst same
    rw [Function.update_self]
    exact one
  · rw [Function.update_of_ne same]
    exact settled other

theorem settled_moved (settled : ∀ name, Settled graph (registries name)) (target source : Name) :
    ∀ other, Settled graph (moved target source registries other) :=
  settled_update (settled_update settled (settled source)) settled_empty

/-- One operation on settled registries is defined and leaves them settled. -/
theorem perform_settled (settled : ∀ name, Settled graph (registries name))
    (operation : Operation Name Pair Native) :
    ∃ reply after, perform graph registries operation = some (reply, after) ∧
      (∀ name, Settled graph (after name)) ∧ Outcome registries after operation reply := by
  cases operation with
  | replace name pairs natives allocations =>
      obtain ⟨answer, after, replaced, one, accepted, rejected⟩ :=
        (settled name).replace pairs natives allocations
      refine ⟨.replaced answer, Function.update registries name after, ?_,
        settled_update settled one, ?_⟩
      · exact Option.bind_eq_some_iff.mpr ⟨(answer, after), replaced, rfl⟩
      · cases answer with
        | accepted =>
            refine ⟨?_, ?_, fun other apart => Function.update_of_ne apart ..⟩
            · rw [Function.update_self]
              exact (accepted rfl).1
            · rw [Function.update_self]
              exact (accepted rfl).2
        | refused =>
            rw [rejected (by decide), Function.update_eq_self]
            exact ⟨by decide, rfl⟩
        | thrown =>
            rw [rejected (by decide), Function.update_eq_self]
            exact ⟨by decide, rfl⟩
  | clear name =>
      exact ⟨.done, _, Option.bind_eq_some_iff.mpr ⟨_, (settled name).clear, rfl⟩,
        settled_update settled settled_empty, rfl, rfl⟩
  | moveConstruct target source distinct =>
      refine ⟨.done, moved target source registries, ?_, settled_moved settled target source,
        rfl, rfl⟩
      rw [← swapRoots_empty distinct]
      exact Option.bind_eq_some_iff.mpr ⟨_, (settled target).clear, rfl⟩
  | moveAssign target source =>
      by_cases distinct : target = source
      · exact ⟨.done, registries, if_neg (not_not.mpr distinct), settled, rfl,
          (if_pos distinct).symm⟩
      · refine ⟨.done, moved target source registries, ?_, settled_moved settled target source,
          rfl, (if_neg distinct).symm⟩
        rw [← swapRoots_empty distinct]
        exact (if_pos distinct).trans
          (Option.bind_eq_some_iff.mpr ⟨_, (settled target).clear, rfl⟩)

theorem run_concat (operations : List (Operation Name Pair Native))
    (operation : Operation Name Pair Native) :
    run graph (operations ++ [operation]) = (run graph operations).bind fun registries =>
      (perform graph registries operation).map Prod.snd := by
  unfold run
  rw [List.foldlM_append]
  simp

theorem run_settled (graph : OwnerGraph Pair Native)
    (operations : List (Operation Name Pair Native)) :
    ∃ registries, run graph operations = some registries ∧
      ∀ name, Settled graph (registries name) := by
  induction operations using List.reverseRecOn with
  | nil => exact ⟨_, rfl, fun _ => settled_empty⟩
  | append_singleton operations operation induction =>
      obtain ⟨registries, reached, settled⟩ := induction
      obtain ⟨reply, after, performed, afterSettled, -⟩ := perform_settled settled operation
      refine ⟨after, ?_, afterSettled⟩
      rw [run_concat, reached, Option.bind_some, performed]
      rfl

/-- Lookups return the authorised owners. -/
structure Authorised (graph : OwnerGraph Pair Native) (registry : RuntimeRegistry Pair Native) :
    Prop where
  pair : ∀ id value, registry.pair graph id = .ok (some value) ↔
    graph.Reaches registry.pairRoots value ∧ graph.identity value = id
  noPair : ∀ id, registry.pair graph id = .ok none ↔
    ∀ value, graph.Reaches registry.pairRoots value → (graph.identity value).index ≠ id.index
  otherPair : ∀ id, (∃ text, registry.pair graph id = .error text) ↔
    ∃ value, graph.Reaches registry.pairRoots value ∧
      (graph.identity value).index = id.index ∧ graph.identity value ≠ id
  native : ∀ id value, registry.native id = some value ↔ (id, value) ∈ registry.nativeRoots ∨
    ∃ owner, graph.Reaches registry.pairRoots owner ∧
      (graph.nativeOf owner = (id, value) ∨ graph.secondaryTarget owner = some (id, value))

/-- After any sequence of operations, none of which releases a missing entry or a zero count, every
registry is exact, and every next operation is defined and has its outcome. -/
theorem owner_registry (graph : OwnerGraph Pair Native)
    (operations : List (Operation Name Pair Native)) :
    ∃ registries, run graph operations = some registries ∧
      (∀ name, (∃ live, Exact graph (registries name) live) ∧
        Authorised graph (registries name)) ∧
      ∀ operation, ∃ reply after, perform graph registries operation = some (reply, after) ∧
        Outcome registries after operation reply := by
  obtain ⟨registries, reached, settled⟩ := run_settled graph operations
  refine ⟨registries, reached, fun name => ?_, fun operation => ?_⟩
  · obtain ⟨live, exact⟩ := (settled name).exact
    exact ⟨⟨live, exact⟩, ⟨fun _ _ => exact.pair_eq_some, fun _ => exact.pair_eq_none,
      fun _ => exact.pair_error, fun _ _ => exact.native_eq_some⟩⟩
  · obtain ⟨reply, after, performed, -, outcome⟩ := perform_settled settled operation
    exact ⟨reply, after, performed, outcome⟩

end Programs

end Everett.Retention

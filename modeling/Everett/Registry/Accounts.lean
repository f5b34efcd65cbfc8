import Everett.Library.Ownership
import Everett.Registry.Owners

/-!
# Accounts of the registry

The entries of a registry count the tokens of its roots and the edges of its live pairs.  Acquiring
a pair adds one token or leaves the tables as they were, and releasing it takes one token back.
-/

namespace Everett.Retention

open Catalog (ObjectId BlobIdentity)
open Ownership CountedTable

variable {Pair Native : Type} [DecidableEq Pair] [DecidableEq Native]

namespace OwnerGraph

variable (graph : OwnerGraph Pair Native)

/-- The main target of a pair, as a demand. -/
noncomputable def mainDemand (value : Pair) : Pair →₀ ℕ :=
  match graph.mainTarget value with
  | none => 0
  | some main => .single main 1

/-- The secondary of a pair, as a demand. -/
noncomputable def secondaryDemand (value : Pair) : ObjectId × Native →₀ ℕ :=
  match graph.secondaryTarget value with
  | none => 0
  | some secondary => .single secondary 1

/-- The native owner of a pair under its identity. -/
def nativeOf (value : Pair) : ObjectId × Native :=
  ((graph.identity value).native, graph.nativeOwner value)

/-- Where a pair is entered. -/
def place (value : Pair) : ObjectId × Pair :=
  ((graph.identity value).index, value)

theorem place_injective : Function.Injective graph.place :=
  fun _ _ same => congrArg Prod.snd same

/-- The edges of pairs. -/
noncomputable def owners : Owners Pair (ObjectId × Native) where
  children := graph.mainDemand
  leaves value := .single (graph.nativeOf value) 1 + graph.secondaryDemand value
  height := graph.height
  children_lower := by
    intro value main owned
    unfold mainDemand at owned
    cases target : graph.mainTarget value with
    | none => simp [target] at owned
    | some other =>
        rw [target] at owned
        have same : other = main := by
          by_contra different
          exact owned (Finsupp.single_eq_of_ne' different)
        exact same ▸ graph.main_lower target

/-- The tables hold what the tokens and the live pairs demand. -/
def Accounts (unfinished : Finset Pair) (tokens : Pair →₀ ℕ)
    (nativeTokens : ObjectId × Native →₀ ℕ) (pairs : CountedTable ObjectId Pair)
    (natives : CountedTable ObjectId Native) : Prop :=
  ∃ count nativeCount, Counts graph.place pairs count ∧ Counts id natives nativeCount ∧
    Balanced graph.owners unfinished tokens nativeTokens count nativeCount

variable {graph} {unfinished : Finset Pair} {tokens : Pair →₀ ℕ}
  {nativeTokens : ObjectId × Native →₀ ℕ} {pairs : CountedTable ObjectId Pair}
  {natives : CountedTable ObjectId Native}

/-- The demands determine the tables. -/
theorem Accounts.unique {others : CountedTable ObjectId Pair}
    {otherNatives : CountedTable ObjectId Native}
    (first : graph.Accounts unfinished tokens nativeTokens pairs natives)
    (second : graph.Accounts unfinished tokens nativeTokens others otherNatives) :
    pairs = others ∧ natives = otherNatives := by
  obtain ⟨count, nativeCount, counts, nativeCounts, balanced⟩ := first
  obtain ⟨other, otherNative, otherCounts, otherNativeCounts, otherBalanced⟩ := second
  obtain ⟨rfl, rfl⟩ := balanced.unique otherBalanced
  exact ⟨counts.unique otherCounts, nativeCounts.unique otherNativeCounts⟩

/-- A native token can be released. -/
theorem Accounts.releaseNative {value : ObjectId × Native}
    (accounts : graph.Accounts unfinished tokens (nativeTokens + .single value 1) pairs natives) :
    ∃ after, natives.release value.1 = some after ∧
      graph.Accounts unfinished tokens nativeTokens pairs after := by
  obtain ⟨count, nativeCount, counts, nativeCounts, balanced⟩ := accounts
  have held : nativeCount = (nativeTokens + ∑ u ∈ count.support \ unfinished,
      graph.owners.leaves u) + .single value 1 := by
    rw [balanced.leaves, add_right_comm]
  rw [held] at nativeCounts balanced
  obtain ⟨after, released, afterCounts⟩ := nativeCounts.release Function.injective_id
  exact ⟨after, released, count, _, counts, afterCounts, (Balanced.leaf _).mp balanced⟩

end OwnerGraph

open OwnerGraph

theorem releasePair_again (graph : OwnerGraph Pair Native) {id : BlobIdentity} {value : Pair}
    {references : ℕ} {pairs : CountedTable ObjectId Pair} {natives : CountedTable ObjectId Native}
    (present : pairs.lookup id.index = some ⟨value, references + 2⟩) :
    graph.releasePair id pairs natives =
      some (pairs.insert id.index ⟨value, references + 1⟩, natives) := by
  rw [releasePair]
  split
  · simp_all
  · rename_i found same
    rw [present] at same
    cases same
    rfl

/-- The last release of a pair goes on to its children. -/
theorem releasePair_last (graph : OwnerGraph Pair Native) {id : BlobIdentity} {value : Pair}
    {pairs : CountedTable ObjectId Pair} {natives : CountedTable ObjectId Native}
    (present : pairs.lookup id.index = some ⟨value, 1⟩) :
    graph.releasePair id pairs natives = (do
      let natives ← releaseSecondary (graph.secondaryTarget value) natives
      let (pairs, natives) ← (match graph.mainTarget value with
        | none => some (pairs.erase id.index, natives)
        | some main => graph.releasePair (graph.identity main) (pairs.erase id.index) natives)
      let natives ← natives.release (graph.identity value).native
      some (pairs, natives)) := by
  rw [releasePair]
  split
  · simp_all
  · rename_i found same
    rw [present] at same
    cases same
    rfl

variable {graph : OwnerGraph Pair Native} {tokens : Pair →₀ ℕ}
  {nativeTokens : ObjectId × Native →₀ ℕ}

/-- Releasing a token of a pair takes it back, with the edges of the pairs which die of it. -/
theorem releasePair_accounts {unfinished : Finset Pair} {value : Pair}
    {pairs : CountedTable ObjectId Pair} {natives : CountedTable ObjectId Native}
    (outside : ∀ u ∈ unfinished, graph.height value < graph.height u)
    (accounts : graph.Accounts unfinished (tokens + .single value 1) nativeTokens pairs natives) :
    ∃ after afterNatives,
      graph.releasePair (graph.identity value) pairs natives = some (after, afterNatives) ∧
        graph.Accounts unfinished tokens nativeTokens after afterNatives := by
  induction height : graph.height value using Nat.strong_induction_on
    generalizing value tokens nativeTokens pairs natives with
  | _ level induction =>
      obtain ⟨count, nativeCount, counts, nativeCounts, balanced⟩ := accounts
      have apart : value ∉ unfinished := fun member => lt_irrefl _ (outside value member)
      have held : count = (tokens + ∑ u ∈ count.support \ unfinished, graph.owners.children u) +
          .single value 1 := by
        rw [add_right_comm]
        exact balanced.nodes
      generalize rest_eq : tokens + ∑ u ∈ count.support \ unfinished, graph.owners.children u =
        rest at held
      subst held
      have present := counts.lookup (a := value) (by simp)
      have total : (rest + .single value 1) value = rest value + 1 := by simp
      rw [total] at present
      change pairs.lookup (graph.identity value).index = some ⟨value, rest value + 1⟩ at present
      by_cases absent : rest value = 0
      · -- the entry goes, and its edges become tokens to release
        rw [absent] at present
        have erased := counts.erase graph.place_injective absent
        have retired := balanced.retire absent apart
        rw [releasePair_last graph present]
        have owed : graph.Accounts unfinished (tokens + graph.mainDemand value)
            (nativeTokens + .single (graph.nativeOf value) 1 + graph.secondaryDemand value)
            (pairs.erase (graph.identity value).index) natives :=
          ⟨rest, nativeCount, erased, nativeCounts, by rw [add_assoc]; exact retired⟩
        obtain ⟨fewer, releasedSecondary, owed⟩ : ∃ fewer,
            releaseSecondary (graph.secondaryTarget value) natives = some fewer ∧
            graph.Accounts unfinished (tokens + graph.mainDemand value)
              (nativeTokens + .single (graph.nativeOf value) 1)
              (pairs.erase (graph.identity value).index) fewer := by
          unfold secondaryDemand at owed
          cases secondary : graph.secondaryTarget value with
          | none =>
              rw [secondary, add_zero] at owed
              exact ⟨natives, rfl, owed⟩
          | some target =>
              rw [secondary] at owed
              exact owed.releaseNative
        obtain ⟨after, least, releasedMain, owed⟩ : ∃ after least,
            (match graph.mainTarget value with
              | none => some (pairs.erase (graph.identity value).index, fewer)
              | some main => graph.releasePair (graph.identity main)
                  (pairs.erase (graph.identity value).index) fewer) = some (after, least) ∧
            graph.Accounts unfinished tokens (nativeTokens + .single (graph.nativeOf value) 1)
              after least := by
          unfold mainDemand at owed
          cases target : graph.mainTarget value with
          | none =>
              rw [target, add_zero] at owed
              exact ⟨_, fewer, rfl, owed⟩
          | some main =>
              rw [target] at owed
              have lower := graph.main_lower target
              exact induction (graph.height main) (height ▸ lower)
                (fun u member => lower.trans (outside u member)) owed rfl
        obtain ⟨last, releasedNative, owed⟩ := owed.releaseNative
        refine ⟨after, last, ?_, owed⟩
        rw [releasedSecondary, Option.bind_eq_bind, Option.bind_some, releasedMain,
          Option.bind_eq_bind, Option.bind_some, Option.bind_eq_some_iff]
        exact ⟨last, releasedNative, rfl⟩
      · obtain ⟨references, equal⟩ := Nat.exists_eq_succ_of_ne_zero absent
        rw [equal] at present
        obtain ⟨after, released, afterCounts⟩ := counts.release graph.place_injective
        change pairs.release (graph.identity value).index = some after at released
        have inserted : after = pairs.insert (graph.identity value).index
            ⟨value, references + 1⟩ := by
          unfold CountedTable.release at released
          rw [present] at released
          exact (Option.some.inj released).symm
        subst inserted
        exact ⟨_, natives, releasePair_again graph present, rest, nativeCount, afterCounts,
          nativeCounts, (Balanced.again absent).mp balanced⟩

@[simp]
theorem allocate_pairs (store : Store Pair Native) : store.allocate.2.pairs = store.pairs := by
  unfold Store.allocate
  split <;> rfl

@[simp]
theorem allocate_natives (store : Store Pair Native) :
    store.allocate.2.natives = store.natives := by
  unfold Store.allocate
  split <;> rfl

/-- A native acquisition adds its token, or leaves the tables as they were. -/
theorem acquireNative_spec {nativeCount : ObjectId × Native →₀ ℕ} {store : Store Pair Native}
    (counts : Counts id store.natives nativeCount) (value : ObjectId × Native) :
    ∃ answer after, store.acquireNative value.1 value.2 = (answer, after) ∧
      after.pairs = store.pairs ∧
      (answer = .accepted ∧ Counts id after.natives (nativeCount + .single value 1) ∨
        answer ≠ .accepted ∧ after.natives = store.natives) := by
  unfold Store.acquireNative
  have pairs_eq := allocate_pairs store
  have natives_eq := allocate_natives store
  generalize store.allocate = allocated at pairs_eq natives_eq ⊢
  obtain ⟨granted, next⟩ := allocated
  cases granted with
  | false => exact ⟨_, _, rfl, pairs_eq, .inr ⟨by decide, natives_eq⟩⟩
  | true =>
      rw [← natives_eq] at counts
      dsimp only
      cases entry : next.natives.lookup value.1 with
      | none => exact ⟨_, _, rfl, pairs_eq, .inl ⟨rfl, counts.insert entry⟩⟩
      | some found =>
          dsimp only
          split
          · exact ⟨_, _, rfl, pairs_eq, .inr ⟨by decide, natives_eq⟩⟩
          · rename_i same
            obtain ⟨a, placed, counted, positive⟩ := counts.find entry
            have own : a = value := placed.trans (Prod.ext rfl (not_not.mp same))
            subst own
            refine ⟨_, _, rfl, pairs_eq, .inl ⟨rfl, ?_⟩⟩
            rw [not_not.mp same, ← counted]
            exact counts.increment Function.injective_id (by omega)

/-- The same for the secondary of a pair. -/
theorem acquireSecondary_spec {nativeCount : ObjectId × Native →₀ ℕ} {store : Store Pair Native}
    (graph : OwnerGraph Pair Native) (counts : Counts id store.natives nativeCount) (value : Pair) :
    ∃ answer after,
      Store.acquireSecondary (graph.secondaryTarget value) store = (answer, after) ∧
      after.pairs = store.pairs ∧
      (answer = .accepted ∧ Counts id after.natives (nativeCount + graph.secondaryDemand value) ∨
        answer ≠ .accepted ∧ after.natives = store.natives) := by
  unfold Store.acquireSecondary secondaryDemand
  cases graph.secondaryTarget value with
  | none => exact ⟨_, _, rfl, rfl, .inl ⟨rfl, by rwa [add_zero]⟩⟩
  | some secondary => exact acquireNative_spec counts secondary

/-- A rollback takes back what the pair holds of its children. -/
theorem rollbackPair_spec {unfinished : Finset Pair} {value : Pair} {store : Store Pair Native}
    (nativeLive mainLive : Bool)
    (outside : ∀ u ∈ unfinished, graph.height value < graph.height u)
    (accounts : graph.Accounts unfinished
      (tokens + if mainLive then graph.mainDemand value else 0)
      (nativeTokens + if nativeLive then .single (graph.nativeOf value) 1 else 0)
      (store.pairs.erase (graph.identity value).index) store.natives) :
    ∃ after, graph.rollbackPair value nativeLive mainLive false store = some after ∧
      graph.Accounts unfinished tokens nativeTokens after.pairs after.natives := by
  obtain ⟨pairs, natives, releasedMain, owed⟩ : ∃ pairs natives,
      (match if mainLive then graph.mainTarget value else none with
        | none => some (store.pairs.erase (graph.identity value).index, store.natives)
        | some main => graph.releasePair (graph.identity main)
            (store.pairs.erase (graph.identity value).index) store.natives) =
        some (pairs, natives) ∧
      graph.Accounts unfinished tokens
        (nativeTokens + if nativeLive then .single (graph.nativeOf value) 1 else 0)
        pairs natives := by
    unfold mainDemand at accounts
    cases mainLive with
    | false => exact ⟨_, _, rfl, by simpa using accounts⟩
    | true =>
        cases target : graph.mainTarget value with
        | none =>
            rw [target] at accounts
            exact ⟨_, _, rfl, by simpa using accounts⟩
        | some main =>
            rw [target] at accounts
            have lower := graph.main_lower target
            exact releasePair_accounts (fun u member => lower.trans (outside u member)) accounts
  obtain ⟨last, releasedNative, settled⟩ : ∃ last,
      (if nativeLive then natives.release (graph.identity value).native else some natives) =
        some last ∧
      graph.Accounts unfinished tokens nativeTokens pairs last := by
    cases nativeLive with
    | false => exact ⟨natives, rfl, by simpa using owed⟩
    | true => exact owed.releaseNative
  refine ⟨{ store with pairs := pairs, natives := last }, ?_, settled⟩
  exact Option.bind_eq_some_iff.mpr ⟨(pairs, natives), releasedMain,
    Option.bind_eq_some_iff.mpr ⟨last, releasedNative, rfl⟩⟩

/-- What an acquisition of a pair may do: add its token, or nothing at all. -/
def Acquires (graph : OwnerGraph Pair Native) (value : Pair) (unfinished : Finset Pair)
    (tokens : Pair →₀ ℕ) (nativeTokens : ObjectId × Native →₀ ℕ) (count : Pair →₀ ℕ)
    (nativeCount : ObjectId × Native →₀ ℕ)
    (outcome : Option (Acquired × Store Pair Native)) : Prop :=
  ∃ answer after, outcome = some (answer, after) ∧
    (answer = .accepted ∧ (∃ later nativeLater, Counts graph.place after.pairs later ∧
        Counts id after.natives nativeLater ∧
        Balanced graph.owners unfinished (tokens + .single value 1) nativeTokens later
          nativeLater ∧
        ∀ u, graph.height value < graph.height u → later u = count u) ∨
      answer ≠ .accepted ∧ Counts graph.place after.pairs count ∧
        Counts id after.natives nativeCount)

theorem acquireChildren_spec {unfinished : Finset Pair} {value : Pair} {store : Store Pair Native}
    {count : Pair →₀ ℕ} {nativeCount : ObjectId × Native →₀ ℕ}
    (outside : ∀ u ∈ unfinished, graph.height value < graph.height u)
    (acquireMain : Store Pair Native → Option (Acquired × Store Pair Native))
    (noMain : ∀ store, graph.mainTarget value = none → acquireMain store = some (.accepted, store))
    (mainSpec : ∀ main nativeTokens nativeCount store, graph.mainTarget value = some main →
      Counts graph.place store.pairs (count + .single value 1) →
      Counts id store.natives nativeCount →
      Balanced graph.owners (insert value unfinished) (tokens + .single value 1) nativeTokens
        (count + .single value 1) nativeCount →
      Acquires graph main (insert value unfinished) (tokens + .single value 1) nativeTokens
        (count + .single value 1) nativeCount (acquireMain store))
    (absent : count value = 0)
    (counts : Counts graph.place store.pairs (count + .single value 1))
    (nativeCounts : Counts id store.natives nativeCount)
    (balanced : Balanced graph.owners unfinished tokens nativeTokens count nativeCount) :
    Acquires graph value unfinished tokens nativeTokens count nativeCount
      (graph.acquireChildren value acquireMain store) := by
  -- a rolled back pair has left the tables as they were before it was entered
  have restored : ∀ {after : Store Pair Native},
      graph.Accounts unfinished tokens nativeTokens after.pairs after.natives →
      Counts graph.place after.pairs count ∧ Counts id after.natives nativeCount := by
    rintro after ⟨later, nativeLater, laterCounts, nativeLaterCounts, laterBalanced⟩
    obtain ⟨rfl, rfl⟩ := balanced.unique laterBalanced
    exact ⟨laterCounts, nativeLaterCounts⟩
  have apart : value ∉ unfinished := fun member => lt_irrefl _ (outside value member)
  have unwound : ∀ {failed : Acquired} {last : Store Pair Native} (nativeLive mainLive : Bool),
      failed ≠ .accepted →
      graph.Accounts unfinished (tokens + if mainLive then graph.mainDemand value else 0)
        (nativeTokens + if nativeLive then .single (graph.nativeOf value) 1 else 0)
        (last.pairs.erase (graph.identity value).index) last.natives →
      Acquires graph value unfinished tokens nativeTokens count nativeCount
        ((graph.rollbackPair value nativeLive mainLive false last).map (failed, ·)) := by
    intro failed last nativeLive mainLive refused held
    obtain ⟨after, rolled, accounts⟩ := rollbackPair_spec nativeLive mainLive outside held
    rw [rolled]
    exact ⟨failed, after, rfl, .inr ⟨refused, restored accounts⟩⟩
  have erased : ∀ {last : Store Pair Native},
      Counts graph.place last.pairs (count + .single value 1) →
      Counts graph.place (last.pairs.erase (graph.identity value).index) count :=
    fun held => held.erase graph.place_injective absent
  have opened := (Balanced.start absent).mpr balanced
  have owned := (Balanced.leaf (.single (graph.nativeOf value) 1)).mpr opened
  obtain ⟨native, first, acquiredNative, firstPairs, outcome⟩ :=
    acquireNative_spec nativeCounts (graph.nativeOf value)
  change store.acquireNative (graph.identity value).native (graph.nativeOwner value) = _
    at acquiredNative
  unfold acquireChildren
  rw [acquiredNative]
  rcases outcome with ⟨rfl, firstCounts⟩ | ⟨failed, firstNatives⟩
  · -- the main target, whose acquisition does not touch the count of the pair
    obtain ⟨main, second, acquiredMain, outcome⟩ : ∃ answer second,
        acquireMain first = some (answer, second) ∧
        (answer = .accepted ∧ (∃ later nativeLater, Counts graph.place second.pairs later ∧
            Counts id second.natives nativeLater ∧
            Balanced graph.owners (insert value unfinished)
              (tokens + .single value 1 + graph.mainDemand value)
              (nativeTokens + .single (graph.nativeOf value) 1) later nativeLater ∧
            later value = 1 ∧ ∀ u, graph.height value < graph.height u → later u = count u) ∨
          answer ≠ .accepted ∧ Counts graph.place second.pairs (count + .single value 1) ∧
            Counts id second.natives (nativeCount + .single (graph.nativeOf value) 1)) := by
      have higher : ∀ u, graph.height value < graph.height u →
          (count + .single value 1) u = count u := by
        intro u above
        have other : value ≠ u := by
          rintro rfl
          exact lt_irrefl _ above
        rw [Finsupp.add_apply, Finsupp.single_eq_of_ne' other, Nat.add_zero]
      unfold mainDemand
      cases target : graph.mainTarget value with
      | none =>
          refine ⟨_, _, noMain first target, .inl ⟨rfl, count + .single value 1, _, ?_,
            firstCounts, ?_, by simp [absent], higher⟩⟩
          · rw [firstPairs]
            exact counts
          · rw [add_zero]
            exact owned
      | some main =>
          have lower := graph.main_lower target
          obtain ⟨answer, second, acquired, outcome⟩ := mainSpec main _ _ first target
            (firstPairs ▸ counts) firstCounts owned
          refine ⟨answer, second, acquired, outcome.imp ?_ id⟩
          rintro ⟨rfl, later, nativeLater, laterCounts, nativeLaterCounts, laterBalanced, frame⟩
          refine ⟨rfl, later, nativeLater, laterCounts, nativeLaterCounts, laterBalanced, ?_, ?_⟩
          · rw [frame value lower]
            simp [absent]
          · intro u above
            rw [frame u (lower.trans above), higher u above]
    dsimp only
    rw [acquiredMain]
    rcases outcome with ⟨rfl, later, nativeLater, laterCounts, nativeLaterCounts, laterBalanced,
      once, frame⟩ | ⟨failed, secondCounts, secondNatives⟩
    · obtain ⟨answer, third, acquiredSecondary, thirdPairs, outcome⟩ :=
        acquireSecondary_spec graph nativeLaterCounts value
      dsimp only
      rw [acquiredSecondary]
      rcases outcome with ⟨rfl, thirdCounts⟩ | ⟨failed, thirdNatives⟩
      · -- everything is held: the pair is closed
        have complete := (Balanced.leaf (graph.secondaryDemand value)).mpr laterBalanced
        rw [add_assoc nativeTokens] at complete
        have live : later value ≠ 0 := by omega
        have closed := (Balanced.finish live apart).mp complete
        exact ⟨_, third, rfl, .inl ⟨rfl, later, _, thirdPairs ▸ laterCounts, thirdCounts, closed,
          frame⟩⟩
      · have split : later = later.erase value + .single value 1 := by
          rw [← once, Finsupp.erase_add_single]
        rw [split] at laterCounts laterBalanced
        rw [add_right_comm, Balanced.start Finsupp.erase_same] at laterBalanced
        have held : graph.Accounts unfinished
            (tokens + if (graph.mainTarget value).isSome then graph.mainDemand value else 0)
            (nativeTokens + if true then .single (graph.nativeOf value) 1 else 0)
            (third.pairs.erase (graph.identity value).index) third.natives := by
          refine ⟨later.erase value, nativeLater, ?_, thirdNatives ▸ nativeLaterCounts, ?_⟩
          · rw [thirdPairs]
            exact laterCounts.erase graph.place_injective Finsupp.erase_same
          · have demand : (if (graph.mainTarget value).isSome then graph.mainDemand value else 0) =
                graph.mainDemand value := by
              unfold mainDemand
              cases graph.mainTarget value <;> rfl
            rw [demand]
            exact laterBalanced
        cases answer with
        | accepted => exact absurd rfl failed
        | refused => exact unwound true _ failed held
        | thrown => exact unwound true _ failed held
    · have held : graph.Accounts unfinished (tokens + if false then graph.mainDemand value else 0)
          (nativeTokens + if true then .single (graph.nativeOf value) 1 else 0)
          (second.pairs.erase (graph.identity value).index) second.natives :=
        ⟨count, _, erased secondCounts, secondNatives, by simpa using (Balanced.leaf _).mpr balanced⟩
      cases main with
      | accepted => exact absurd rfl failed
      | refused => exact unwound true false failed held
      | thrown => exact unwound true false failed held
  · have held : graph.Accounts unfinished (tokens + if false then graph.mainDemand value else 0)
        (nativeTokens + if false then .single (graph.nativeOf value) 1 else 0)
        (first.pairs.erase (graph.identity value).index) first.natives :=
      ⟨count, nativeCount, erased (firstPairs ▸ counts), firstNatives ▸ nativeCounts,
        by simpa using balanced⟩
    cases native with
    | accepted => exact absurd rfl failed
    | refused => exact unwound false false failed held
    | thrown => exact unwound false false failed held

/-- Acquiring a pair adds its token, or leaves the tables as they were. -/
theorem acquirePair_spec {unfinished : Finset Pair} {value : Pair} {store : Store Pair Native}
    {count : Pair →₀ ℕ} {nativeCount : ObjectId × Native →₀ ℕ}
    (outside : ∀ u ∈ unfinished, graph.height value < graph.height u)
    (counts : Counts graph.place store.pairs count)
    (nativeCounts : Counts id store.natives nativeCount)
    (balanced : Balanced graph.owners unfinished tokens nativeTokens count nativeCount) :
    Acquires graph value unfinished tokens nativeTokens count nativeCount
      (graph.acquirePair value store) := by
  induction height : graph.height value using Nat.strong_induction_on
    generalizing value unfinished tokens nativeTokens count nativeCount store with
  | _ level induction =>
      rw [acquirePair]
      have pairs_eq := allocate_pairs store
      have natives_eq := allocate_natives store
      generalize store.allocate = allocated at pairs_eq natives_eq ⊢
      obtain ⟨granted, next⟩ := allocated
      dsimp only at pairs_eq natives_eq
      rw [← pairs_eq] at counts
      rw [← natives_eq] at nativeCounts
      cases granted with
      | false => exact ⟨_, _, rfl, .inr ⟨by decide, counts, nativeCounts⟩⟩
      | true =>
          dsimp only
          cases entry : next.pairs.lookup (graph.identity value).index with
          | some found =>
              dsimp only
              split
              · exact ⟨_, _, rfl, .inr ⟨by decide, counts, nativeCounts⟩⟩
              · rename_i same
                rw [not_or, not_not, not_not] at same
                obtain ⟨own, placed, counted, positive⟩ := counts.find entry
                have equal : own = value := (congrArg Prod.snd placed).trans same.1
                subst equal
                refine ⟨_, _, rfl, .inl ⟨rfl, count + .single own 1, nativeCount, ?_, nativeCounts,
                  (Balanced.again (by omega)).mpr balanced, ?_⟩⟩
                · rw [same.1, ← counted]
                  exact counts.increment graph.place_injective (by omega)
                · intro u above
                  have other : own ≠ u := by
                    rintro rfl
                    exact lt_irrefl _ above
                  rw [Finsupp.add_apply, Finsupp.single_eq_of_ne' other, Nat.add_zero]
          | none =>
              have absent : count value = 0 := by
                by_contra live
                have present := counts.lookup live
                rw [show (graph.place value).1 = (graph.identity value).index from rfl,
                  entry] at present
                cases present
              refine acquireChildren_spec outside _ ?_ ?_ absent (counts.insert entry) nativeCounts
                balanced
              · intro store target
                split
                · rfl
                · simp_all
              · intro main nativeTokens nativeCount store target counts nativeCounts balanced
                have lower := graph.main_lower target
                split
                · simp_all
                · rename_i other found
                  rw [target] at found
                  cases found
                  refine induction (graph.height main) (height ▸ lower) ?_ counts nativeCounts
                    balanced rfl
                  intro u member
                  rcases Finset.mem_insert.mp member with rfl | deeper
                  · exact lower
                  · exact lower.trans (outside u deeper)

end Everett.Retention

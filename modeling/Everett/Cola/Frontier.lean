import Everett.Library.StableMerge
import Everett.Bits

/-!
# Choosing the next of three sorted streams

Every live head follows the same preceding occurrence and knows how much of it it shares.  A head
sharing more comes first; only heads sharing equally much are compared, and only past the shared
prefix.  Ties go to the native stream, then to main borrows, then to secondary borrows.
-/

namespace Everett

open Word Outcome

/-- `cola_target`. -/
inductive ColaTarget
  | main
  | secondary
  deriving DecidableEq, Repr

/-- `cola_origin`. -/
inductive ColaOrigin
  | native
  | main
  | secondary
  deriving Repr

/-- The origin of the occurrences borrowed from a target. -/
def ColaTarget.origin : ColaTarget → ColaOrigin
  | .main => .main
  | .secondary => .secondary

namespace ColaOrigin

/-- Position of an origin among ties. -/
def index : ColaOrigin → Nat
  | .native => 0
  | .main => 1
  | .secondary => 2

theorem index_injective : Function.Injective index := by
  intro a b same
  cases a <;> cases b <;> first | rfl | cases same

instance : LinearOrder ColaOrigin := LinearOrder.lift' index index_injective

instance : Fintype ColaOrigin :=
  ⟨{.native, .main, .secondary}, fun origin => by cases origin <;> decide⟩

theorem eq_native_of_le {origin : ColaOrigin} (first : origin ≤ .native) : origin = .native := by
  revert first
  cases origin <;> decide

end ColaOrigin

theorem ColaTarget.origin_ne_native (route : ColaTarget) : route.origin ≠ .native := by
  cases route <;> decide

theorem ColaTarget.origin_injective : Function.Injective ColaTarget.origin := by
  intro a b same
  cases a <;> cases b <;> first | rfl | cases same

/-- `frontier_selection`: the chosen stream, its head and the prefix shared with every head. -/
structure FrontierSelection where
  /-- The chosen stream. -/
  origin : ColaOrigin
  /-- Its head. -/
  key : BitString
  /-- Common prefix of the chosen head with each live head in bits. -/
  common : ColaOrigin → Nat

/-- Comparison of a further head with the best one so far, given their shares of the last key. -/
def frontierComparison (first second : Nat) (candidate key : BitString) : BitComparison :=
  if first ≠ second then ⟨min first second, if first > second then .lt else .gt⟩
  else
    let comparison := compareCommonBits (candidate.drop first) (key.drop first)
    { comparison with commonBits := first + comparison.commonBits }

/-- One iteration of `choose_frontier`. -/
def considerHead (prefixes : ColaOrigin → Nat) (head : ColaOrigin → Option BitString)
    (result : Option FrontierSelection) (origin : ColaOrigin) : Option FrontierSelection :=
  match head origin with
  | none => result
  | some candidate =>
      match result with
      | none => some ⟨origin, candidate, Function.update (fun _ => 0) origin candidate.length⟩
      | some best =>
          let comparison := frontierComparison (prefixes origin) (prefixes best.origin)
            candidate best.key
          if comparison.order = .lt then
            let earlier := fun other : ColaOrigin =>
              if other < origin then min (best.common other) comparison.commonBits
              else best.common other
            some ⟨origin, candidate, Function.update earlier origin candidate.length⟩
          else some { best with
            common := Function.update best.common origin comparison.commonBits }

/-- `choose_frontier`. -/
def chooseFrontier (prefixes : ColaOrigin → Nat) (head : ColaOrigin → Option BitString) :
    Result FrontierSelection :=
  demand ([ColaOrigin.native, .main, .secondary].foldl (considerHead prefixes head) none)
    "COLA frontier has no live stream"

/-- Every live head follows this key and knows how much of it it shares. -/
def Follows (last : BitString) (prefixes : ColaOrigin → Nat)
    (head : ColaOrigin → Option BitString) : Prop :=
  ∀ origin key, head origin = some key → last ≤ key ∧ prefixes origin = lcp last key

/-- The selection is a least head among these streams, the first of equal ones. -/
structure FrontierSelection.Selects (selection : FrontierSelection)
    (head : ColaOrigin → Option BitString) (considered : List ColaOrigin) : Prop where
  chosen : head selection.origin = some selection.key
  member : selection.origin ∈ considered
  least : ∀ other ∈ considered, ∀ key, head other = some key →
    selection.key < key ∨ selection.key = key ∧ selection.origin ≤ other
  common : ∀ other ∈ considered, ∀ key, head other = some key →
    selection.common other = lcp selection.key key

section

variable {last : BitString} {prefixes : ColaOrigin → Nat} {head : ColaOrigin → Option BitString}

theorem frontierComparison_eq {first second : ColaOrigin} {candidate key : BitString}
    (follows : Follows last prefixes head) (candidate_head : head first = some candidate)
    (key_head : head second = some key) :
    frontierComparison (prefixes first) (prefixes second) candidate key =
      compareCommonBits candidate key := by
  obtain ⟨candidate_lower, candidate_shares⟩ := follows first candidate candidate_head
  obtain ⟨key_lower, key_shares⟩ := follows second key key_head
  unfold frontierComparison compareCommonBits
  by_cases differ : prefixes first ≠ prefixes second
  · rw [if_pos differ, candidate_shares, key_shares]
    rw [candidate_shares, key_shares] at differ
    rcases lt_or_gt_of_ne differ with less | greater
    · obtain ⟨before, common⟩ := lt_of_lcp_lt candidate_lower less
      rw [if_neg less.not_gt, min_eq_left less.le, order_eq_gt.mpr before, lcp_comm candidate,
        common]
    · obtain ⟨before, common⟩ := lt_of_lcp_lt key_lower greater
      rw [if_pos greater, min_eq_right (le_of_lt greater), order_eq_lt.mpr before, common]
  · rw [if_neg differ]
    rw [not_not] at differ
    have shared : prefixes first ≤ lcp candidate key := by
      refine le_trans (le_min ?_ ?_) (min_lcp_le candidate last key)
      · rw [lcp_comm, ← candidate_shares]
      · rw [differ, ← key_shares]
    rw [lcp_drop shared, order_drop shared]

/-- What remains to be considered comes later among ties. -/
theorem considerHead_selects (considered : List ColaOrigin) (origin : ColaOrigin)
    (result : Option FrontierSelection) (follows : Follows last prefixes head)
    (later : ∀ other ∈ considered, other < origin)
    (none_live : result = none → ∀ other ∈ considered, head other = none)
    (selects : ∀ selection, result = some selection → selection.Selects head considered) :
    (considerHead prefixes head result origin = none →
      ∀ other ∈ considered ++ [origin], head other = none) ∧
    ∀ selection, considerHead prefixes head result origin = some selection →
      selection.Selects head (considered ++ [origin]) := by
  unfold considerHead
  cases candidate_head : head origin with
  | none =>
      refine ⟨fun absent other member => ?_, fun selection found => ?_⟩
      · rcases List.mem_append.mp member with earlier | new
        · exact none_live absent other earlier
        · rwa [List.mem_singleton.mp new]
      · obtain ⟨chosen, member, least, common⟩ := selects selection found
        have dead : ∀ other ∈ considered ++ [origin], ∀ key, head other = some key →
            other ∈ considered := by
          intro other inside key live
          rcases List.mem_append.mp inside with earlier | new
          · exact earlier
          · rw [List.mem_singleton.mp new, candidate_head] at live
            cases live
        exact ⟨chosen, List.mem_append_left _ member,
          fun other inside key live => least other (dead other inside key live) key live,
          fun other inside key live => common other (dead other inside key live) key live⟩
  | some candidate =>
      cases result with
      | none =>
          refine ⟨by simp, fun selection found => ?_⟩
          cases found
          have only : ∀ other ∈ considered ++ [origin], ∀ key, head other = some key →
              other = origin ∧ key = candidate := by
            intro other inside key live
            rcases List.mem_append.mp inside with earlier | new
            · rw [none_live rfl other earlier] at live
              cases live
            · rw [List.mem_singleton.mp new, candidate_head] at live
              exact ⟨List.mem_singleton.mp new, by cases live; rfl⟩
          refine ⟨candidate_head, by simp, fun other inside key live => ?_,
            fun other inside key live => ?_⟩
          · obtain ⟨rfl, rfl⟩ := only other inside key live
            exact .inr ⟨rfl, le_rfl⟩
          · obtain ⟨rfl, rfl⟩ := only other inside key live
            simp
      | some best =>
          obtain ⟨chosen, member, least, common⟩ := selects best rfl
          simp only [frontierComparison_eq follows candidate_head chosen]
          by_cases less : (compareCommonBits candidate best.key).order = .lt
          · refine ⟨by simp [less], fun selection found => ?_⟩
            rw [if_pos less] at found
            cases found
            have before : candidate < best.key := order_eq_lt.mp less
            refine ⟨candidate_head, by simp, fun other inside key live => ?_,
              fun other inside key live => ?_⟩
            · rcases List.mem_append.mp inside with earlier | new
              · refine .inl (before.trans_le ?_)
                exact (least other earlier key live).elim le_of_lt fun same => same.1.le
              · rw [List.mem_singleton.mp new, candidate_head] at live
                cases live
                exact .inr ⟨rfl, (List.mem_singleton.mp new).ge⟩
            · rcases List.mem_append.mp inside with earlier | new
              · have best_le : best.key ≤ key :=
                  (least other earlier key live).elim le_of_lt fun same => same.1.le
                have distinct : other ≠ origin := (later other earlier).ne
                simp only [Function.update_of_ne distinct, if_pos (later other earlier)]
                rw [common other earlier key live, min_comm, compareCommonBits]
                exact (lcp_sorted before.le best_le).symm
              · rw [List.mem_singleton.mp new, candidate_head] at live
                cases live
                rw [List.mem_singleton.mp new]
                simp
          · refine ⟨by simp [less], fun selection found => ?_⟩
            rw [if_neg less] at found
            cases found
            have before : best.key ≤ candidate :=
              not_lt.mp fun above => less (order_eq_lt.mpr above)
            refine ⟨chosen, List.mem_append_left _ member, fun other inside key live => ?_,
              fun other inside key live => ?_⟩
            · rcases List.mem_append.mp inside with earlier | new
              · exact least other earlier key live
              · rw [List.mem_singleton.mp new, candidate_head] at live
                cases live
                refine before.lt_or_eq.imp id fun same => ⟨same, ?_⟩
                rw [List.mem_singleton.mp new]
                exact (later best.origin member).le
            · rcases List.mem_append.mp inside with earlier | new
              · simp only [Function.update_of_ne (later other earlier).ne]
                exact common other earlier key live
              · rw [List.mem_singleton.mp new, candidate_head] at live
                cases live
                rw [List.mem_singleton.mp new, lcp_comm]
                simp [compareCommonBits]

/-- The frontier is the least live head, the first stream of equal ones. -/
theorem chooseFrontier_selects (follows : Follows last prefixes head)
    (live : ∃ origin key, head origin = some key) :
    ∃ selection, chooseFrontier prefixes head = .ok selection ∧
      selection.Selects head [.native, .main, .secondary] := by
  have first := considerHead_selects [] .native none follows (by simp) (by simp) (by simp)
  have second := considerHead_selects _ .main _ follows (by decide) first.1 first.2
  have third := considerHead_selects _ .secondary _ follows (by decide) second.1 second.2
  unfold chooseFrontier
  cases found : [ColaOrigin.native, .main, .secondary].foldl (considerHead prefixes head) none with
  | none =>
      obtain ⟨origin, key, present⟩ := live
      have absent := third.1 found origin (by cases origin <;> simp)
      rw [absent] at present
      cases present
  | some selection => exact ⟨selection, rfl, third.2 selection found⟩

end

/-- Selecting from the heads of the remaining sources takes the next element of their merge. -/
theorem FrontierSelection.Selects.leastHead {selection : FrontierSelection}
    {sources : ColaOrigin → List BitString}
    (selects : selection.Selects (fun origin => (sources origin).head?)
      [.native, .main, .secondary]) :
    LeastHead sources selection.origin selection.key :=
  ⟨selects.chosen, fun other key head =>
    selects.least other (by cases other <;> simp) key head⟩

end Everett

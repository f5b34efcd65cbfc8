import Mathlib.Data.Fintype.Basic
import Mathlib.Data.Fintype.Prod
import Mathlib.Algebra.BigOperators.Group.Finset.Basic
import Mathlib.Order.Lattice
import Mathlib.Tactic

/-!
# Stable merges of sorted sources

A merge of finitely many sorted sources always takes a least head; among equal heads it takes the
one of the first source.  The choice is unique, so the merge is determined by its sources, and a
reader holding the remaining sources holds a suffix of the merge.
-/

namespace Everett

variable {ι α : Type*} [LinearOrder ι] [LinearOrder α]

/-- The source whose head comes next, and that head. -/
def LeastHead (sources : ι → List α) (origin : ι) (a : α) : Prop :=
  (sources origin).head? = some a ∧
    ∀ other b, (sources other).head? = some b → a < b ∨ a = b ∧ origin ≤ other

/-- Taking least heads until every source is empty produces this merge. -/
inductive StableMerge : (ι → List α) → List (ι × α) → Prop
  | nil {sources : ι → List α} (exhausted : ∀ origin, sources origin = []) :
      StableMerge sources []
  | cons {sources : ι → List α} {origin : ι} {a : α} {merged : List (ι × α)}
      (least : LeastHead sources origin a)
      (rest : StableMerge (Function.update sources origin (sources origin).tail) merged) :
      StableMerge sources ((origin, a) :: merged)

/-- Order of a merge: by key, then by source. -/
def MergeOrder (x y : ι × α) : Prop := x.2 < y.2 ∨ x.2 = y.2 ∧ x.1 ≤ y.1

theorem MergeOrder.le {x y : ι × α} (before : MergeOrder x y) : x.2 ≤ y.2 :=
  before.elim le_of_lt fun same => same.1.le

namespace LeastHead

variable {sources : ι → List α} {origin other : ι} {a b : α}

theorem unique (first : LeastHead sources origin a) (second : LeastHead sources other b) :
    origin = other ∧ a = b := by
  rcases first.2 other b second.1 with less | ⟨rfl, before⟩
  · rcases second.2 origin a first.1 with greater | ⟨same, -⟩
    · exact absurd less greater.not_gt
    · exact absurd same.symm less.ne
  · rcases second.2 origin a first.1 with greater | ⟨-, after⟩
    · exact absurd greater (lt_irrefl a)
    · exact ⟨before.antisymm after, rfl⟩

theorem source_eq (least : LeastHead sources origin a) :
    sources origin = a :: (sources origin).tail :=
  (List.cons_head?_tail least.1).symm

theorem sum_length [Fintype ι] (least : LeastHead sources origin a) :
    ∑ other, (sources other).length =
      (∑ other, (Function.update sources origin (sources origin).tail other).length) + 1 := by
  have split : ∀ f : ι → Nat, ∑ other, f other =
      f origin + ∑ other ∈ Finset.univ.erase origin, f other := fun f =>
    (Finset.add_sum_erase _ f (Finset.mem_univ origin)).symm
  have others : ∑ other ∈ Finset.univ.erase origin,
      (Function.update sources origin (sources origin).tail other).length =
        ∑ other ∈ Finset.univ.erase origin, (sources other).length :=
    Finset.sum_congr rfl fun other member => by
      rw [Function.update_of_ne (Finset.ne_of_mem_erase member)]
  rw [split, split fun other => (Function.update sources origin _ other).length, others,
    Function.update_self, least.source_eq]
  simp
  omega

theorem exists_of_nonempty [Finite ι] (remaining : ∃ origin, sources origin ≠ []) :
    ∃ origin a, LeastHead sources origin a := by
  classical
  have := Fintype.ofFinite ι
  let heads : Finset (ι × α) :=
    Finset.univ.biUnion fun origin => ((sources origin).head?.map (origin, ·)).toFinset
  have mem_heads : ∀ x : ι × α, x ∈ heads ↔ (sources x.1).head? = some x.2 := by
    rintro ⟨origin, a⟩
    simp [heads]
  have nonempty : heads.Nonempty := by
    obtain ⟨origin, live⟩ := remaining
    cases source : sources origin with
    | nil => exact absurd source live
    | cons a rest => exact ⟨(origin, a), (mem_heads _).mpr (by simp [source])⟩
  obtain ⟨x, member, least⟩ := Finset.exists_min_image heads (fun x => toLex (x.2, x.1)) nonempty
  refine ⟨x.1, x.2, (mem_heads x).mp member, fun other b head => ?_⟩
  simpa [Prod.Lex.le_iff] using least (other, b) ((mem_heads _).mpr head)

end LeastHead

namespace StableMerge

variable {sources : ι → List α} {merged : List (ι × α)}

/-- The first element of a merge is the unique least head. -/
theorem eq_cons {origin : ι} {a : α} (merge : StableMerge sources merged)
    (least : LeastHead sources origin a) :
    ∃ rest, merged = (origin, a) :: rest ∧
      StableMerge (Function.update sources origin (sources origin).tail) rest := by
  cases merge with
  | nil exhausted => simp [LeastHead, exhausted] at least
  | cons first rest =>
      obtain ⟨rfl, rfl⟩ := least.unique first
      exact ⟨_, rfl, rest⟩

theorem eq_nil (merge : StableMerge sources merged) (exhausted : ∀ origin, sources origin = []) :
    merged = [] := by
  cases merge with
  | nil => rfl
  | cons least => simp [LeastHead, exhausted] at least

theorem sources_nil (merge : StableMerge sources []) (origin : ι) : sources origin = [] := by
  cases merge with
  | nil exhausted => exact exhausted origin

/-- Each source is the part of the merge which it contributed. -/
theorem filter_eq (merge : StableMerge sources merged) (origin : ι) :
    (merged.filter fun x => x.1 = origin).map Prod.snd = sources origin := by
  induction merge with
  | nil exhausted => simp [exhausted]
  | @cons sources chosen a merged least rest induction =>
      by_cases same : chosen = origin
      · subst same
        rw [least.source_eq]
        simpa using induction
      · simpa [same, Function.update_of_ne (Ne.symm same)] using induction

theorem mem_iff (merge : StableMerge sources merged) {origin : ι} {a : α} :
    (origin, a) ∈ merged ↔ a ∈ sources origin := by
  rw [← merge.filter_eq origin]
  simp

theorem length_eq [Fintype ι] (merge : StableMerge sources merged) :
    merged.length = ∑ origin, (sources origin).length := by
  induction merge with
  | nil exhausted => simp [exhausted]
  | @cons sources chosen a merged least rest induction =>
      rw [List.length_cons, induction, least.sum_length]

theorem source_length_le (merge : StableMerge sources merged) (origin : ι) :
    (sources origin).length ≤ merged.length := by
  rw [← merge.filter_eq origin, List.length_map]
  exact List.length_filter_le _ _

/-- Sorted sources merge in order of keys, equal keys in order of sources. -/
theorem sorted (merge : StableMerge sources merged)
    (sources_sorted : ∀ origin, (sources origin).Pairwise (· ≤ ·)) :
    merged.Pairwise MergeOrder := by
  induction merge with
  | nil => exact .nil
  | @cons sources chosen a merged least rest induction =>
      refine .cons ?_ (induction ?_)
      · rintro ⟨origin, b⟩ member
        rw [rest.mem_iff] at member
        by_cases same : origin = chosen
        · subst same
          rw [Function.update_self] at member
          have source_sorted := sources_sorted origin
          rw [least.source_eq, List.pairwise_cons] at source_sorted
          exact (source_sorted.1 b member).lt_or_eq.imp id fun equal => ⟨equal, le_rfl⟩
        · rw [Function.update_of_ne same] at member
          cases source : sources origin with
          | nil => simp [source] at member
          | cons head tail =>
              have head_le : head ≤ b := by
                rw [source] at member
                have source_sorted := source ▸ sources_sorted origin
                rcases List.mem_cons.mp member with rfl | later
                · exact le_rfl
                · exact (List.pairwise_cons.mp source_sorted).1 b later
              rcases least.2 origin head (by simp [source]) with less | ⟨rfl, before⟩
              · exact .inl (less.trans_le head_le)
              · exact head_le.lt_or_eq.imp id fun equal => ⟨equal, before⟩
      · intro origin
        by_cases same : origin = chosen
        · subst same
          rw [Function.update_self]
          exact (sources_sorted origin).tail
        · rw [Function.update_of_ne same]
          exact sources_sorted origin

/-- Every finite family of sources has a merge. -/
theorem exists_merge [Finite ι] (sources : ι → List α) : ∃ merged, StableMerge sources merged := by
  classical
  have := Fintype.ofFinite ι
  induction total : ∑ origin, (sources origin).length generalizing sources with
  | zero =>
      refine ⟨[], .nil fun origin => ?_⟩
      exact List.length_eq_zero_iff.mp (Finset.sum_eq_zero_iff.mp total origin (Finset.mem_univ _))
  | succ total induction =>
      have remaining : ∃ origin, sources origin ≠ [] := by
        by_contra exhausted
        simp only [not_exists, not_not] at exhausted
        simp [exhausted] at total
      obtain ⟨chosen, a, least⟩ := LeastHead.exists_of_nonempty remaining
      obtain ⟨merged, merge⟩ := induction
        (Function.update sources chosen (sources chosen).tail) (by
          rw [least.sum_length] at total
          omega)
      exact ⟨_, .cons least merge⟩

theorem unique {other : List (ι × α)} (first : StableMerge sources merged)
    (second : StableMerge sources other) : merged = other := by
  induction first generalizing other with
  | nil exhausted => exact (second.eq_nil exhausted).symm
  | cons least rest induction =>
      obtain ⟨remaining, rfl, merge⟩ := second.eq_cons least
      rw [induction merge]

end StableMerge

end Everett

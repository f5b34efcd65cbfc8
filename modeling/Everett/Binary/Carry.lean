import Everett.Binary.Frontier
import Everett.Native.Union

/-!
# Carries

What a carry holds between its actions.  While it merges, the carried array stands for as many
admissions as the next older run; once it indexes, its target reaches the runs before it.
-/

namespace Everett

open Outcome ColaSnapshot

variable {P : StoragePolicy}

/-- A merge which opened has values of 64-bit size. -/
theorem NativeMerge.fits_of_start {composition : Composition P} {older newer : NativeArray P}
    {merge : NativeMerge P} (started : NativeMerge.start composition older newer = .ok merge) :
    P.valueWidth.getD 0 * P.bitsPerUnit ≤ maximum64 := by
  obtain ⟨writer, opened, -⟩ := bind_eq_ok.mp started
  obtain ⟨_, -, opened⟩ := bind_eq_ok.mp opened
  obtain ⟨_, multiplied, -⟩ := bind_eq_ok.mp opened
  unfold ProfileDetail.multiply at multiplied
  split_ifs at multiplied with fits
  exact fits

namespace ColaContinuation

/-- A carry over settled runs. -/
structure Carries (j : ColaContinuation P) : Prop where
  tower : Tower j.first j.earlier.reverse
  first_lt : j.first < j.last
  last_le : j.last ≤ maximum64
  mass_pow : ∃ k, j.last - j.first = 2 ^ k
  less : ∀ before ∈ j.earlier.reverse.head?, j.last - j.first < before.mass
  size_pos : 0 < j.carry.value.size
  size_le : j.carry.value.size ≤ j.last - j.first
  valid : j.carry.value.ValidValues

/-- A carry which is merged with a run of its mass. -/
structure Merges (j : ColaContinuation P) : Prop where
  tower : Tower j.first (j.older :: j.earlier.reverse)
  last_eq : j.last = j.first + j.older.mass
  last_le : j.last ≤ maximum64
  size_pos : 0 < j.carry.value.size
  size_le : j.carry.value.size ≤ j.older.mass
  valid : j.carry.value.ValidValues
  sources_eq : sources j.target = j.earlier.reverse.map ColaRun.source
  built : j.target.Built
  carrier : j.carrier = false

/-- A chain reaches the result of a carry, and before it the earlier runs. -/
def Reaches (j : ColaContinuation P) (chain : MainPointer P) : Prop :=
  ∃ node main, j.resultNode = node :: main ∧ node.value.native = j.carry ∧
    sources chain = (node, main) :: j.earlier.reverse.map ColaRun.source

/-- A carry which is indexed over its target, or whose index gets a carrier. -/
structure Indexes (j : ColaContinuation P) : Prop where
  carries : j.Carries
  built : j.target.Built
  reaches : if j.carrier then j.Reaches j.target
    else sources j.target = j.earlier.reverse.map ColaRun.source

/-- A merge of the older run with what is carried. -/
def Combines (j : ColaContinuation P) (merge : NativeMerge P) : Prop :=
  j.merge = some merge ∧ ∃ (composition : Composition P) (written olderRest newerRest : List Entry),
    merge.Merging written olderRest newerRest
      (mergeWith composition.compose.apply j.older.native.value.records j.carry.value.records)

/-- The native array which an index of a carry is for. -/
def indexed (j : ColaContinuation P) (empty : Shared (NativeArray P)) : Shared (NativeArray P) :=
  if j.carrier then empty else j.carry

/-- An index of what is carried, or of a carrier, with a number of occurrences taken. -/
def Builds (j : ColaContinuation P) (empty : Shared (NativeArray P)) (count : Nat) : Prop :=
  ∃ builder, j.index = some builder ∧ builder.Ongoing (j.indexed empty) j.target none count

/-- Occurrences of the index of a carry. -/
def occurrences (j : ColaContinuation P) (empty : Shared (NativeArray P)) : Nat :=
  ColaIndexBuilder.extent (j.indexed empty) j.target none

/-- What a carry holds before its next action. -/
def Valid (j : ColaContinuation P) (empty : Shared (NativeArray P)) : Prop :=
  match j.stage with
  | .mergeStart => j.Merges
  | .mergeStep => j.Merges ∧ ∃ merge, j.Combines merge ∧ merge.done = false
  | .mergeFinish => j.Merges ∧ ∃ merge, j.Combines merge ∧ merge.done = true
  | .indexStart => j.Indexes
  | .indexStep => j.Indexes ∧ ∃ count < j.occurrences empty, j.Builds empty count
  | .indexFinish => j.Indexes ∧ j.Builds empty (j.occurrences empty)
  | .publish => j.Carries ∧ j.Reaches j.head ∧ j.head.Built

variable {j : ColaContinuation P} {empty : Shared (NativeArray P)}

/-- A merge makes progress. -/
theorem Merges.step (merges : j.Merges) (merge : Option (NativeMerge P)) (stage : ColaPhase) :
    Merges { j with
      merge := merge
      stage := stage } :=
  ⟨merges.tower, merges.last_eq, merges.last_le, merges.size_pos, merges.size_le, merges.valid,
    merges.sources_eq, merges.built, merges.carrier⟩

/-- Other parts of a carry do not matter. -/
theorem Carries.step (carries : j.Carries) (index : Option (ColaIndexBuilder P))
    (target head resultNode : MainPointer P) (carrier : Bool) (stage : ColaPhase) :
    Carries { j with
      index := index
      target := target
      head := head
      resultNode := resultNode
      carrier := carrier
      stage := stage } :=
  ⟨carries.tower, carries.first_lt, carries.last_le, carries.mass_pow, carries.less,
    carries.size_pos, carries.size_le, carries.valid⟩

/-- An index makes progress. -/
theorem Indexes.step (indexes : j.Indexes) (index : Option (ColaIndexBuilder P))
    (stage : ColaPhase) : Indexes { j with
      index := index
      stage := stage } :=
  ⟨indexes.carries.step index j.target j.head j.resultNode j.carrier stage, indexes.built,
    indexes.reaches⟩

/-- A carry of two unsettled runs. -/
theorem start_ok {snapshot : ColaSnapshot P} (valid : snapshot.Valid)
    (small : snapshot.admissions ≤ maximum64) (unsettled : snapshot.settled = false)
    (started : start snapshot = .ok j) : j.Valid empty := by
  obtain ⟨frontier, sources_eq, built, -⟩ := valid
  unfold start at started
  unfold settled at unsettled
  split at started
  · next newest older earlier runs_eq =>
      cases started
      rw [runs_eq] at frontier sources_eq unsettled
      have equal : older.mass = newest.mass := by simpa [settledRuns] using unsettled
      have ones : newest.Sound ∧ newest.last = snapshot.admissions ∧ newest.mass = 1 ∧
          older.mass = 1 ∧ Tower newest.first (older :: earlier) := by
        rcases frontier with ⟨-, -, less, -⟩ | ⟨_, _, _, same, rest⟩
        · exact absurd equal (less older rfl).ne'
        · cases same
          exact rest
      obtain ⟨sound, last_eq, newest_mass, older_mass, tower⟩ := ones
      obtain ⟨newest_sources, -, newest_built⟩ := sources_main sources_eq
      obtain ⟨older_sources, -, older_built⟩ := sources_main newest_sources
      have size := sound.size_le
      have positive := sound.first_lt
      have mass := newest_mass
      rw [ColaRun.mass] at mass
      refine ⟨?_, ?_, ?_, sound.size_pos, ?_, sound.valid, ?_, ?_, rfl⟩
      · rw [List.reverse_reverse]
        exact tower
      · change newest.last = newest.first + older.mass
        omega
      · exact last_eq.le.trans small
      · rw [older_mass, ← newest_mass]
        exact size
      · rw [List.reverse_reverse]
        exact older_sources
      · exact (older_built (newest_built built).main).main
  · cases started

/-- The sizes of a finished merge. -/
theorem Combines.finish_ok {merge : NativeMerge P} (combines : j.Combines merge)
    (merges : j.Merges) (done : merge.done = true) : ∃ closed frames array,
    merge.finish = .ok (closed, frames) ∧ NativeArray.fromOwned P frames = .ok array ∧
    array.ValidValues ∧ 0 < array.size ∧
    array.size ≤ j.older.native.value.size + j.carry.value.size := by
  obtain ⟨-, composition, written, olderRest, newerRest, merging⟩ := combines
  obtain ⟨rfl, rfl⟩ := merging.done_iff.mp done
  obtain ⟨closed, frames, array, finished, adopted, records, valid, -⟩ := merging.finish_ok
  have size : array.size = (mergeWith composition.compose.apply j.older.native.value.records
      j.carry.value.records).length := by
    rw [← ProfileArray.length_records, records]
  refine ⟨closed, frames, array, finished, adopted, valid, ?_, ?_⟩
  · have nonempty : j.carry.value.records ≠ [] := by
      intro none_carried
      have carried := merges.size_pos
      rw [← ProfileArray.length_records, none_carried] at carried
      cases carried
    obtain ⟨record, rest, carried⟩ := List.exists_cons_of_ne_nil nonempty
    have member : record.1 ∈ (mergeWith composition.compose.apply j.older.native.value.records
        j.carry.value.records).map Prod.fst := by
      refine mem_keys_mergeWith.mpr (.inr ?_)
      rw [carried]
      exact List.mem_cons_self
    rw [size, ← List.length_map (f := Prod.fst)]
    exact List.length_pos_of_mem member
  · rw [size, ← ProfileArray.length_records, ← ProfileArray.length_records]
    exact length_mergeWith_le

/-- A power of two between another one and its double is either. -/
theorem double_lt {a b : Nat} (a_pow : ∃ k, a = 2 ^ k) (b_pow : ∃ k, b = 2 ^ k) (less : a < b)
    (other : b ≠ 2 * a) : 2 * a < b := by
  obtain ⟨k, rfl⟩ := a_pow
  obtain ⟨l, rfl⟩ := b_pow
  have exponents : k < l := (Nat.pow_lt_pow_iff_right (by decide)).mp less
  have next : k + 1 ≠ l := by
    rintro rfl
    exact other (by ring)
  calc
    2 * 2 ^ k = 2 ^ (k + 1) := by ring
    _ < 2 ^ l := Nat.pow_lt_pow_right (by decide) (by omega)

/-- After a merge the run before is merged as well, or the result is indexed. -/
theorem Merges.afterMerge (merges : j.Merges) {carry : Shared (NativeArray P)}
    (valid : carry.value.ValidValues) (size_pos : 0 < carry.value.size)
    (size_le : carry.value.size ≤ j.older.native.value.size + j.carry.value.size) :
    (ColaRuntime.afterMerge { j with
      carry
      merge := none
      first := j.older.first }).Valid empty := by
  obtain ⟨tower, last_eq, last_le, -, carried, -, sources_eq, built, carrier⟩ := merges
  obtain ⟨sound, older_last, less, tower⟩ := tower
  have older_size := sound.size_le
  have older_lt := sound.first_lt
  have mass := ColaRun.mass.eq_1 j.older
  have double : j.last - j.older.first = 2 * j.older.mass := by omega
  have positive := sound.mass_pos
  have double_pow : ∃ k, j.last - j.older.first = 2 ^ k := by
    obtain ⟨k, older_mass⟩ := sound.mass_pow
    exact ⟨k + 1, by rw [double, older_mass]; ring⟩
  -- the index of a result whose mass no earlier run has
  have indexes : (∀ before ∈ j.earlier.reverse.head?, 2 * j.older.mass < before.mass) →
      Indexes { j with
        carry
        merge := none
        first := j.older.first
        target := near j.target (j.last - j.older.first)
        stage := .indexStart } := by
    intro above
    refine ⟨⟨tower, ?_, last_le, double_pow, ?_, size_pos, ?_, valid⟩, ?_, ?_⟩
    · change j.older.first < j.last
      omega
    · change ∀ before ∈ j.earlier.reverse.head?, j.last - j.older.first < before.mass
      rw [double]
      exact above
    · change carry.value.size ≤ j.last - j.older.first
      omega
    · exact built_nearWithin _ built
    · dsimp only
      rw [carrier, if_neg Bool.false_ne_true]
      exact (sources_nearWithin _ _).trans sources_eq
  unfold ColaRuntime.afterMerge
  dsimp only
  split
  · next before rest earlier_eq =>
      rw [earlier_eq] at tower sources_eq less indexes
      obtain ⟨before_sound, before_last, before_less, rest_tower⟩ := tower
      split_ifs with same
      · obtain ⟨main_sources, -, main_built⟩ := sources_main sources_eq
        refine ⟨?_, ?_, last_le, size_pos, ?_, valid, ?_, (main_built built).main, carrier⟩
        · rw [List.reverse_reverse]
          exact ⟨before_sound, before_last, before_less, rest_tower⟩
        · change j.last = j.older.first + before.mass
          omega
        · change carry.value.size ≤ before.mass
          omega
        · rw [List.reverse_reverse]
          exact main_sources
      · refine indexes fun other first => ?_
        cases first
        refine double_lt sound.mass_pow before_sound.mass_pow (less before rfl) ?_
        omega
  · next none_before =>
      rw [none_before] at indexes
      exact indexes fun _ first => (Option.not_mem_none _ first).elim

/-- A finished index gets a carrier, or it is published. -/
theorem Indexes.afterIndex (indexes : j.Indexes) (bare : empty.value.size = 0)
    {node : Shared (ColaIndex P)}
    (assembles : MainPointer.Assembles (node :: j.target) (j.indexed empty) j.target none) :
    (ColaRuntime.afterIndex j node).Valid empty := by
  obtain ⟨carries, -, reaches⟩ := indexes
  obtain ⟨address, index, same, native_eq, -, -⟩ := assembles.shape
  cases same
  have built := assembles.built
  -- the new head reaches the result, be it the result or a carrier
  unfold ColaRuntime.afterIndex
  unfold indexed at native_eq
  cases carrier : j.carrier with
  | true =>
      rw [carrier, if_pos rfl] at reaches native_eq
      obtain ⟨node, main, result, native, sources_eq⟩ := reaches
      have routes := (congrArg (fun native => native.value.size) native_eq).trans bare
      have reached : sources (⟨address, index⟩ :: j.target) = _ :=
        (sources_routing routes).trans sources_eq
      simp only [if_true]
      split_ifs
      · exact ⟨carries.step .., built, node, main, result, native, reached⟩
      · exact ⟨carries.step .., ⟨node, main, result, native, reached⟩, built⟩
  | false =>
      rw [carrier, if_neg Bool.false_ne_true] at reaches native_eq
      have size := congrArg (fun native => native.value.size) native_eq
      have runs := ne_of_eq_of_ne size carries.size_pos.ne'
      have reached : sources (⟨address, index⟩ :: j.target) = _ :=
        (sources_cons runs).trans (congrArg _ reaches)
      simp only [Bool.false_eq_true, if_false]
      split_ifs
      · exact ⟨carries.step .., built, _, j.target, rfl, native_eq, reached⟩
      · exact ⟨carries.step .., ⟨_, j.target, rfl, native_eq, reached⟩, built⟩

/-- The runs with the result of a carry. -/
theorem Carries.tower_result (carries : j.Carries) {node : Shared (ColaIndex P)}
    (native : node.value.native = j.carry) (main : MainPointer P) :
    Tower j.last (⟨j.first, j.last, node, main⟩ :: j.earlier.reverse) := by
  refine ⟨⟨carries.first_lt, carries.mass_pow, ?_, ?_, ?_⟩, rfl, carries.less, carries.tower⟩
  · change 0 < node.value.native.value.size
    rw [native]
    exact carries.size_pos
  · change node.value.native.value.size ≤ j.last - j.first
    rw [native]
    exact carries.size_le
  · change node.value.native.value.ValidValues
    rw [native]
    exact carries.valid

end ColaContinuation

end Everett

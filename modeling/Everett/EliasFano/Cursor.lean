import Everett.EliasFano.Select

/-!
# Cursors

A cursor keeps the set bits of its current word from its next entry on.  It skips words without
bits, and enters the next sample at every group, dense or sparse.
-/

namespace Everett.EliasFano

open BitWords Outcome

variable {source : List (BitVec 64)} {index : Index} (sections : Sections source index)

/-- The bits of a word from an entry on. -/
structure Loaded (sections : Sections source index) (first ordinal word : ℕ)
    (remaining : BitVec 64) : Prop where
  reached : first / 64 ≤ word
  bits : ∀ b < 64, remaining.getLsbD b =
    (bitAt index.high (64 * word + b) &&
      decide (ordinal ≤ ones (bitAt index.high) (64 * word + b)))
  before : ones (bitAt index.high) (64 * word) ≤ ordinal
  after : ordinal ≤ ones (bitAt index.high) (64 * (word + 1))

include sections

/-- A set bit has no fewer bits below than an entry exactly when it is not before the entry. -/
theorem Sections.le_rank {i p : ℕ} (inside : i < source.length)
    (here : bitAt index.high p = true) :
    i ≤ ones (bitAt index.high) p ↔ sections.position i ≤ p := by
  have rank := sections.rank inside
  constructor
  · intro many
    by_contra less
    have next := ones_succ (bitAt index.high) p
    have mono : ones (bitAt index.high) (p + 1) ≤ ones (bitAt index.high) (sections.position i) :=
      ones_mono _ (by omega)
    rw [here, Bool.toNat_true] at next
    omega
  · intro less
    rw [← rank]
    exact ones_mono _ less

/-- Load the word of an entry. -/
theorem Sections.loaded {i first : ℕ} (inside : i < source.length)
    (later : first ≤ sections.position i) :
    Loaded sections first i (sections.position i / 64)
      (itemOf index.high (sections.position i / 64) &&&
        BitVec.allOnes 64 <<< (sections.position i % 64)) where
  reached := Nat.div_le_div_right later
  bits b small := by
    have split := Nat.div_add_mod (sections.position i) 64
    have place := bitAt_word index.high (sections.position i / 64) small
    have mask : (BitVec.allOnes 64 <<< (sections.position i % 64)).getLsbD b =
        decide (sections.position i ≤ 64 * (sections.position i / 64) + b) := by
      rw [BitVec.getLsbD_shiftLeft, decide_eq_true small, Bool.true_and, BitVec.getLsbD_allOnes,
        Bool.eq_iff_iff]
      simp only [Bool.and_eq_true, decide_eq_true_eq, Bool.not_eq_true', decide_eq_false_iff_not]
      omega
    rw [BitVec.getLsbD_and, mask, itemOf, ← place]
    cases here : bitAt index.high (64 * (sections.position i / 64) + b) with
    | false => rfl
    | true =>
        rw [Bool.true_and, Bool.true_and, Bool.eq_iff_iff, decide_eq_true_iff, decide_eq_true_iff,
          sections.le_rank inside here]
  before := by
    have mono : ones (bitAt index.high) (64 * (sections.position i / 64)) ≤
        ones (bitAt index.high) (sections.position i) := ones_mono _ (Nat.mul_div_le _ _)
    rwa [sections.rank inside] at mono
  after := by
    have lane := Nat.mod_lt (sections.position i) (y := 64) (by decide)
    have split := Nat.div_add_mod (sections.position i) 64
    have mono : ones (bitAt index.high) (sections.position i) ≤
        ones (bitAt index.high) (64 * (sections.position i / 64 + 1)) := ones_mono _ (by omega)
    rwa [sections.rank inside] at mono

variable {sections}

/-- The entry is not before the word. -/
theorem Loaded.word_le {first i word : ℕ} {remaining : BitVec 64}
    (loaded : Loaded sections first i word remaining) (inside : i < source.length) :
    64 * word ≤ sections.position i := by
  by_contra less
  have next := ones_succ (bitAt index.high) (sections.position i)
  have mono : ones (bitAt index.high) (sections.position i + 1) ≤
      ones (bitAt index.high) (64 * word) := ones_mono _ (by omega)
  have before := loaded.before
  rw [sections.here inside, sections.rank inside, Bool.toNat_true] at next
  omega

/-- A word without bits is left behind. -/
theorem Loaded.far {first i word : ℕ} (loaded : Loaded sections first i word 0#64)
    (inside : i < source.length) : 64 * (word + 1) ≤ sections.position i := by
  have least := loaded.word_le inside
  by_contra close
  have here : sections.position i / 64 = word := by omega
  have lane := Nat.mod_lt (sections.position i) (y := 64) (by decide)
  have place := Nat.div_add_mod (sections.position i) 64
  have bit := loaded.bits _ lane
  rw [here] at place
  rw [place, sections.here inside, sections.rank inside, decide_eq_true le_rfl,
    BitVec.getLsbD_zero] at bit
  exact Bool.false_ne_true bit

theorem Loaded.advance {first i word : ℕ} {remaining : BitVec 64}
    (loaded : Loaded sections first i word remaining) (inside : i < source.length)
    (near : sections.position i - first < 4096) {fuel : ℕ}
    (enough : sections.position i / 64 < word + fuel) :
    ∃ rest, advance index first fuel word remaining = .ok (sections.position i / 64, rest) ∧
      Loaded sections first i (sections.position i / 64) rest := by
  induction fuel generalizing word remaining with
  | zero =>
      have := loaded.word_le inside
      omega
  | succ fuel induction =>
      have least := loaded.word_le inside
      have there := sections.word_lt inside
      have reached := loaded.reached
      rw [EliasFano.advance]
      split_ifs with some stuck
      · obtain ⟨b, set⟩ : ∃ b, remaining.getLsbD b = true := by
          by_contra none
          refine some (BitVec.eq_of_getLsbD_eq fun b _ => ?_)
          rw [BitVec.getLsbD_zero, ← Bool.not_eq_true]
          exact fun set => none ⟨b, set⟩
        have small : b < 64 := BitVec.lt_of_getLsbD set
        rw [loaded.bits b small, Bool.and_eq_true, decide_eq_true_iff] at set
        have most := (sections.le_rank inside set.1).mp set.2
        have here : sections.position i / 64 = word := by omega
        rw [here]
        exact ⟨remaining, rfl, loaded⟩
      · have far := Loaded.far (not_not.mp some ▸ loaded) inside
        omega
      · have far := Loaded.far (not_not.mp some ▸ loaded) inside
        have after := loaded.after
        rw [loadWord_ok (by omega), ok_bind]
        refine induction ⟨by omega, fun b small => ?_, ?_, ?_⟩ (by omega)
        · have mono : ones (bitAt index.high) (64 * (word + 1)) ≤
              ones (bitAt index.high) (64 * (word + 1) + b) := ones_mono _ (Nat.le_add_right _ _)
          rw [bitAt_word _ _ small, decide_eq_true (after.trans mono), Bool.and_true]
          rfl
        · have mono : ones (bitAt index.high) (64 * (word + 1)) ≤
              ones (bitAt index.high) (sections.position i) := ones_mono _ far
          rwa [sections.rank inside] at mono
        · exact after.trans (ones_mono _ (by omega))

/-- The first remaining bit is the entry. -/
theorem Loaded.first_bit {first i : ℕ} {remaining : BitVec 64}
    (loaded : Loaded sections first i (sections.position i / 64) remaining)
    (inside : i < source.length) :
    remaining.getLsbD (sections.position i % 64) = true ∧
      ∀ b < sections.position i % 64, remaining.getLsbD b = false := by
  have lane := Nat.mod_lt (sections.position i) (y := 64) (by decide)
  have place := Nat.div_add_mod (sections.position i) 64
  refine ⟨?_, fun b less => ?_⟩
  · rw [loaded.bits _ lane, place, sections.here inside, sections.rank inside,
      decide_eq_true le_rfl]
    rfl
  · rw [loaded.bits b (less.trans lane)]
    cases here : bitAt index.high (64 * (sections.position i / 64) + b) with
    | false => rfl
    | true =>
        rw [Bool.true_and, decide_eq_false]
        rw [sections.le_rank inside here]
        omega

/-- Clear the bit of the entry. -/
theorem Loaded.clear {first i : ℕ} {remaining : BitVec 64}
    (loaded : Loaded sections first i (sections.position i / 64) remaining)
    (inside : i < source.length) :
    Loaded sections first (i + 1) (sections.position i / 64)
      (remaining &&& (remaining - 1#64)) := by
  obtain ⟨set, clear⟩ := loaded.first_bit inside
  have lane := Nat.mod_lt (sections.position i) (y := 64) (by decide)
  have place := Nat.div_add_mod (sections.position i) 64
  have next := ones_succ (bitAt index.high) (sections.position i)
  rw [sections.here inside, sections.rank inside, Bool.toNat_true] at next
  refine ⟨loaded.reached, fun b small => ?_, loaded.before.trans (Nat.le_succ i), ?_⟩
  · rw [getLsbD_clear_lowest set clear, loaded.bits b small]
    cases here : bitAt index.high (64 * (sections.position i / 64) + b) with
    | false => rfl
    | true =>
        rw [Bool.true_and, Bool.true_and, Bool.eq_iff_iff, Bool.and_eq_true, decide_eq_true_iff,
          decide_eq_true_iff, decide_eq_true_iff]
        constructor
        · rintro ⟨least, other⟩
          refine lt_of_le_of_ne least fun same => other ?_
          have equal := ones_injective here (sections.here inside)
            (same.symm.trans (sections.rank inside).symm)
          omega
        · intro more
          refine ⟨by omega, ?_⟩
          rintro rfl
          rw [place, sections.rank inside] at more
          omega
  · rw [← next]
    exact ones_mono _ (by omega)

/-! ## Runs -/

/-- A cursor in the group of its next entry. -/
structure Entered (sections : Sections source index) (cursor : Cursor) : Prop where
  sampled : Sampled sections.position source.length (cursor.ordinal / 256) index.sparse cursor.sample
  loaded : cursor.sample.sparse = dense →
    Loaded sections cursor.sample.first cursor.ordinal cursor.word cursor.remaining

/-- A cursor between entries. -/
structure Reading (sections : Sections source index) (cursor : Cursor) : Prop where
  most : cursor.ordinal ≤ source.length
  entered : cursor.ordinal % 256 ≠ 0 → cursor.ordinal < source.length → Entered sections cursor

theorem Reading.enterGroup_ok {cursor : Cursor} (reading : Reading sections cursor)
    (inside : cursor.ordinal < source.length) :
    ∃ entered, enterGroup index cursor = .ok entered ∧ entered.ordinal = cursor.ordinal ∧
      Entered sections entered := by
  rw [enterGroup]
  by_cases middle : cursor.ordinal % 256 ≠ 0
  · rw [if_pos middle]
    exact ⟨cursor, rfl, rfl, reading.entered middle inside⟩
  · have start : 256 * (cursor.ordinal / 256) = cursor.ordinal := by omega
    obtain ⟨sample, there, sampled⟩ := sections.sample_ok inside
    have first := sampled.first
    rw [start] at first
    rw [if_neg middle, there, demand_some, ok_bind]
    split_ifs with far high
    · exact ⟨_, rfl, rfl, sampled, fun near => absurd near far⟩
    · rw [first] at high
      exact absurd (sections.position_lt inside) (Nat.not_lt.mpr high)
    · have loaded := @Sections.loaded _ _ sections _ sample.first inside first.le
      rw [← first] at loaded
      rw [loadWord_ok (by rw [first]; exact sections.word_lt inside), ok_bind]
      exact ⟨_, rfl, rfl, sampled, fun _ => loaded⟩

theorem Entered.nextPosition_ok {cursor : Cursor} (entered : Entered sections cursor)
    (inside : cursor.ordinal < source.length) :
    ∃ after, nextPosition index cursor = .ok (sections.position cursor.ordinal, after) ∧
      after.ordinal = cursor.ordinal ∧ after.sample = cursor.sample ∧
      (cursor.sample.sparse = dense → after.word = sections.position cursor.ordinal / 64 ∧
        Loaded sections cursor.sample.first cursor.ordinal
          (sections.position cursor.ordinal / 64) after.remaining) := by
  rw [nextPosition]
  split_ifs with far
  · rw [sections.sparsePosition_ok inside entered.sampled far]
    exact ⟨cursor, rfl, rfl, rfl, fun near => absurd near far⟩
  · have loaded := entered.loaded (not_not.mp far)
    have start : 256 * (cursor.ordinal / 256) ≤ cursor.ordinal := Nat.mul_div_le _ _
    have near := entered.sampled.spans (not_not.mp far) cursor.ordinal start (by omega) inside
    rw [← entered.sampled.first] at near
    have there := sections.word_lt inside
    have limit := sections.position_lt inside
    obtain ⟨rest, advanced, reached⟩ := @Loaded.advance _ _ _ _ _ _ _ loaded inside
      near (index.high.length + 1) (by omega)
    obtain ⟨set, clear⟩ := reached.first_bit inside
    have place : sections.position cursor.ordinal / 64 * 64 +
        sections.position cursor.ordinal % 64 = sections.position cursor.ordinal :=
      Nat.div_add_mod' _ _
    rw [advanced, ok_bind]
    dsimp only
    rw [countrZero_eq set clear, place, if_neg (by omega)]
    exact ⟨_, rfl, rfl, rfl, fun _ => ⟨rfl, reached⟩⟩

theorem Reading.next_ok {cursor : Cursor} (reading : Reading sections cursor)
    (inside : cursor.ordinal < source.length) :
    ∃ after, next index cursor = .ok (itemOf source cursor.ordinal, after) ∧
      after.ordinal = cursor.ordinal + 1 ∧ Reading sections after := by
  obtain ⟨entered, entering, same, ready⟩ := reading.enterGroup_ok inside
  rw [← same] at inside ⊢
  obtain ⟨found, positioned, kept, sampled, loaded⟩ := ready.nextPosition_ok inside
  have running : cursor.ordinal ≠ index.entryCount := by
    rw [sections.entries, ← same]
    exact inside.ne
  refine ⟨{ found with
    remaining := found.remaining &&& (found.remaining - 1#64), ordinal := found.ordinal + 1 }, ?_,
    by rw [kept], ?_, fun middle further => ⟨?_, fun near => ?_⟩⟩
  · rw [next, if_neg running, entering, ok_bind, positioned, ok_bind]
    dsimp only
    rw [kept, sections.decode_ok inside, ok_bind]
  · change found.ordinal + 1 ≤ _
    omega
  · change (found.ordinal + 1) % 256 ≠ 0 at middle
    have group : (found.ordinal + 1) / 256 = entered.ordinal / 256 := by omega
    change Sampled _ _ ((found.ordinal + 1) / 256) _ found.sample
    rw [group, sampled]
    exact ready.sampled
  · change found.sample.sparse = dense at near
    rw [sampled] at near
    obtain ⟨word, reached⟩ := loaded near
    change Loaded sections found.sample.first (found.ordinal + 1) found.word _
    rw [word, kept, sampled]
    exact reached.clear inside

theorem Reading.nexts_ok {cursor : Cursor} (reading : Reading sections cursor) {count : ℕ}
    (inside : cursor.ordinal + count ≤ source.length) :
    ∃ after, nexts index count cursor = .ok ((source.drop cursor.ordinal).take count, after) ∧
      after.ordinal = cursor.ordinal + count := by
  induction count generalizing cursor with
  | zero => exact ⟨cursor, rfl, rfl⟩
  | succ count induction =>
      have here : cursor.ordinal < source.length := by omega
      obtain ⟨middle, step, ordinal, further⟩ := reading.next_ok here
      obtain ⟨after, run, last⟩ := induction further (by omega)
      refine ⟨after, ?_, by omega⟩
      rw [nexts, step, ok_bind]
      dsimp only
      rw [run, ok_bind, ordinal, List.drop_eq_getElem_cons here, List.take_succ_cons, itemOf,
        List.getElem?_eq_getElem here]
      rfl

variable (sections)

theorem Sections.cursor_ok (deposits : Bool) {start : ℕ} (inside : start ≤ source.length) :
    ∃ first, cursor deposits index start = .ok first ∧ first.ordinal = start ∧
      Reading sections first := by
  rw [cursor, sections.entries, if_neg (Nat.not_lt.mpr inside)]
  by_cases boundary : start = source.length ∨ start % 256 = 0
  · rw [if_pos boundary]
    refine ⟨_, rfl, rfl, inside, fun middle further => ?_⟩
    change start % 256 ≠ 0 at middle
    change start < source.length at further
    omega
  · have further : start < source.length := by omega
    obtain ⟨sample, there, sampled⟩ := sections.sample_ok further
    rw [if_neg boundary, there, demand_some, ok_bind]
    split_ifs with near
    · have later : sample.first ≤ sections.position start := by
        rw [sampled.first]
        exact sections.position_mono (Nat.mul_div_le _ _) further
      rw [sections.selectHigh_ok deposits further, ok_bind, loadWord_ok (sections.word_lt further),
        ok_bind]
      exact ⟨_, rfl, rfl, inside, fun _ _ => ⟨sampled, fun _ => sections.loaded further later⟩⟩
    · exact ⟨_, rfl, rfl, inside, fun _ _ => ⟨sampled, fun same => absurd same near⟩⟩

theorem Sections.view_ok : view index = .ok index := by
  have narrow := sections.narrow
  have positive := sections.positive
  have admitted := sections.admitted
  have size := sections.samples.size
  change index.samples.length = _ at size
  rw [← sections.entries] at positive admitted size
  rw [view, if_neg (by omega), if_neg positive.ne', if_neg admitted, if_neg]
  rw [sections.low_size, sections.high_size, size, sections.entries]
  omega

omit sections

/-- A sequence is refused because it decreases or its sections are too large, or every entry of its
index is found: by its ordinal, and by a cursor which starts at any ordinal and reads to the end. -/
theorem elias_fano_exact (deposits : Bool) (source : List (BitVec 64)) :
    (¬Nondecreasing source ∧ build source = .error "elias_fano nonmonotone offsets") ∨
      (tooLarge source.length (itemOf source (source.length - 1)).toNat
        (chooseWidth (itemOf source (source.length - 1)).toNat source.length) ∧
          build source = .error "elias_fano section extent") ∨
      ∃ index, build source = .ok index ∧ view index = .ok index ∧
        (∀ (i : ℕ) (inside : i < source.length), select deposits index i = .ok source[i]) ∧
        ∀ start ≤ source.length, ∃ first last, cursor deposits index start = .ok first ∧
          nexts index (source.length - start) first = .ok (source.drop start, last) ∧
          last.ordinal = index.entryCount := by
  by_cases some : source = []
  · subst some
    refine .inr (.inr ⟨_, rfl, rfl, fun i inside => absurd inside (Nat.not_lt_zero i),
      fun start inside => ?_⟩)
    rw [Nat.le_zero.mp inside]
    exact ⟨_, _, rfl, rfl, rfl⟩
  by_cases sorted : Nondecreasing source
  · by_cases admitted : tooLarge source.length (itemOf source (source.length - 1)).toNat
        (chooseWidth (itemOf source (source.length - 1)).toNat source.length)
    · refine .inr (.inl ⟨admitted, ?_⟩)
      have monotone := (monotone_iff source).mpr sorted
      rw [build, if_neg some, monotone, if_neg Bool.true_eq_false_eq_False]
      exact if_pos admitted
    · obtain ⟨index, built, sections⟩ := build_ok some sorted admitted
      refine .inr (.inr ⟨index, built, sections.view_ok, fun i inside => ?_, fun start inside => ?_⟩)
      · rw [sections.select_ok deposits inside, itemOf, List.getElem?_eq_getElem inside]
        rfl
      · obtain ⟨first, made, ordinal, reading⟩ := sections.cursor_ok deposits inside
        obtain ⟨last, run, done⟩ := @Reading.nexts_ok _ _ _ _ reading
          (source.length - start) (by omega)
        rw [ordinal, List.take_of_length_le (by rw [List.length_drop])] at run
        refine ⟨first, last, made, run, ?_⟩
        rw [sections.entries]
        omega
  · refine .inl ⟨sorted, ?_⟩
    have decreasing : monotone source = false := by
      rw [← Bool.not_eq_true, monotone_iff]
      exact sorted
    rw [build, if_neg some, if_pos decreasing]

end Everett.EliasFano

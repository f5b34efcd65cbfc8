import Everett.Bits
import Mathlib.Tactic

/-!
# Keys of one, two or four words

A key is a sequence of little-endian words of 32 bits, the most significant word first.  A scalar
loop, weighted lanes and masks of lanes decide which keys precede a query.
-/

namespace Everett.FixedSearch

open Outcome

/-- Number of words of a key. -/
inductive KeyWidth
  | one
  | two
  | four

namespace KeyWidth

/-- `Words`. -/
def words : KeyWidth → ℕ
  | one => 1
  | two => 2
  | four => 4

/-- `key_bytes`. -/
def bytes (K : KeyWidth) : ℕ := K.words * 4

theorem words_pos (K : KeyWidth) : 0 < K.words := by
  cases K <;> decide

end KeyWidth

/-- `key_type`. -/
abbrev Key (K : KeyWidth) := Fin K.words → BitVec 32

/-- A little-endian word of a sequence of bytes. -/
def wordAt (source : List (BitVec 8)) (offset : ℕ) : BitVec 32 :=
  (source[offset + 3]?.getD 0#8) ++ (source[offset + 2]?.getD 0#8) ++
    (source[offset + 1]?.getD 0#8) ++ (source[offset]?.getD 0#8)

/-- `load_word`; nothing behind the end of an array is loaded. -/
def loadWord (source : List (BitVec 8)) (offset : ℕ) : Result (BitVec 32) := do
  require (offset + 4 ≤ source.length) "word behind the end of the keys"
  .ok (wordAt source offset)

/-- The key at an offset. -/
def keyAt (K : KeyWidth) (source : List (BitVec 8)) (offset : ℕ) : Key K :=
  fun i => wordAt source (offset + 4 * i)

/-- A key as a number, whose digits are its words. -/
def number {K : KeyWidth} (key : Key K) : ℕ :=
  (List.finRange K.words).foldl (fun n i => n * 2 ^ 32 + (key i).toNat) 0

/-- Whether a key is less than a query, or at most the query for an upper bound. -/
def below {K : KeyWidth} (upper : Bool) (query key : Key K) : Bool :=
  if upper then number key ≤ number query else number key < number query

variable {K : KeyWidth} {source : List (BitVec 8)} {offset : ℕ}

theorem loadWord_ok (inside : offset + 4 ≤ source.length) :
    loadWord source offset = .ok (wordAt source offset) := by
  rw [loadWord, require_true inside, ok_bind]

/-! ## Scalar comparison -/

/-- `precedes`. -/
def precedes (K : KeyWidth) (upper : Bool) (source : List (BitVec 8)) (offset : ℕ)
    (query : Key K) : Result Bool := do
  let (less, equal) ← (List.finRange K.words).foldlM (fun (less, equal) i => do
    let value ← loadWord source (offset + 4 * i)
    .ok (less || (equal && decide (value < query i)), equal && decide (value = query i)))
    (false, true)
  .ok (if upper then less || equal else less)

/-- One more digit decides between numbers which were equal so far. -/
theorem digit_lt {n m : ℕ} (v w : BitVec 32) :
    (n * 2 ^ 32 + v.toNat < m * 2 ^ 32 + w.toNat ↔ n < m ∨ n = m ∧ v < w) ∧
      (n * 2 ^ 32 + v.toNat = m * 2 ^ 32 + w.toNat ↔ n = m ∧ v = w) := by
  have first := v.isLt
  have second := w.isLt
  rw [BitVec.lt_def, ← BitVec.toNat_inj]
  omega

/-- Numbers are ordered as their keys are, the most significant word first. -/
theorem number_lt_iff (key query : Key K) :
    number key < number query ↔ List.ofFn key < List.ofFn query := by
  have digits : ∀ (places : List (Fin K.words)) (n m : ℕ),
      places.foldl (fun n i => n * 2 ^ 32 + (key i).toNat) n <
          places.foldl (fun n i => n * 2 ^ 32 + (query i).toNat) m ↔
        n < m ∨ n = m ∧ places.map key < places.map query := by
    intro places
    induction places with
    | nil =>
        intro n m
        rw [List.map_nil, List.map_nil]
        exact ⟨.inl, fun less => less.elim id fun same => absurd same.2 (List.lt_irrefl [])⟩
    | cons i places induction =>
        intro n m
        obtain ⟨less, equal⟩ := @digit_lt n m (key i) (query i)
        rw [List.foldl_cons, List.foldl_cons, induction, less, equal, List.map_cons, List.map_cons,
          List.cons_lt_cons_iff]
        grind
  rw [List.ofFn_eq_map, List.ofFn_eq_map]
  refine (digits (List.finRange K.words) 0 0).trans ?_
  exact ⟨fun less => less.elim (absurd · (Nat.lt_irrefl 0)) And.right, fun less => .inr ⟨rfl, less⟩⟩

/-- A key precedes a query in the order of keys, or is not behind it for an upper bound. -/
theorem below_iff (upper : Bool) (query key : Key K) :
    below upper query key = true ↔
      if upper then ¬List.ofFn query < List.ofFn key else List.ofFn key < List.ofFn query := by
  unfold below
  cases upper
  · exact decide_eq_true_iff.trans (number_lt_iff key query)
  · exact decide_eq_true_iff.trans (Nat.not_lt.symm.trans (number_lt_iff query key).not)

/-- The flags of the loop compare the digits which it has passed. -/
theorem compare_digits (query : Key K) (inside : offset + K.bytes ≤ source.length)
    (places : List (Fin K.words)) (n m : ℕ) :
    places.foldlM (fun ((less, equal) : Bool × Bool) i => do
        let value ← loadWord source (offset + 4 * i)
        .ok (less || (equal && decide (value < query i)), equal && decide (value = query i)))
      (decide (n < m), decide (n = m)) =
    (let value := places.foldl (fun n i => n * 2 ^ 32 + (keyAt K source offset i).toNat) n
     let other := places.foldl (fun n i => n * 2 ^ 32 + (query i).toNat) m
     .ok (decide (value < other), decide (value = other)) : Result (Bool × Bool)) := by
  induction places generalizing n m with
  | nil => rfl
  | cons i places induction =>
      have loaded : loadWord source (offset + 4 * i) = .ok (keyAt K source offset i) := by
        refine loadWord_ok ?_
        have place := i.isLt
        unfold KeyWidth.bytes at inside
        omega
      obtain ⟨less, equal⟩ := @digit_lt n m (keyAt K source offset i) (query i)
      rw [List.foldl_cons, List.foldl_cons, ← induction, List.foldlM_cons]
      dsimp only
      rw [loaded, ok_bind, ok_bind]
      simp only [less, equal, Bool.decide_or, Bool.decide_and]

theorem precedes_ok (upper : Bool) (query : Key K) (inside : offset + K.bytes ≤ source.length) :
    precedes K upper source offset query = .ok (below upper query (keyAt K source offset)) := by
  have compared := compare_digits query inside (List.finRange K.words) 0 0
  rw [decide_eq_false (Nat.lt_irrefl 0), decide_eq_true rfl] at compared
  rw [precedes, compared, ok_bind]
  change Except.ok (if upper = true then decide (number _ < number query) ||
    decide (number _ = number query) else decide (number _ < number query)) = _
  unfold below
  cases upper
  · rfl
  · simp only [if_true, ← Bool.decide_or, Nat.le_iff_lt_or_eq]

/-! ## Weighted lanes -/

/-- A lane of a comparison: all bits set or none. -/
def mask (holds : Bool) : BitVec 32 := if holds then BitVec.allOnes 32 else 0#32

/-- `precedes_four`: more significant unequal words outweigh the following ones. -/
def precedesFour (upper : Bool) (source : List (BitVec 8)) (offset : ℕ) (query : Key .four) :
    Result Bool := do
  let comparison ← (List.finRange KeyWidth.four.words).foldlM
    (fun sum (i : Fin KeyWidth.four.words) => do
    let value ← loadWord source (offset + 4 * i)
    let order := mask (query i < value) - mask (value < query i)
    .ok (sum + order * (8#32 >>> i.val))) 0#32
  .ok (if upper then (0#32).sle comparison else (0#32).slt comparison)

/-- Words which are neither less nor greater are equal. -/
theorem decide_word_eq (value query : BitVec 32) :
    decide (value = query) = (!decide (value < query) && !decide (query < value)) := by
  rw [Bool.eq_iff_iff]
  simp only [decide_eq_true_eq, Bool.and_eq_true, Bool.not_eq_true', decide_eq_false_iff_not,
    BitVec.lt_def, ← BitVec.toNat_inj]
  omega

/-- The first word which differs decides the sign of the weighted sum. -/
theorem weighted_sign : ∀ upper a a' b b' c c' d d' : Bool, (a && a') = false →
    (b && b') = false → (c && c') = false → (d && d') = false →
    (let sum := 0#32 + (mask a' - mask a) * 8#32 + (mask b' - mask b) * (8#32 >>> 1) +
      (mask c' - mask c) * (8#32 >>> 2) + (mask d' - mask d) * (8#32 >>> 3)
     if upper then (0#32).sle sum else (0#32).slt sum) =
    (let first := !a && !a'
     let second := first && (!b && !b')
     let third := second && (!c && !c')
     let less := a || first && b || second && c || third && d
     if upper then less || third && (!d && !d') else less) := by
  decide

theorem precedesFour_ok (upper : Bool) (query : Key .four) (inside : offset + 16 ≤ source.length) :
    precedesFour upper source offset query =
      .ok (below upper query (keyAt .four source offset)) := by
  have scalar : precedes .four upper source offset query =
      .ok (below upper query (keyAt .four source offset)) := precedes_ok upper query inside
  have apart : ∀ v w : BitVec 32, (decide (v < w) && decide (w < v)) = false := fun v w => by
    rw [Bool.and_eq_false_iff, decide_eq_false_iff_not, decide_eq_false_iff_not, BitVec.lt_def,
      BitVec.lt_def]
    omega
  have loaded : ∀ i : Fin KeyWidth.four.words, loadWord source (offset + 4 * i) =
      .ok (keyAt .four source offset i) := fun i => by
    have place : i.val < 4 := i.isLt
    exact loadWord_ok (by omega)
  have places : List.finRange KeyWidth.four.words =
      [(⟨0, by decide⟩ : Fin KeyWidth.four.words), ⟨1, by decide⟩, ⟨2, by decide⟩,
        ⟨3, by decide⟩] := rfl
  rw [← scalar, precedesFour, precedes, places]
  simp only [List.foldlM_cons, List.foldlM_nil, loaded, ok_bind, pure_eq_ok, decide_word_eq,
    Bool.false_or, Bool.true_and]
  exact congrArg Except.ok (weighted_sign upper _ _ _ _ _ _ _ _ (apart _ _) (apart _ _) (apart _ _)
    (apart _ _))

end Everett.FixedSearch

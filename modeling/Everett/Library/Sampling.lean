import Mathlib.Tactic

/-!
# Sampling every `k`-th element

A sample of a list consists of its elements at multiples of a stride.  Consecutive samples of a
sorted list bound the group between them.
-/

namespace Everett

variable {α : Type*}

/-- Quotient rounded up. -/
def ceilDiv (n d : Nat) : Nat := n / d + if n % d = 0 then 0 else 1

theorem ceilDiv_le_iff {n d m : Nat} (positive : 0 < d) : ceilDiv n d ≤ m ↔ n ≤ m * d := by
  have split := Nat.div_add_mod n d
  have small := Nat.mod_lt n positive
  unfold ceilDiv
  constructor
  · intro bound
    have scaled := Nat.mul_le_mul_left d bound
    split at scaled
    · nlinarith
    · nlinarith
  · intro bound
    by_contra exceeds
    split at exceeds
    · have scaled : d * (m + 1) ≤ d * (n / d) := Nat.mul_le_mul_left d (by omega)
      nlinarith
    · have scaled : d * m ≤ d * (n / d) := Nat.mul_le_mul_left d (by omega)
      have positive_rest : 0 < n % d := by omega
      nlinarith

theorem lt_ceilDiv_iff {n d m : Nat} (positive : 0 < d) : m < ceilDiv n d ↔ m * d < n := by
  rw [← not_le, ceilDiv_le_iff positive, not_le]

theorem le_ceilDiv_mul {n d : Nat} (positive : 0 < d) : n ≤ ceilDiv n d * d :=
  (ceilDiv_le_iff positive).mp le_rfl

theorem ceilDiv_mono {n m d : Nat} (positive : 0 < d) (bound : n ≤ m) :
    ceilDiv n d ≤ ceilDiv m d :=
  (ceilDiv_le_iff positive).mpr (bound.trans (le_ceilDiv_mul positive))

theorem ceilDiv_succ {n d : Nat} (positive : 0 < d) : ceilDiv (n + 1) d = n / d + 1 := by
  refine Nat.le_antisymm ?_ ?_
  · rw [ceilDiv_le_iff positive]
    have := Nat.lt_div_mul_add positive (a := n)
    rw [Nat.succ_mul]
    omega
  · rw [Nat.succ_le_iff, lt_ceilDiv_iff positive, Nat.lt_succ_iff]
    exact Nat.div_mul_le_self n d

theorem ceilDiv_of_dvd {n d : Nat} (divides : n % d = 0) : ceilDiv n d = n / d := by
  simp [ceilDiv, divides]

theorem ceilDiv_of_not_dvd {n d : Nat} (rest : n % d ≠ 0) : ceilDiv n d = n / d + 1 := by
  simp [ceilDiv, rest]

@[simp]
theorem ceilDiv_zero (d : Nat) : ceilDiv 0 d = 0 := by
  simp [ceilDiv]

theorem ceilDiv_le_self {n d : Nat} (positive : 0 < d) : ceilDiv n d ≤ n :=
  (ceilDiv_le_iff positive).mpr (Nat.le_mul_of_pos_right n positive)

/-- Elements of a list at ordinals `0`, `k`, `2 k` and so on. -/
def sample (k : Nat) : List α → List α
  | [] => []
  | a :: rest => a :: sample k (rest.drop (k - 1))
  termination_by list => list.length
  decreasing_by simp

@[simp]
theorem sample_nil (k : Nat) : sample k ([] : List α) = [] := by
  rw [sample]

theorem sample_cons {k : Nat} (positive : 0 < k) (a : α) (rest : List α) :
    sample k (a :: rest) = a :: sample k ((a :: rest).drop k) := by
  rw [sample]
  obtain ⟨stride, rfl⟩ := Nat.exists_eq_succ_of_ne_zero positive.ne'
  simp

theorem head?_sample (k : Nat) (list : List α) : (sample k list).head? = list.head? := by
  cases list with
  | nil => simp
  | cons a rest => rw [sample]; rfl

theorem tail_sample {k : Nat} (positive : 0 < k) (list : List α) :
    (sample k list).tail = sample k (list.drop k) := by
  cases list with
  | nil => simp
  | cons a rest => rw [sample_cons positive, List.tail_cons]

theorem getElem?_sample {k : Nat} (positive : 0 < k) (list : List α) (i : Nat) :
    (sample k list)[i]? = list[i * k]? := by
  induction i generalizing list with
  | zero =>
      rw [Nat.zero_mul, ← List.head?_eq_getElem?, ← List.head?_eq_getElem?, head?_sample]
  | succ i induction =>
      rw [← List.getElem?_tail, tail_sample positive, induction, List.getElem?_drop]
      congr 1
      rw [Nat.succ_mul, Nat.add_comm]

theorem length_sample {k : Nat} (positive : 0 < k) (list : List α) :
    (sample k list).length = ceilDiv list.length k := by
  refine Nat.le_antisymm ?_ ?_
  · rw [← Nat.not_lt]
    intro longer
    have present := List.getElem?_eq_getElem longer
    rw [getElem?_sample positive, List.getElem?_eq_some_iff] at present
    obtain ⟨inside, -⟩ := present
    exact absurd (le_ceilDiv_mul positive) (Nat.not_le.mpr inside)
  · rw [ceilDiv_le_iff positive, ← Nat.not_lt]
    intro longer
    have absent : (sample k list)[(sample k list).length]? = none := by simp
    rw [getElem?_sample positive, List.getElem?_eq_none_iff] at absent
    omega

theorem sublist_sample (k : Nat) (list : List α) : (sample k list).Sublist list := by
  induction list using sample.induct k with
  | case1 => simp
  | case2 a rest induction =>
      rw [sample]
      exact (induction.trans (List.drop_sublist _ _)).cons_cons a

theorem map_sample {β : Type*} (k : Nat) (f : α → β) (list : List α) :
    (sample k list).map f = sample k (list.map f) := by
  induction list using sample.induct k with
  | case1 => simp
  | case2 a rest induction => rw [sample, List.map_cons, List.map_cons, sample, induction,
      List.map_drop]

theorem getElem?_getLast {list : List α} {count : Nat} (nonzero : count ≠ 0)
    (bound : count ≤ list.length) : (list.take count).getLast? = list[count - 1]? := by
  rw [List.getLast?_eq_getElem?, List.length_take, min_eq_left bound,
    List.getElem?_take_of_lt (by omega)]

end Everett

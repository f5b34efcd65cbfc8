import Mathlib.Tactic

/-!
# Partition points

A predicate on positions which holds up to a point and fails from there on.  A search for the point
keeps an interval around it and halves the interval at each probe.
-/

namespace Everett.Partition

/-- The predicate holds exactly before a point which is at most the length. -/
structure Parted (below : ℕ → Bool) (length point : ℕ) : Prop where
  inside : point ≤ length
  iff : ∀ i < length, below i = decide (i < point)

variable {below : ℕ → Bool} {length point : ℕ}

theorem Parted.lt_of_below (parted : Parted below length point) {i : ℕ} (less : i < length)
    (holds : below i = true) : i < point := by
  rw [parted.iff i less] at holds
  exact of_decide_eq_true holds

theorem Parted.le_of_not_below (parted : Parted below length point) {i : ℕ} (less : i < length)
    (fails : below i = false) : point ≤ i := by
  rw [parted.iff i less] at fails
  exact Nat.not_lt.mp (of_decide_eq_false fails)

theorem Parted.unique (parted : Parted below length point) {other : ℕ}
    (other_parted : Parted below length other) : point = other := by
  rcases Nat.lt_trichotomy point other with less | same | more
  · have first := parted.iff point (less.trans_le other_parted.inside)
    rw [other_parted.iff point (less.trans_le other_parted.inside), decide_eq_true less] at first
    exact absurd (of_decide_eq_true first.symm) (Nat.lt_irrefl _)
  · exact same
  · have first := parted.iff other (more.trans_le parted.inside)
    rw [other_parted.iff other (more.trans_le parted.inside), decide_eq_true more] at first
    exact absurd (of_decide_eq_true first) (Nat.lt_irrefl _)

/-- Behind a position the predicate is parted at what is left of the point. -/
theorem Parted.window (parted : Parted below length point) {first count : ℕ}
    (before : first ≤ point) (after : point ≤ first + count) (whole : first + count ≤ length) :
    Parted (fun i => below (first + i)) count (point - first) := by
  refine ⟨by omega, fun i less => ?_⟩
  rw [parted.iff (first + i) (by omega)]
  exact decide_eq_decide.mpr (by omega)

/-- A predicate which never holds again once it failed is parted. -/
theorem exists_parted (falls : ∀ i j, i ≤ j → j < length → below j = true → below i = true) :
    ∃ point, Parted below length point := by
  induction length with
  | zero => exact ⟨0, le_rfl, fun i less => absurd less (Nat.not_lt_zero i)⟩
  | succ length induction =>
      obtain ⟨point, parted⟩ := induction fun i j le less => falls i j le (by omega)
      cases last : below length with
      | true =>
          refine ⟨length + 1, le_rfl, fun i less => ?_⟩
          rw [decide_eq_true less]
          exact falls i length (by omega) (Nat.lt_succ_self _) last
      | false =>
          refine ⟨point, Nat.le_succ_of_le parted.inside, fun i less => ?_⟩
          rcases Nat.lt_succ_iff_lt_or_eq.mp less with before | rfl
          · exact parted.iff i before
          · rw [last, decide_eq_false (Nat.not_lt.mpr parted.inside)]

/-- The point is the number of positions at which the predicate holds. -/
theorem Parted.countP (parted : Parted below length point) :
    (List.range length).countP below = point := by
  induction length generalizing point with
  | zero => exact (Nat.le_zero.mp parted.inside).symm
  | succ length induction =>
      have last := parted.iff length (Nat.lt_succ_self _)
      rw [List.range_succ, List.countP_append, List.countP_singleton]
      rcases Nat.lt_or_ge length point with whole | before
      · have shorter : Parted below length length :=
          ⟨le_rfl, fun i less => by
            rw [parted.iff i (by omega), decide_eq_true (by omega), decide_eq_true less]⟩
        have inside := parted.inside
        rw [induction shorter, if_pos (by rw [last, decide_eq_true whole])]
        omega
      · have shorter : Parted below length point :=
          ⟨before, fun i less => parted.iff i (by omega)⟩
        rw [induction shorter, if_neg (by rw [last, decide_eq_false (by omega)]; simp)]
        rfl

end Everett.Partition

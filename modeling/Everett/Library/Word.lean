import Mathlib.Data.List.Lex
import Mathlib.Order.Compare
import Mathlib.Tactic

/-!
# Words, common prefixes and dictionary order

Words over a linear order are compared by their first difference, a proper prefix coming first.
Along a sorted walk the longest common prefix behaves like a distance: it is an ultrametric, and
the prefix shared by two ends of a walk is the least one shared by adjacent words.
-/

namespace Everett.Word

variable {α : Type*} [LinearOrder α]

/-- Length of the longest common prefix of two words. -/
def lcp : List α → List α → Nat
  | a :: as, b :: bs => if a = b then lcp as bs + 1 else 0
  | [], _ => 0
  | _ :: _, [] => 0

/-- Dictionary comparison; a proper prefix precedes its extensions. -/
def order : List α → List α → Ordering
  | [], [] => .eq
  | [], _ :: _ => .lt
  | _ :: _, [] => .gt
  | a :: as, b :: bs => if a = b then order as bs else if a < b then .lt else .gt

@[simp]
theorem lcp_nil_left (w : List α) : lcp [] w = 0 := by
  cases w <;> rfl

@[simp]
theorem lcp_nil_right (w : List α) : lcp w [] = 0 := by
  cases w <;> rfl

@[simp]
theorem lcp_cons_self (a : α) (v w : List α) : lcp (a :: v) (a :: w) = lcp v w + 1 :=
  if_pos rfl

theorem lcp_cons_of_ne {a b : α} (ne : a ≠ b) (v w : List α) : lcp (a :: v) (b :: w) = 0 :=
  if_neg ne

@[simp]
theorem order_nil_nil : order ([] : List α) [] = .eq := rfl

@[simp]
theorem order_nil_cons (b : α) (w : List α) : order [] (b :: w) = .lt := rfl

@[simp]
theorem order_cons_nil (a : α) (v : List α) : order (a :: v) [] = .gt := rfl

@[simp]
theorem order_cons_self (a : α) (v w : List α) : order (a :: v) (a :: w) = order v w :=
  if_pos rfl

theorem order_cons_of_ne {a b : α} (ne : a ≠ b) (v w : List α) :
    order (a :: v) (b :: w) = if a < b then .lt else .gt :=
  if_neg ne

theorem order_eq_lt {v w : List α} : order v w = .lt ↔ v < w := by
  induction v generalizing w with
  | nil => cases w <;> simp
  | cons a v induction =>
      cases w with
      | nil => simp
      | cons b w =>
          rw [List.cons_lt_cons_iff]
          rcases lt_trichotomy a b with less | rfl | greater
          · simp [order_cons_of_ne less.ne, less]
          · simp [induction]
          · simp [order_cons_of_ne greater.ne', greater.ne', greater.not_gt]

theorem order_eq_eq {v w : List α} : order v w = .eq ↔ v = w := by
  induction v generalizing w with
  | nil => cases w <;> simp
  | cons a v induction =>
      cases w with
      | nil => simp
      | cons b w =>
          by_cases heads : a = b
          · simp [heads, induction]
          · by_cases less : a < b <;> simp [order_cons_of_ne heads, heads, less]

theorem order_eq_gt {v w : List α} : order v w = .gt ↔ w < v := by
  have three : order v w = .gt ↔ ¬ order v w = .lt ∧ ¬ order v w = .eq := by
    cases order v w <;> simp
  rw [three, order_eq_lt, order_eq_eq, not_lt, ← ne_eq, lt_iff_le_and_ne, ne_comm]

theorem order_swap (v w : List α) : order w v = (order v w).swap := by
  cases compared : order v w with
  | lt =>
      rw [order_eq_lt] at compared
      rwa [Ordering.swap, order_eq_gt]
  | eq =>
      rw [order_eq_eq] at compared
      rw [Ordering.swap, order_eq_eq, compared]
  | gt =>
      rw [order_eq_gt] at compared
      rwa [Ordering.swap, order_eq_lt]

@[simp]
theorem order_self (w : List α) : order w w = .eq := by
  rw [order_eq_eq]

theorem order_ne_gt {v w : List α} : order v w ≠ .gt ↔ v ≤ w := by
  rw [ne_eq, order_eq_gt, not_lt]

@[simp]
theorem nil_le (w : List α) : [] ≤ w :=
  not_lt.mp fun less => List.not_lt_nil w less

theorem cons_le_cons_iff {a b : α} {v w : List α} :
    a :: v ≤ b :: w ↔ a < b ∨ a = b ∧ v ≤ w := by
  rw [le_iff_lt_or_eq, le_iff_lt_or_eq, List.cons_lt_cons_iff, List.cons.injEq]
  tauto

/-! ## Common prefixes -/

theorem lcp_comm (v w : List α) : lcp v w = lcp w v := by
  induction v generalizing w with
  | nil => simp
  | cons a v induction =>
      cases w with
      | nil => simp
      | cons b w =>
          by_cases heads : a = b
          · subst heads
            simp [induction w]
          · rw [lcp_cons_of_ne heads, lcp_cons_of_ne (Ne.symm heads)]

/-- A length is at most the common prefix exactly when both words agree up to it. -/
theorem le_lcp_iff {v w : List α} {n : Nat} :
    n ≤ lcp v w ↔ n ≤ v.length ∧ n ≤ w.length ∧ v.take n = w.take n := by
  induction n generalizing v w with
  | zero => exact ⟨fun _ => ⟨Nat.zero_le _, Nat.zero_le _, rfl⟩, fun _ => Nat.zero_le _⟩
  | succ n induction =>
      cases v with
      | nil => exact ⟨fun less => absurd less (by simp), fun less => absurd less.1 (by simp)⟩
      | cons a v =>
          cases w with
          | nil => exact ⟨fun less => absurd less (by simp), fun less => absurd less.2.1 (by simp)⟩
          | cons b w =>
              rw [List.length_cons, List.length_cons, List.take_succ_cons, List.take_succ_cons,
                List.cons.injEq]
              by_cases heads : a = b
              · subst heads
                rw [lcp_cons_self, Nat.succ_le_succ_iff, induction, Nat.succ_le_succ_iff,
                  Nat.succ_le_succ_iff]
                exact ⟨fun agree => ⟨agree.1, agree.2.1, rfl, agree.2.2⟩,
                  fun agree => ⟨agree.1, agree.2.1, agree.2.2.2⟩⟩
              · rw [lcp_cons_of_ne heads]
                exact ⟨fun less => absurd less (Nat.not_succ_le_zero n),
                  fun agree => absurd agree.2.2.1 heads⟩

theorem lcp_agrees (v w : List α) : lcp v w ≤ v.length ∧ lcp v w ≤ w.length ∧
    v.take (lcp v w) = w.take (lcp v w) := by
  rw [← le_lcp_iff]

theorem lcp_le_left (v w : List α) : lcp v w ≤ v.length :=
  (lcp_agrees v w).1

theorem lcp_le_right (v w : List α) : lcp v w ≤ w.length :=
  (lcp_agrees v w).2.1

theorem take_lcp (v w : List α) : v.take (lcp v w) = w.take (lcp v w) :=
  (lcp_agrees v w).2.2

theorem take_eq_of_le_lcp {v w : List α} {n : Nat} (bound : n ≤ lcp v w) :
    v.take n = w.take n := by
  rw [le_lcp_iff] at bound
  exact bound.2.2

@[simp]
theorem lcp_self (w : List α) : lcp w w = w.length := by
  refine le_antisymm (lcp_le_left w w) ?_
  rw [le_lcp_iff]
  exact ⟨le_rfl, le_rfl, rfl⟩

theorem eq_of_lcp {v w : List α} (left : v.length ≤ lcp v w) (right : w.length ≤ lcp v w) :
    v = w := by
  have agree := take_eq_of_le_lcp left
  rwa [List.take_length, List.take_of_length_le (right.trans (lcp_le_left v w))] at agree

/-- Agreement is transitive: the common prefix is an ultrametric. -/
theorem min_lcp_le (u v w : List α) : min (lcp u v) (lcp v w) ≤ lcp u w := by
  have left := min_le_left (lcp u v) (lcp v w)
  have right := min_le_right (lcp u v) (lcp v w)
  rw [le_lcp_iff] at left right ⊢
  exact ⟨left.1, right.2.1, left.2.2.trans right.2.2⟩

/-- A word between two others shares whatever they share. -/
theorem lcp_between {u v w : List α} (lower : u ≤ v) (upper : v ≤ w) :
    lcp u w ≤ lcp u v ∧ lcp u w ≤ lcp v w := by
  induction u generalizing v w with
  | nil => simp
  | cons a u induction =>
      cases w with
      | nil => simp
      | cons c w =>
          by_cases ends : a = c
          · subst ends
            cases v with
            | nil => exact absurd lower (by simp)
            | cons b v =>
                rw [cons_le_cons_iff] at lower upper
                have heads : a = b := by
                  rcases lower with less | ⟨same, _⟩
                  · rcases upper with greater | ⟨same, _⟩
                    · exact absurd greater less.asymm
                    · exact same.symm
                  · exact same
                subst heads
                have tails := induction (by simpa using lower) (by simpa using upper)
                simpa using tails
          · simp [lcp_cons_of_ne ends]

/-- Along a sorted walk the ends share the least of what the steps share. -/
theorem lcp_sorted {u v w : List α} (lower : u ≤ v) (upper : v ≤ w) :
    lcp u w = min (lcp u v) (lcp v w) :=
  le_antisymm (le_min (lcp_between lower upper).1 (lcp_between lower upper).2) (min_lcp_le u v w)

theorem take_le (w : List α) (n : Nat) : w.take n ≤ w := by
  induction w generalizing n with
  | nil => simp
  | cons a w induction =>
      cases n with
      | zero => simp
      | succ n =>
          rw [List.take_succ_cons, cons_le_cons_iff]
          exact .inr ⟨rfl, induction n⟩

/-- A word which is shared as a whole comes first. -/
theorem le_of_length_le_lcp {v w : List α} (whole : v.length ≤ lcp v w) : v ≤ w := by
  have agrees : v = w.take v.length := by
    rw [← take_eq_of_le_lcp whole, List.take_length]
  rw [agrees]
  exact take_le w v.length

/-! ## Comparison past a known prefix -/

theorem lcp_drop {v w : List α} {n : Nat} (bound : n ≤ lcp v w) :
    lcp v w = n + lcp (v.drop n) (w.drop n) := by
  induction n generalizing v w with
  | zero => simp
  | succ n induction =>
      cases v with
      | nil => simp at bound
      | cons a v =>
          cases w with
          | nil => simp at bound
          | cons b w =>
              by_cases heads : a = b
              · subst heads
                rw [lcp_cons_self] at bound ⊢
                rw [induction (Nat.le_of_succ_le_succ bound)]
                simp only [List.drop_succ_cons]
                omega
              · simp [lcp_cons_of_ne heads] at bound

theorem order_drop {v w : List α} {n : Nat} (bound : n ≤ lcp v w) :
    order v w = order (v.drop n) (w.drop n) := by
  induction n generalizing v w with
  | zero => simp
  | succ n induction =>
      cases v with
      | nil => simp at bound
      | cons a v =>
          cases w with
          | nil => simp at bound
          | cons b w =>
              by_cases heads : a = b
              · subst heads
                rw [lcp_cons_self] at bound
                simpa using induction (Nat.le_of_succ_le_succ bound)
              · simp [lcp_cons_of_ne heads] at bound

/-- The first difference of two words decides their order. -/
theorem compare_of_difference {v w : List α} {n : Nat} {a b : α} (agree : v.take n = w.take n)
    (left : v[n]? = some a) (right : w[n]? = some b) (differ : a ≠ b) :
    lcp v w = n ∧ order v w = if a < b then .lt else .gt := by
  obtain ⟨left_inside, rfl⟩ := List.getElem?_eq_some_iff.mp left
  obtain ⟨right_inside, rfl⟩ := List.getElem?_eq_some_iff.mp right
  have shared : n ≤ lcp v w := Iff.mpr le_lcp_iff ⟨left_inside.le, right_inside.le, agree⟩
  rw [lcp_drop shared, order_drop shared, List.drop_eq_getElem_cons left_inside,
    List.drop_eq_getElem_cons right_inside, lcp_cons_of_ne differ,
    order_cons_of_ne differ]
  exact ⟨rfl, rfl⟩

/-- Words which agree as far as both go are compared by their lengths. -/
theorem compare_of_agreement {v w : List α}
    (agree : v.take (min v.length w.length) = w.take (min v.length w.length)) :
    lcp v w = min v.length w.length ∧ order v w = compare v.length w.length := by
  have shared : min v.length w.length ≤ lcp v w :=
    Iff.mpr le_lcp_iff ⟨Nat.min_le_left _ _, Nat.min_le_right _ _, agree⟩
  have left := lcp_le_left v w
  have right := lcp_le_right v w
  refine ⟨by omega, ?_⟩
  rw [order_drop shared]
  rcases Nat.lt_trichotomy v.length w.length with less | same | more
  · rw [List.drop_eq_nil_of_le (by omega), Nat.compare_eq_lt.mpr less,
      List.drop_eq_getElem_cons (by omega : min v.length w.length < w.length)]
    rfl
  · rw [List.drop_eq_nil_of_le (by omega), List.drop_eq_nil_of_le (by omega),
      Nat.compare_eq_eq.mpr same]
    rfl
  · have ended : w.drop (min v.length w.length) = [] := List.drop_eq_nil_of_le (by omega)
    rw [ended, Nat.compare_eq_gt.mpr more, List.drop_eq_getElem_cons (by omega : min v.length w.length < v.length)]
    rfl

/-- Two words which agree beyond their common prefix with a third compare alike with it. -/
theorem past_difference {u v w : List α} (beyond : lcp u w < lcp u v) :
    lcp v w = lcp u w ∧ order v w = order u w := by
  induction u generalizing v w with
  | nil => simp at beyond
  | cons a u induction =>
      cases v with
      | nil => simp at beyond
      | cons b v =>
          by_cases heads : a = b
          · subst heads
            cases w with
            | nil => simp
            | cons c w =>
                by_cases third : a = c
                · subst third
                  simp only [lcp_cons_self, Nat.add_lt_add_iff_right] at beyond
                  simpa using induction beyond
                · simp [lcp_cons_of_ne third, order_cons_of_ne third]
          · simp [lcp_cons_of_ne heads] at beyond

/-- Of two words above a common lower bound, the one sharing more of it comes first. -/
theorem lt_of_lcp_lt {p v w : List α} (lower : p ≤ w) (shares : lcp p w < lcp p v) :
    v < w ∧ lcp v w = lcp p w := by
  have past := past_difference shares
  refine ⟨?_, past.1⟩
  rw [← order_eq_lt, past.2, order_eq_lt]
  refine lt_of_le_of_ne lower ?_
  rintro rfl
  rw [lcp_self] at shares
  exact absurd (lcp_le_left p v) (Nat.not_le.mpr shares)

/-- Words are compared by what follows a common beginning. -/
theorem order_append (u v w : List α) : order (u ++ v) (u ++ w) = order v w := by
  induction u with
  | nil => rfl
  | cons a u induction => rw [List.cons_append, List.cons_append, order_cons_self, induction]

/-- Words whose first blocks of equal length differ are compared by these blocks. -/
theorem append_of_ne {v w : List α} (ne : v ≠ w) (size : v.length = w.length)
    (v' w' : List α) : lcp (v ++ v') (w ++ w') = lcp v w ∧ order (v ++ v') (w ++ w') = order v w := by
  induction v generalizing w with
  | nil => exact absurd (List.length_eq_zero_iff.mp size.symm).symm ne
  | cons a v induction =>
      cases w with
      | nil => simp at size
      | cons b w =>
          by_cases heads : a = b
          · subst heads
            have tails := induction (by simpa using ne) (by simpa using size)
            simpa using tails
          · simp [lcp_cons_of_ne heads, order_cons_of_ne heads]

/-- A word which is no prefix is compared before its end. -/
theorem append_of_not_prefix {v w : List α} (apart : ¬v <+: w) (more : List α) :
    lcp (v ++ more) w = lcp v w ∧ order (v ++ more) w = order v w := by
  induction v generalizing w with
  | nil => exact absurd List.nil_prefix apart
  | cons a v induction =>
      cases w with
      | nil => exact ⟨rfl, rfl⟩
      | cons b w =>
          by_cases heads : a = b
          · subst heads
            have tails := induction fun inside => apart (List.cons_prefix_cons.mpr ⟨rfl, inside⟩)
            simpa using tails
          · simp [lcp_cons_of_ne heads, order_cons_of_ne heads]

/-- What follows its length does not matter either. -/
theorem take_of_not_prefix {v w : List α} (apart : ¬v <+: w) :
    lcp v (w.take v.length) = lcp v w ∧ order v (w.take v.length) = order v w := by
  induction v generalizing w with
  | nil => exact absurd List.nil_prefix apart
  | cons a v induction =>
      cases w with
      | nil => exact ⟨rfl, rfl⟩
      | cons b w =>
          by_cases heads : a = b
          · subst heads
            have tails := induction fun inside => apart (List.cons_prefix_cons.mpr ⟨rfl, inside⟩)
            simpa using tails
          · simp [lcp_cons_of_ne heads, order_cons_of_ne heads]

end Everett.Word

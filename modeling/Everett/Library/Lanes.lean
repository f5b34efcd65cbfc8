import Everett.Library.BitWords

/-!
# Lanes of a number

A number is read in lanes of a fixed width.  Neighbouring lanes are added in one step by masking
and shifting the whole number, and numbers add lane by lane as long as no lane overflows.
-/

namespace Everett.Lanes

open BitWords

/-- Sum of the first lanes. -/
def laneSum (k : ℕ) : ℕ → ℕ → ℕ
  | 0, _ => 0
  | m + 1, x => x % 2 ^ k + laneSum k m (x / 2 ^ k)

/-- No more than `m` lanes, none above a bound. -/
def Within (k bound : ℕ) : ℕ → ℕ → Prop
  | 0, x => x = 0
  | m + 1, x => x % 2 ^ k ≤ bound ∧ Within k bound m (x / 2 ^ k)

/-- A mask of every second lane. -/
def evenLanes (k : ℕ) : ℕ → ℕ
  | 0 => 0
  | m + 1 => (2 ^ k - 1) + 2 ^ (2 * k) * evenLanes k m

/-- Add neighbouring lanes. -/
def pairLanes (k m x : ℕ) : ℕ := (x &&& evenLanes k m) + ((x / 2 ^ k) &&& evenLanes k m)

variable {k m x y bound : ℕ}

theorem double (k : ℕ) : 2 ^ (2 * k) = 2 ^ k * 2 ^ k := by
  rw [Nat.two_mul, Nat.pow_add]

theorem laneSum_two (k m x : ℕ) :
    laneSum k (2 * (m + 1)) x =
      x % 2 ^ k + (x / 2 ^ k % 2 ^ k + laneSum k (2 * m) (x / 2 ^ (2 * k))) := by
  rw [double, ← Nat.div_div_eq_div_mul]
  rfl

theorem within_two (k bound m x : ℕ) :
    Within k bound (2 * (m + 1)) x ↔
      x % 2 ^ k ≤ bound ∧ x / 2 ^ k % 2 ^ k ≤ bound ∧
        Within k bound (2 * m) (x / 2 ^ (2 * k)) := by
  rw [double, ← Nat.div_div_eq_div_mul]
  rfl

/-! ## Bounds -/

theorem within_of_lt (less : x < 2 ^ (k * m)) : Within k (2 ^ k - 1) m x := by
  induction m generalizing x with
  | zero => exact Nat.lt_one_iff.mp less
  | succ m induction =>
      refine ⟨Nat.le_sub_one_of_lt (Nat.mod_lt x (Nat.two_pow_pos k)), induction ?_⟩
      rw [Nat.mul_succ, Nat.pow_add] at less
      exact (Nat.div_lt_iff_lt_mul (Nat.two_pow_pos k)).mpr less

theorem Within.mono {larger : ℕ} (within : Within k bound m x) (least : bound ≤ larger) :
    Within k larger m x := by
  induction m generalizing x with
  | zero => exact within
  | succ m induction => exact ⟨within.1.trans least, induction within.2⟩

theorem Within.lt (within : Within k bound m x) : x < 2 ^ (k * m) := by
  induction m generalizing x with
  | zero =>
      have zero : x = 0 := within
      rw [zero]
      exact Nat.two_pow_pos _
  | succ m induction =>
      rw [Nat.mul_succ, Nat.pow_add]
      exact (Nat.div_lt_iff_lt_mul (Nat.two_pow_pos k)).mp (induction within.2)

theorem within_zero (k bound m : ℕ) : Within k bound m 0 := by
  induction m with
  | zero => rfl
  | succ m induction =>
      refine ⟨?_, ?_⟩
      · rw [Nat.zero_mod]
        exact Nat.zero_le _
      · rw [Nat.zero_div]
        exact induction

theorem laneSum_zero (k m : ℕ) : laneSum k m 0 = 0 := by
  induction m with
  | zero => rfl
  | succ m induction => rw [laneSum, Nat.zero_mod, Nat.zero_div, induction]

theorem laneSum_le (within : Within k bound m x) : laneSum k m x ≤ bound * m := by
  induction m generalizing x with
  | zero => exact Nat.zero_le _
  | succ m induction =>
      rw [laneSum, Nat.mul_succ, Nat.add_comm]
      exact Nat.add_le_add (induction within.2) within.1

/-- Lanes add up one by one when none of them overflows. -/
theorem Within.add {other : ℕ} (left : Within k bound m x) (right : Within k other m y)
    (fits : bound + other < 2 ^ k) :
    Within k (bound + other) m (x + y) ∧ laneSum k m (x + y) = laneSum k m x + laneSum k m y := by
  induction m generalizing x y with
  | zero =>
      have zero : x = 0 := left
      have zero' : y = 0 := right
      exact ⟨by rw [zero, zero']; rfl, rfl⟩
  | succ m induction =>
      have low : x % 2 ^ k + y % 2 ^ k < 2 ^ k :=
        (Nat.add_le_add left.1 right.1).trans_lt fits
      have remainder : (x + y) % 2 ^ k = x % 2 ^ k + y % 2 ^ k := by
        rw [Nat.add_mod, Nat.mod_eq_of_lt low]
      have quotient : (x + y) / 2 ^ k = x / 2 ^ k + y / 2 ^ k := by
        rw [Nat.add_div (Nat.two_pow_pos k), if_neg (Nat.not_le.mpr low), Nat.add_zero]
      obtain ⟨within, sum⟩ := induction left.2 right.2
      refine ⟨⟨?_, ?_⟩, ?_⟩
      · rw [remainder]
        exact Nat.add_le_add left.1 right.1
      · rw [quotient]
        exact within
      · rw [laneSum, laneSum, laneSum, remainder, quotient, sum]
        omega

/-! ## Pairs of lanes -/

theorem and_evenLanes_succ (k m x : ℕ) :
    x &&& evenLanes k (m + 1) =
      x % 2 ^ k + 2 ^ (2 * k) * ((x / 2 ^ (2 * k)) &&& evenLanes k m) := by
  have positive := Nat.two_pow_pos k
  have narrow : 2 ^ k - 1 < 2 ^ (2 * k) := by
    have less : 2 ^ k ≤ 2 ^ (2 * k) := Nat.pow_le_pow_right (by decide) (by omega)
    omega
  have remainder : evenLanes k (m + 1) % 2 ^ (2 * k) = 2 ^ k - 1 := by
    rw [evenLanes, Nat.add_mul_mod_self_left, Nat.mod_eq_of_lt narrow]
  have quotient : evenLanes k (m + 1) / 2 ^ (2 * k) = evenLanes k m := by
    rw [evenLanes, Nat.add_mul_div_left _ _ (Nat.two_pow_pos _), Nat.div_eq_of_lt narrow,
      Nat.zero_add]
  have low : x % 2 ^ (2 * k) % 2 ^ k = x % 2 ^ k :=
    Nat.mod_mod_of_dvd _ (Nat.pow_dvd_pow 2 (by omega))
  rw [← Nat.mod_add_div (x &&& evenLanes k (m + 1)) (2 ^ (2 * k)), Nat.and_mod_two_pow,
    Nat.and_div_two_pow, remainder, quotient, Nat.and_two_pow_sub_one_eq_mod, low]

theorem pairLanes_succ (k m x : ℕ) :
    pairLanes k (m + 1) x =
      (x % 2 ^ k + x / 2 ^ k % 2 ^ k) + 2 ^ (2 * k) * pairLanes k m (x / 2 ^ (2 * k)) := by
  rw [pairLanes, and_evenLanes_succ, and_evenLanes_succ, pairLanes, Nat.div_div_eq_div_mul,
    Nat.div_div_eq_div_mul, Nat.mul_comm (2 ^ k)]
  ring

/-- The lanes of a sum of pairs. -/
theorem pairLanes_parts (positive : 0 < k) (m x : ℕ) :
    pairLanes k (m + 1) x % 2 ^ (2 * k) = x % 2 ^ k + x / 2 ^ k % 2 ^ k ∧
      pairLanes k (m + 1) x / 2 ^ (2 * k) = pairLanes k m (x / 2 ^ (2 * k)) := by
  have first := Nat.mod_lt x (Nat.two_pow_pos k)
  have second := Nat.mod_lt (x / 2 ^ k) (Nat.two_pow_pos k)
  have least : 2 ≤ 2 ^ k := Nat.le_self_pow positive.ne' 2
  have narrow : x % 2 ^ k + x / 2 ^ k % 2 ^ k < 2 ^ (2 * k) := by
    have product := Nat.mul_le_mul_right (2 ^ k) least
    rw [double]
    omega
  rw [pairLanes_succ]
  refine ⟨?_, ?_⟩
  · rw [Nat.add_mul_mod_self_left, Nat.mod_eq_of_lt narrow]
  · rw [Nat.add_mul_div_left _ _ (Nat.two_pow_pos _), Nat.div_eq_of_lt narrow, Nat.zero_add]

theorem laneSum_pairLanes (positive : 0 < k) (m x : ℕ) :
    laneSum (2 * k) m (pairLanes k m x) = laneSum k (2 * m) x := by
  induction m generalizing x with
  | zero => rfl
  | succ m induction =>
      obtain ⟨remainder, quotient⟩ := pairLanes_parts positive m x
      rw [laneSum, laneSum_two, remainder, quotient, induction, Nat.add_assoc]

theorem pairLanes_zero (k x : ℕ) : pairLanes k 0 x = 0 := by
  rw [pairLanes, evenLanes, Nat.and_zero, Nat.and_zero]

theorem Within.pairLanes (positive : 0 < k) (within : Within k bound (2 * m) x) :
    Within (2 * k) (2 * bound) m (pairLanes k m x) := by
  induction m generalizing x with
  | zero => exact pairLanes_zero k x
  | succ m induction =>
      obtain ⟨remainder, quotient⟩ := pairLanes_parts positive m x
      obtain ⟨first, second, rest⟩ := (within_two k bound m x).mp within
      refine ⟨?_, ?_⟩
      · rw [remainder]
        omega
      · rw [quotient]
        exact induction rest

/-! ## Bits -/

/-- Lanes weigh their bits by the place in the lane. -/
theorem laneSum_eq_weigh (k m x : ℕ) :
    laneSum k m x = weigh (fun i => 2 ^ (i % k)) x.testBit (k * m) := by
  induction m generalizing x with
  | zero => rfl
  | succ m induction =>
      have lane : weigh (fun i => 2 ^ (i % k)) x.testBit k = x % 2 ^ k := by
        rw [← weigh_two_pow]
        exact weigh_congr (fun _ _ => rfl) fun i less => by rw [Nat.mod_eq_of_lt less]
      rw [laneSum, induction, Nat.mul_succ, Nat.add_comm (k * m), weigh_add, lane]
      congr 1
      refine weigh_congr (fun i _ => ?_) fun i _ => ?_
      · rw [Nat.testBit_div_two_pow, Nat.add_comm]
      · rw [Nat.add_mod_left]

/-! ## Single lanes -/

/-- One lane of a number. -/
def lane (k x j : ℕ) : ℕ := x / 2 ^ (k * j) % 2 ^ k

theorem lane_zero (k x : ℕ) : lane k x 0 = x % 2 ^ k := by
  rw [lane, Nat.mul_zero, Nat.pow_zero, Nat.div_one]

theorem lane_succ (k x j : ℕ) : lane k x (j + 1) = lane k (x / 2 ^ k) j := by
  rw [lane, lane, Nat.div_div_eq_div_mul, ← Nat.pow_add, Nat.mul_succ, Nat.add_comm]

theorem lane_lt (k x j : ℕ) : lane k x j < 2 ^ k := Nat.mod_lt _ (Nat.two_pow_pos k)

theorem lane_two (k x j : ℕ) :
    lane k x (2 * (j + 1)) = lane k (x / 2 ^ (2 * k)) (2 * j) ∧
      lane k x (2 * (j + 1) + 1) = lane k (x / 2 ^ (2 * k)) (2 * j + 1) := by
  rw [double, ← Nat.div_div_eq_div_mul, ← lane_succ, ← lane_succ, ← lane_succ, ← lane_succ]
  exact ⟨rfl, rfl⟩

theorem lane_pairLanes (positive : 0 < k) {j : ℕ} (inside : j < m) (x : ℕ) :
    lane (2 * k) (pairLanes k m x) j = lane k x (2 * j) + lane k x (2 * j + 1) := by
  induction m generalizing x j with
  | zero => exact absurd inside (Nat.not_lt_zero j)
  | succ m induction =>
      obtain ⟨remainder, quotient⟩ := pairLanes_parts positive m x
      cases j with
      | zero => rw [lane_zero, remainder, Nat.mul_zero, lane_zero, lane_succ, lane_zero]
      | succ j =>
          rw [lane_succ, quotient, induction (Nat.lt_of_succ_lt_succ inside), (lane_two k x j).1,
            (lane_two k x j).2]

theorem lane_one (x j : ℕ) : lane 1 x j = (x.testBit j).toNat := by
  rw [lane, Nat.one_mul, Nat.toNat_testBit, Nat.pow_one]

theorem testBit_lane (x : ℕ) {i : ℕ} (small : i < k) (j : ℕ) :
    (lane k x j).testBit i = x.testBit (k * j + i) := by
  rw [lane, Nat.testBit_mod_two_pow, decide_eq_true small, Bool.true_and, Nat.testBit_div_two_pow,
    Nat.add_comm]

/-- A number is made of its lanes. -/
theorem ofDigits_lanes (less : x < 2 ^ (k * m)) :
    Nat.ofDigits (2 ^ k) ((List.range m).map (lane k x)) = x := by
  induction m generalizing x with
  | zero => exact (Nat.lt_one_iff.mp less).symm
  | succ m induction =>
      have rest : x / 2 ^ k < 2 ^ (k * m) := by
        rw [Nat.mul_succ, Nat.pow_add] at less
        exact (Nat.div_lt_iff_lt_mul (Nat.two_pow_pos k)).mpr less
      have shifted : lane k x ∘ Nat.succ = lane k (x / 2 ^ k) := funext (lane_succ k x)
      rw [List.range_succ_eq_map, List.map_cons, List.map_map, shifted, Nat.ofDigits_cons,
        induction rest, lane_zero]
      exact Nat.mod_add_div x (2 ^ k)

theorem lane_ofDigits {digits : List ℕ} (small : ∀ digit ∈ digits, digit < 2 ^ k) (j : ℕ) :
    lane k (Nat.ofDigits (2 ^ k) digits) j = digits.getD j 0 := by
  induction digits generalizing j with
  | nil => rw [Nat.ofDigits_nil, lane, Nat.zero_div, Nat.zero_mod]; rfl
  | cons digit digits induction =>
      have first := small digit List.mem_cons_self
      rw [Nat.ofDigits_cons]
      cases j with
      | zero =>
          rw [lane_zero, Nat.add_mul_mod_self_left, Nat.mod_eq_of_lt first]
          rfl
      | succ j =>
          rw [lane_succ, Nat.add_mul_div_left _ _ (Nat.two_pow_pos k), Nat.div_eq_of_lt first,
            Nat.zero_add, induction (fun other member => small other (List.mem_cons_of_mem _ member))]
          rfl

/-- Sums of neighbouring lanes leave room for themselves: one mask is enough. -/
theorem and_sum_evenLanes (within : Within k bound (2 * m) x) (room : 2 * bound < 2 ^ k) :
    (x + x / 2 ^ k) &&& evenLanes k m = pairLanes k m x := by
  induction m generalizing x with
  | zero => rw [pairLanes_zero, evenLanes, Nat.and_zero]
  | succ m induction =>
      obtain ⟨first, second, rest⟩ := (within_two k bound m x).mp within
      have further : x / 2 ^ k / 2 ^ (2 * k) = x / 2 ^ (2 * k) / 2 ^ k := by
        rw [Nat.div_div_eq_div_mul, Nat.div_div_eq_div_mul, Nat.mul_comm]
      have positive := Nat.two_pow_pos k
      have low : (x + x / 2 ^ k) % 2 ^ k = x % 2 ^ k + x / 2 ^ k % 2 ^ k := by
        rw [Nat.add_mod, Nat.mod_eq_of_lt (by omega)]
      have third : x / 2 ^ k / 2 ^ k % 2 ^ k ≤ bound := by
        have parts : x / 2 ^ k / 2 ^ k = x / 2 ^ (2 * k) := by
          rw [double, Nat.div_div_eq_div_mul]
        rw [parts]
        cases m with
        | zero =>
            have zero : x / 2 ^ (2 * k) = 0 := rest
            rw [zero, Nat.zero_mod]
            exact Nat.zero_le _
        | succ m => exact rest.1
      have carry : x % 2 ^ (2 * k) + x / 2 ^ k % 2 ^ (2 * k) < 2 ^ (2 * k) := by
        have left : x % 2 ^ (2 * k) = x % 2 ^ k + 2 ^ k * (x / 2 ^ k % 2 ^ k) := by
          rw [double, Nat.mod_mul]
        have right : x / 2 ^ k % 2 ^ (2 * k) =
            x / 2 ^ k % 2 ^ k + 2 ^ k * (x / 2 ^ k / 2 ^ k % 2 ^ k) := by
          rw [double, Nat.mod_mul]
        have top : x / 2 ^ k % 2 ^ k + x / 2 ^ k / 2 ^ k % 2 ^ k + 1 ≤ 2 ^ k := by omega
        have product := Nat.mul_le_mul_left (2 ^ k) top
        rw [left, right, double]
        rw [Nat.mul_add, Nat.mul_add] at product
        omega
      have high : (x + x / 2 ^ k) / 2 ^ (2 * k) =
          x / 2 ^ (2 * k) + x / 2 ^ (2 * k) / 2 ^ k := by
        rw [Nat.add_div (Nat.two_pow_pos _), if_neg (Nat.not_le.mpr carry), Nat.add_zero, further]
      rw [and_evenLanes_succ, low, high, induction rest, pairLanes_succ]

end Everett.Lanes

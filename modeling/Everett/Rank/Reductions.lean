import Everett.Rank.Groups

/-!
# Sums of packed classes

Planes, pairs of lanes and vectors all weigh the bits of packed classes by their place in the class;
the weight of whole classes is their sum.
-/

namespace Everett.GroupRank

open BitWords Lanes Outcome

/-- The weight of a bit in its class. -/
def place (n i : ℕ) : ℕ := 2 ^ (i % n)

/-- Sum of populations. -/
def total (values : List (BitVec 64)) : ℕ := (values.map BitVec.toNat).sum

variable {n : ℕ} {values words : List (BitVec 64)}

theorem total_append (left right : List (BitVec 64)) : total (left ++ right) = total left + total right := by
  rw [total, List.map_append, List.sum_append]
  rfl

theorem total_take_succ (values : List (BitVec 64)) (count : ℕ) :
    total (values.take (count + 1)) = total (values.take count) + (itemOf values count).toNat := by
  rw [List.take_add_one, total_append]
  congr 1
  unfold itemOf
  cases values[count]? with
  | none => rfl
  | some value => exact Nat.add_zero _

/-- The weight of whole classes. -/
theorem weigh_classes (positive : 0 < n) (narrow : ∀ value ∈ values, value.toNat < 2 ^ n)
    (count : ℕ) : weigh (place n) (packedBit n values) (n * count) = total (values.take count) := by
  induction count with
  | zero => rfl
  | succ count induction =>
      have class_ : weigh (fun i => place n (n * count + i))
          (fun i => packedBit n values (n * count + i)) n = (itemOf values count).toNat := by
        rw [← Nat.mod_eq_of_lt (itemOf_toNat_lt narrow count), ← weigh_two_pow]
        refine weigh_congr (fun i less => ?_) fun i less => ?_
        · rw [packedBit, Nat.mul_add_div positive, Nat.mul_add_mod, Nat.div_eq_of_lt less,
            Nat.mod_eq_of_lt less, Nat.add_zero]
          rfl
        · rw [place, Nat.mul_add_mod, Nat.mod_eq_of_lt less]
      rw [Nat.mul_succ, weigh_add, induction, class_, total_take_succ]

/-! ## Planes -/

theorem getLsbD_planeMask (n word plane : ℕ) {i : ℕ} (small : i < 64) :
    (planeMask n word plane).getLsbD i = decide ((word * 64 + i) % n = plane) := by
  have bits := getLsbD_foldl_bits (fun bit => (word * 64 + bit) % n = plane) (le_refl 64) i
  rw [planeMask, bits]
  simp only [small, true_and]

theorem ones_plane (f : ℕ → Bool) (g : ℕ → ℕ) (p m : ℕ) :
    ones (fun i => f i && decide (g i = p)) m * 2 ^ p =
      weigh (fun i => if g i = p then 2 ^ p else 0) f m := by
  induction m with
  | zero => exact Nat.zero_mul _
  | succ m induction =>
      rw [ones_succ, weigh, Nat.add_mul, induction]
      congr 1
      by_cases here : g m = p
      · rw [if_pos here, decide_eq_true here, Bool.and_true]
      · rw [if_neg here, decide_eq_false here, Bool.and_false, Bool.toNat_false, Nat.zero_mul,
          Nat.mul_zero]

theorem weigh_sum (left right : ℕ → ℕ) (f : ℕ → Bool) (m : ℕ) :
    weigh left f m + weigh right f m = weigh (fun i => left i + right i) f m := by
  induction m with
  | zero => rfl
  | succ m induction =>
      rw [weigh, weigh, weigh, ← induction]
      ring

/-- The planes below one weigh the bits which belong to them. -/
theorem planes_sum (f : ℕ → Bool) (g : ℕ → ℕ) (m n result : ℕ) :
    (List.range n).foldl (fun result p =>
        result + ones (fun i => f i && decide (g i = p)) m * 2 ^ p) result =
      result + weigh (fun i => if g i < n then 2 ^ g i else 0) f m := by
  induction n with
  | zero =>
      have nothing : ∀ m, weigh (fun i => if g i < 0 then 2 ^ g i else 0) f m = 0 := by
        intro m
        induction m with
        | zero => rfl
        | succ m induction => rw [weigh, induction, if_neg (Nat.not_lt_zero _), Nat.mul_zero]
      rw [nothing]
      rfl
  | succ n induction =>
      rw [List.range_succ, List.foldl_append, induction, List.foldl_cons, List.foldl_nil,
        ones_plane, Nat.add_assoc, weigh_sum]
      congr 1
      refine weigh_congr (fun _ _ => rfl) fun i _ => ?_
      rcases lt_trichotomy (g i) n with less | same | more
      · rw [if_pos less, if_neg less.ne, if_pos (less.trans (Nat.lt_succ_self n)), Nat.add_zero]
      · rw [if_neg same.not_lt, if_pos same, if_pos (by omega), same, Nat.zero_add]
      · rw [if_neg (by omega), if_neg (by omega), if_neg (by omega)]

theorem weighPlanes_eq (positive : 0 < n) (word : ℕ) (value : BitVec 64) (result : ℕ) :
    weighPlanes n word value result =
      result + weigh (fun i => place n (64 * word + i)) value.getLsbD 64 := by
  have each : ∀ plane, popcount (value &&& planeMask n word plane) <<< plane =
      ones (fun i => value.getLsbD i && decide ((64 * word + i) % n = plane)) 64 * 2 ^ plane := by
    intro plane
    rw [Nat.shiftLeft_eq, popcount]
    congr 1
    refine ones_congr fun i less => ?_
    rw [BitVec.getLsbD_and, getLsbD_planeMask n word plane less, Nat.mul_comm word]
  rw [weighPlanes]
  simp only [each]
  rw [planes_sum]
  congr 1
  exact weigh_congr (fun _ _ => rfl) fun i _ => if_pos (Nat.mod_lt _ positive)

/-! ## Pairs -/

theorem toNat_pairs (k m : ℕ) (value mask : BitVec 64) (masked : mask.toNat = evenLanes k m)
    (fits : pairLanes k m value.toNat < 2 ^ 64) :
    ((value &&& mask) + (value >>> k &&& mask)).toNat = pairLanes k m value.toNat := by
  rw [BitVec.toNat_add, BitVec.toNat_and, BitVec.toNat_and, BitVec.toNat_ushiftRight,
    Nat.shiftRight_eq_div_pow, masked]
  exact Nat.mod_eq_of_lt fits

/-- Nibbles are added up in bytes. -/
theorem pairNibbles_sum {bound : ℕ} {value : BitVec 64} (within : Within 4 bound 16 value.toNat) :
    Within 8 (2 * bound) 8 (pairNibbles value).toNat ∧
      laneSum 8 8 (pairNibbles value).toNat = laneSum 4 16 value.toNat := by
  have pairs := within.pairLanes (m := 8) (by decide)
  have eight := laneSum_pairLanes (k := 4) (by decide) 8 value.toNat
  rw [pairNibbles, toNat_pairs 4 8 value _ (by decide) pairs.lt]
  exact ⟨pairs, eight⟩

theorem pairBits_sum (value : BitVec 64) :
    Within 8 12 8 (pairBits value).toNat ∧
      laneSum 8 8 (pairBits value).toNat = laneSum 2 32 value.toNat := by
  have within : Within 2 3 (2 * 16) value.toNat := within_of_lt value.isLt
  have pairs := within.pairLanes (by decide)
  have sum := laneSum_pairLanes (k := 2) (by decide) 16 value.toNat
  have fits := pairs.lt
  rw [← toNat_pairs 2 16 value 0x3333333333333333#64 (by decide) fits] at pairs sum
  obtain ⟨bytes, total⟩ := pairNibbles_sum pairs
  exact ⟨bytes, total.trans sum⟩

/-- One multiplication adds up four lanes at the top of a word. -/
theorem four_lanes {a b c d : ℕ} (fits : a + b + c + d < 2 ^ 16) :
    (a + 2 ^ 16 * (b + 2 ^ 16 * (c + 2 ^ 16 * d))) * 0x0001000100010001 % 2 ^ 64 / 2 ^ 48 =
      a + b + c + d := by
  have product : (a + 2 ^ 16 * (b + 2 ^ 16 * (c + 2 ^ 16 * d))) * 0x0001000100010001 =
      (a + 2 ^ 16 * (a + b) + 2 ^ 32 * (a + b + c)) +
        2 ^ 48 * (a + b + c + d + 2 ^ 16 * (b + c + d + 2 ^ 16 * (c + d) + 2 ^ 32 * d)) := by
    ring
  have low : a + 2 ^ 16 * (a + b) + 2 ^ 32 * (a + b + c) < 2 ^ 48 := by omega
  have top : (2 : ℕ) ^ 64 = 2 ^ 48 * 2 ^ 16 := by decide
  rw [product, top, Nat.mod_mul_right_div_self, Nat.add_mul_div_left _ _ (Nat.two_pow_pos 48),
    Nat.div_eq_of_lt low, Nat.zero_add, Nat.add_mul_mod_self_left, Nat.mod_eq_of_lt fits]

theorem sumBytes_eq (value : BitVec 64) : sumBytes value = laneSum 8 8 value.toNat := by
  have within : Within 8 255 (2 * 4) value.toNat := within_of_lt value.isLt
  have pairs := within.pairLanes (by decide)
  have sum := laneSum_pairLanes (k := 8) (by decide) 4 value.toNat
  unfold sumBytes
  dsimp only
  rw [BitVec.toNat_ushiftRight, BitVec.toNat_mul, toNat_pairs 8 4 value _ (by decide) pairs.lt,
    Nat.shiftRight_eq_div_pow]
  refine Eq.trans ?_ sum
  generalize pairLanes 8 4 value.toNat = y at pairs
  obtain ⟨small_a, small_b, small_c, small_d, last⟩ := pairs
  simp only [Nat.reduceMul] at small_a small_b small_c small_d last
  have zero : y / 2 ^ 16 / 2 ^ 16 / 2 ^ 16 / 2 ^ 16 = 0 := last
  have parts : y = y % 2 ^ 16 + 2 ^ 16 * (y / 2 ^ 16 % 2 ^ 16 +
      2 ^ 16 * (y / 2 ^ 16 / 2 ^ 16 % 2 ^ 16 + 2 ^ 16 * (y / 2 ^ 16 / 2 ^ 16 / 2 ^ 16 % 2 ^ 16))) := by
    omega
  have lanes := four_lanes (a := y % 2 ^ 16) (b := y / 2 ^ 16 % 2 ^ 16)
    (c := y / 2 ^ 16 / 2 ^ 16 % 2 ^ 16) (d := y / 2 ^ 16 / 2 ^ 16 / 2 ^ 16 % 2 ^ 16) (by omega)
  rw [← parts] at lanes
  refine lanes.trans ?_
  simp only [laneSum, Nat.reduceMul, Nat.add_zero, Nat.add_assoc]

/-! ## Prefixes -/

theorem weigh_cut (weight : ℕ → ℕ) (f : ℕ → Bool) {bits m : ℕ} (inside : bits ≤ m) :
    weigh weight (fun i => decide (i < bits) && f i) m = weigh weight f bits := by
  induction m with
  | zero =>
      rw [Nat.le_zero.mp inside]
      rfl
  | succ m induction =>
      rcases Nat.lt_or_ge m bits with last | more
      · have whole : bits = m + 1 := by omega
        rw [whole]
        refine weigh_congr (fun i less => ?_) fun _ _ => rfl
        rw [decide_eq_true less, Bool.true_and]
      · rw [weigh, induction more, decide_eq_false (Nat.not_lt.mpr more), Bool.false_and,
          Bool.toNat_false, Nat.zero_mul, Nat.add_zero]

/-- The bits of a prefix of the words. -/
def cut (words : List (BitVec 64)) (bits i : ℕ) : Bool := decide (i < bits) && bitAt words i

theorem masked_word (words : List (BitVec 64)) (bits word : ℕ) {i : ℕ} (small : i < 64) :
    (if bits - word * 64 < 64 then itemOf words word &&& below (bits - word * 64)
      else itemOf words word).getLsbD i = cut words bits (64 * word + i) := by
  rw [cut, bitAt_word words word small, ← itemOf]
  split_ifs with short
  · have same : i < bits - word * 64 ↔ 64 * word + i < bits := by omega
    rw [BitVec.getLsbD_and, getLsbD_below short, Bool.and_comm]
    simp only [same]
  · have less : 64 * word + i < bits := by omega
    rw [decide_eq_true less, Bool.true_and]

theorem boundary_word (words : List (BitVec 64)) (bits word : ℕ) {i : ℕ} (small : i < 64) :
    ((words[word]?.getD 0#64) &&& boundaryMask bits word).getLsbD i =
      cut words bits (64 * word + i) := by
  have split := Nat.div_add_mod bits 64
  have lane := Nat.mod_lt bits (y := 64) (by decide)
  rw [cut, bitAt_word words word small, boundaryMask, BitVec.getLsbD_and, Bool.and_comm]
  congr 1
  split_ifs with inside last
  · have less : 64 * word + i < bits := by omega
    rw [BitVec.getLsbD_allOnes, decide_eq_true less, decide_eq_true small]
  · have same : i < bits % 64 ↔ 64 * word + i < bits := by omega
    rw [getLsbD_below lane]
    simp only [same]
  · have more : ¬64 * word + i < bits := by omega
    rw [BitVec.getLsbD_zero, decide_eq_false more]

/-- The weight of the bits of one more word. -/
theorem weigh_word (n : ℕ) (words : List (BitVec 64)) (bits word : ℕ) (value : BitVec 64)
    (masked : ∀ i < 64, value.getLsbD i = cut words bits (64 * word + i)) :
    weigh (place n) (cut words bits) (64 * (word + 1)) =
      weigh (place n) (cut words bits) (64 * word) +
        weigh (fun i => place n (64 * word + i)) value.getLsbD 64 := by
  rw [Nat.mul_succ, weigh_add]
  congr 1
  exact weigh_congr (fun i less => (masked i less).symm) fun _ _ => rfl

/-- The lanes of a word weigh its bits when classes do not straddle words. -/
theorem laneSum_word {k m : ℕ} (whole : k * m = 64) (value : BitVec 64) (word : ℕ) :
    laneSum k m value.toNat = weigh (fun i => place k (64 * word + i)) value.getLsbD 64 := by
  rw [laneSum_eq_weigh, whole]
  refine weigh_congr (fun _ _ => rfl) fun i _ => ?_
  rw [place, ← whole, Nat.mul_assoc, Nat.mul_add_mod]

theorem prefixVectors_eq (positive : 0 < n) (words : List (BitVec 64)) {bits : ℕ}
    (inside : bits ≤ 64 * (2 * n)) :
    prefixVectors n words bits = weigh (place n) (bitAt words) bits := by
  have loop : ∀ count, (List.range count).foldl (fun total position =>
      weighPlanes n position ((words[position]?.getD 0#64) &&& boundaryMask bits position) total)
        0 = weigh (place n) (cut words bits) (64 * count) := by
    intro count
    induction count with
    | zero => rfl
    | succ count induction =>
        rw [List.range_succ, List.foldl_append, induction, List.foldl_cons, List.foldl_nil,
          weighPlanes_eq positive,
          weigh_word n words bits count _ fun i less => boundary_word words bits count less]
  rw [prefixVectors, loop]
  exact weigh_cut _ _ inside

/-! ## Loops over words -/

/-- What the loop of `prefix_portable` has added up. -/
structure Prefix (n : ℕ) (words : List (BitVec 64)) (bits count : ℕ) (state : ℕ × BitVec 64) :
    Prop where
  planes : n ≠ 2 → state.1 = weigh (place n) (cut words bits) (64 * count)
  pairs : n = 2 → count ≤ 4 → Within 8 (12 * count) 8 state.2.toNat ∧
    laneSum 8 8 state.2.toNat = weigh (place n) (cut words bits) (64 * count)

theorem prefixPortable_eq (positive : 0 < n) {count : ℕ} (inside : count * n ≤ 64 * words.length)
    (few : n = 2 → count ≤ 128) :
    prefixPortable n words count = .ok (weigh (place n) (bitAt words) (count * n)) := by
  have loop : ∀ size, size ≤ (count * n + 63) / 64 → ∃ state,
      (List.range size).foldlM (fun (state : ℕ × BitVec 64) word => do
        let value ← loadWord words word
        let remaining := count * n - word * 64
        let value := if remaining < 64 then value &&& below remaining else value
        if n = 2 then .ok (state.1, state.2 + pairBits value)
        else .ok (weighPlanes n (word % n) value state.1, state.2)) (0, 0#64) =
          (.ok state : Result (ℕ × BitVec 64)) ∧ Prefix n words (count * n) size state := by
    intro size fits
    induction size with
    | zero => exact ⟨_, rfl, fun _ => rfl, fun _ _ => ⟨within_zero 8 0 8, laneSum_zero 8 8⟩⟩
    | succ size induction =>
        obtain ⟨state, run, sums⟩ := induction (by omega)
        rw [List.range_succ, List.foldlM_append, run, ok_bind, List.foldlM_cons,
          loadWord_ok (by omega), ok_bind]
        dsimp only
        have masked := fun i less => masked_word words (count * n) size (i := i) less
        generalize (if count * n - size * 64 < 64 then
          itemOf words size &&& below (count * n - size * 64)
          else itemOf words size) = value at masked ⊢
        have next := weigh_word n words (count * n) size value masked
        split_ifs with two
        · refine ⟨_, rfl, fun other => absurd two other, fun _ small => ?_⟩
          obtain ⟨within, sum⟩ := sums.pairs two (by omega)
          obtain ⟨bytes, added⟩ := pairBits_sum value
          obtain ⟨further, both⟩ := within.add bytes (by omega)
          have fit : state.2.toNat + (pairBits value).toNat < 2 ^ 64 := further.lt
          change Within 8 (12 * (size + 1)) 8 (state.2 + pairBits value).toNat ∧
            laneSum 8 8 (state.2 + pairBits value).toNat = _
          rw [BitVec.toNat_add, Nat.mod_eq_of_lt fit]
          refine ⟨further, ?_⟩
          rw [both, sum, added, next, two, laneSum_word (by decide) value size]
        · refine ⟨_, rfl, fun _ => ?_, fun other => absurd other two⟩
          change weighPlanes n (size % n) value state.1 = _
          rw [weighPlanes_eq positive, sums.planes two, next]
          congr 1
          refine weigh_congr (fun _ _ => rfl) fun i _ => ?_
          rw [place, place, Nat.add_mod, Nat.mul_mod, Nat.mod_mod, ← Nat.mul_mod, ← Nat.add_mod]
  obtain ⟨state, run, sums⟩ := loop _ le_rfl
  have whole : weigh (place n) (cut words (count * n)) (64 * ((count * n + 63) / 64)) =
      weigh (place n) (bitAt words) (count * n) := weigh_cut _ _ (by omega)
  rw [prefixPortable]
  dsimp only
  rw [run, ok_bind]
  split_ifs with two
  · have few' := few two
    obtain ⟨-, sum⟩ := sums.pairs two (by rw [two]; omega)
    rw [sumBytes_eq, sum, whole]
  · rw [sums.planes two, whole]

end Everett.GroupRank

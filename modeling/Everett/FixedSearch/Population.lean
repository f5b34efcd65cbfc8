import Everett.FixedSearch.Keys

/-!
# Populations of a few keys

At most four keys are compared with a query at once: one after another, in the lanes of one register,
or through masks of lanes.  Every variant counts the keys which precede the query.
-/

namespace Everett.FixedSearch

open Outcome

/-- Words of 32 bits in a register of `avx2` or of `avx512`. -/
inductive Lanes
  | eight
  | sixteen

/-- `register_bytes` in words. -/
def Lanes.count : Lanes → ℕ
  | eight => 8
  | sixteen => 16

/-- An architecture; a partial load leaves anything in the lanes behind its words. -/
inductive Arch
  | scalar
  | neon (idle : ℕ → BitVec 32)
  | registers (lanes : Lanes) (idle : ℕ → BitVec 32)

/-- `load_partial`. -/
def loadPartial (idle : ℕ → BitVec 32) (source : List (BitVec 8)) (offset count : ℕ) :
    Result (ℕ → BitVec 32) := do
  let words ← (List.range count).mapM fun i => loadWord source (offset + 4 * i)
  .ok fun lane => words[lane]?.getD (idle lane)

/-- Compare the numbers of lanes. -/
def compareLane {n : ℕ} (upper : Bool) (value query : BitVec n) : Bool :=
  if upper then value ≤ query else value < query

/-- A mask with one bit for each lane. -/
def toBitset (lanes : ℕ) (f : ℕ → Bool) : BitVec 32 :=
  (List.range lanes).foldl (fun mask lane => mask ||| (BitVec.ofBool (f lane)).setWidth 32 <<< lane)
    0#32

/-- The words at which a key may start. -/
def starts : KeyWidth → BitVec 32
  | .one => 0xffff#32
  | .two => 0x5555#32
  | .four => 0x1111#32

variable (K : KeyWidth) (upper : Bool) (source : List (BitVec 8)) (offset : ℕ)

/-- The loop over whole keys. -/
def scalarPopulation (count : ℕ) (query : Key K) : Result ℕ :=
  (List.range count).foldlM (fun result i => do
    let found ← precedes K upper source (offset + i * K.words * 4) query
    .ok (result + found.toNat)) 0

/-- One register of keys of one word. -/
def neonOne (idle : ℕ → BitVec 32) (count : ℕ) (query : Key .one) : Result ℕ := do
  let values ← loadPartial idle source offset count
  .ok ((List.range 4).countP fun lane =>
    compareLane upper (values lane) (query ⟨0, by decide⟩) && decide (lane < count))

/-- Registers of two keys of two words, each pair of words exchanged and read as one lane. -/
def neonTwo (count : ℕ) (query : Key .two) : Result ℕ := do
  let join (high low : BitVec 32) : BitVec 64 := high.setWidth 64 <<< 32 ||| low.setWidth 64
  let queries := join (query ⟨0, by decide⟩) (query ⟨1, by decide⟩)
  [0, 2].foldlM (fun result at_ =>
    if count ≤ at_ then .ok result
    else if count - at_ = 1 then do
      let found ← precedes .two upper source (offset + at_ * 8) query
      .ok (result + found.toNat)
    else do
      let a ← loadWord source (offset + at_ * 8)
      let b ← loadWord source (offset + at_ * 8 + 4)
      let c ← loadWord source (offset + at_ * 8 + 8)
      let d ← loadWord source (offset + at_ * 8 + 12)
      .ok (result + ((compareLane upper (join a b) queries).toNat +
        (compareLane upper (join c d) queries).toNat))) 0

/-- Keys of four words, one register for each. -/
def neonFour (count : ℕ) (query : Key .four) : Result ℕ :=
  (List.range 4).foldlM (fun result at_ =>
    if count ≤ at_ then .ok result
    else do
      let found ← precedesFour upper source (offset + at_ * 16) query
      .ok (result + found.toNat)) 0

/-- Masks of the words which are less than or equal to their word of the query. -/
def compareWords (lanes : Lanes) (idle : ℕ → BitVec 32) (wordCount : ℕ) (query : Key K) :
    Result (BitVec 32 × BitVec 32) :=
  (List.range ((K.words * 4 + lanes.count - 1) / lanes.count)).foldlM (fun (less, equal) chunk =>
    let at_ := chunk * lanes.count
    if wordCount ≤ at_ then .ok (less, equal)
    else do
      let values ← loadPartial idle source (offset + at_ * 4) (min lanes.count (wordCount - at_))
      let queries (lane : ℕ) := query ⟨lane % K.words, Nat.mod_lt _ K.words_pos⟩
      .ok (less ||| toBitset lanes.count (fun lane => decide (values lane < queries lane)) <<< at_,
        equal ||| toBitset lanes.count (fun lane => decide (values lane = queries lane)) <<< at_))
    (0#32, 0#32)

/-- Keys whose words are equal to the query up to a word which is less, in a mask of words. -/
def selectKeys (wordCount : ℕ) (less equal : BitVec 32) : BitVec 32 :=
  let matched := starts K &&& ((1#32 <<< wordCount) - 1#32)
  let (result, matched) := (List.range K.words).foldl (fun (result, matched) word =>
    (result ||| (matched &&& (less >>> word)), matched &&& (equal >>> word))) (0#32, matched)
  if upper then result ||| matched else result

/-- Registers of any number of lanes. -/
def registersPopulation (lanes : Lanes) (idle : ℕ → BitVec 32) (count : ℕ) (query : Key K) :
    Result ℕ := do
  let (less, equal) ← compareWords K source offset lanes idle (count * K.words) query
  .ok ((List.range 32).countP (selectKeys K upper (count * K.words) less equal).getLsbD)

/-- `population`: keys which are less than a query, or at most the query. -/
def population (arch : Arch) (count : ℕ) (query : Key K) : Result ℕ :=
  if count = 0 then .ok 0
  else match arch with
    | .scalar => scalarPopulation K upper source offset count query
    | .neon idle =>
        match K, query with
        | .one, query => neonOne upper source offset idle count query
        | .two, query => neonTwo upper source offset count query
        | .four, query => neonFour upper source offset count query
    | .registers lanes idle => registersPopulation K upper source offset lanes idle count query

variable {K source offset}

/-- Keys which precede a query among some keys from an offset on. -/
def preceding (K : KeyWidth) (upper : Bool) (source : List (BitVec 8)) (offset : ℕ)
    (query : Key K) (i : ℕ) : Bool :=
  below upper query (keyAt K source (offset + i * K.bytes))

theorem countP_range_succ (f : ℕ → Bool) (n : ℕ) :
    (List.range (n + 1)).countP f = (List.range n).countP f + (f n).toNat := by
  rw [List.range_succ, List.countP_append, List.countP_singleton]
  cases f n <;> rfl

theorem scalarPopulation_ok {count : ℕ} (query : Key K)
    (inside : offset + count * K.bytes ≤ source.length) :
    scalarPopulation K upper source offset count query =
      .ok ((List.range count).countP (preceding K upper source offset query)) := by
  induction count with
  | zero => rfl
  | succ count induction =>
      have room : offset + count * K.bytes + K.bytes ≤ source.length := by
        rw [Nat.add_mul, Nat.one_mul] at inside
        omega
      have place : count * K.words * 4 = count * K.bytes := Nat.mul_assoc _ _ _
      have before := induction (by omega)
      unfold scalarPopulation at before ⊢
      rw [List.range_succ, List.foldlM_append, before, ok_bind, List.foldlM_cons, place,
        precedes_ok upper query room, ok_bind, ok_bind, ← List.range_succ, countP_range_succ]
      rfl

theorem mapM_range_ok {α : Type} {count : ℕ} {f : ℕ → Result α} {g : ℕ → α}
    (each : ∀ i < count, f i = .ok (g i)) :
    (List.range count).mapM f = .ok ((List.range count).map g) :=
  mapM_ok fun i member => each i (List.mem_range.mp member)

/-- A partial load fills the lanes of its words. -/
theorem loadPartial_ok (idle : ℕ → BitVec 32) {count : ℕ}
    (inside : offset + 4 * count ≤ source.length) :
    ∃ values, loadPartial idle source offset count = .ok values ∧
      ∀ lane < count, values lane = wordAt source (offset + 4 * lane) := by
  have loaded : (List.range count).mapM (fun i => loadWord source (offset + 4 * i)) =
      .ok ((List.range count).map fun i => wordAt source (offset + 4 * i)) :=
    mapM_range_ok fun i less => loadWord_ok (by omega)
  refine ⟨_, by rw [loadPartial, loaded, ok_bind], fun lane less => ?_⟩
  rw [List.getElem?_map, List.getElem?_range less]
  rfl

theorem number_one (key : Key .one) : number key = (key ⟨0, by decide⟩).toNat := by
  change 0 * 2 ^ 32 + _ = _
  rw [Nat.zero_mul, Nat.zero_add]

theorem number_two (key : Key .two) :
    number key = (key ⟨0, by decide⟩).toNat * 2 ^ 32 + (key ⟨1, by decide⟩).toNat := by
  change (0 * 2 ^ 32 + _) * 2 ^ 32 + _ = _
  rw [Nat.zero_mul, Nat.zero_add]

theorem compareLane_eq {n : ℕ} {value query : BitVec n} {key other : Key K}
    (value_eq : value.toNat = number key) (query_eq : query.toNat = number other) :
    compareLane upper value query = below upper other key := by
  unfold compareLane below
  simp only [BitVec.le_def, BitVec.lt_def, value_eq, query_eq]

theorem neonOne_ok (idle : ℕ → BitVec 32) {count : ℕ} (query : Key .one) (few : count ≤ 4)
    (inside : offset + count * 4 ≤ source.length) :
    neonOne upper source offset idle count query =
      .ok ((List.range count).countP (preceding .one upper source offset query)) := by
  have room : offset + 4 * count ≤ source.length := by omega
  obtain ⟨values, loaded, same⟩ := loadPartial_ok idle room
  have lanes : ∀ lane < count, compareLane upper (values lane) (query ⟨0, by decide⟩) =
      preceding .one upper source offset query lane := by
    intro lane less
    refine compareLane_eq upper ?_ (number_one query).symm
    have place : offset + lane * KeyWidth.one.bytes + 4 * 0 = offset + 4 * lane := by
      change offset + lane * (1 * 4) + 4 * 0 = _
      omega
    rw [number_one, same lane less, keyAt, place]
  obtain ⟨idle_lanes, four⟩ := Nat.exists_eq_add_of_le few
  rw [neonOne, loaded, ok_bind, four, List.range_add, List.countP_append, List.countP_map]
  refine congrArg Except.ok ?_
  have idle_none : (List.range idle_lanes).countP ((fun lane =>
      compareLane upper (values lane) (query ⟨0, by decide⟩) && decide (lane < count)) ∘
        (count + ·)) = 0 := by
    refine List.countP_eq_zero.mpr fun lane _ => ?_
    simp
  rw [idle_none, Nat.add_zero]
  refine List.countP_congr fun lane member => ?_
  have less := List.mem_range.mp member
  rw [lanes lane less, decide_eq_true less, Bool.and_true]

/-- A lane of 64 bits holds a key of two words. -/
theorem join_toNat (high low : BitVec 32) :
    (high.setWidth 64 <<< 32 ||| low.setWidth 64 : BitVec 64).toNat =
      high.toNat * 2 ^ 32 + low.toNat := by
  have first := high.isLt
  have second := low.isLt
  have shifted : (high.setWidth 64 <<< 32 : BitVec 64).toNat = 2 ^ 32 * high.toNat := by
    rw [BitVec.toNat_shiftLeft, BitVec.toNat_setWidth, Nat.shiftLeft_eq]
    omega
  have low_eq : (low.setWidth 64 : BitVec 64).toNat = low.toNat := by
    rw [BitVec.toNat_setWidth]
    omega
  rw [BitVec.toNat_or, shifted, low_eq, ← Nat.two_pow_add_eq_or_of_lt second, Nat.mul_comm]

/-- A pair of lanes compares two keys. -/
theorem pair_ok (query : Key .two) (inside : offset + 8 ≤ source.length) :
    ∃ high low, loadWord source offset = .ok high ∧ loadWord source (offset + 4) = .ok low ∧
      compareLane upper (high.setWidth 64 <<< 32 ||| low.setWidth 64 : BitVec 64)
        ((query ⟨0, by decide⟩).setWidth 64 <<< 32 ||| (query ⟨1, by decide⟩).setWidth 64) =
          below upper query (keyAt .two source offset) := by
  refine ⟨_, _, loadWord_ok (by omega), loadWord_ok (by omega), ?_⟩
  refine compareLane_eq upper ?_ ?_
  · rw [join_toNat, number_two]
    rfl
  · rw [join_toNat, number_two]

theorem neonTwo_ok {count : ℕ} (query : Key .two) (few : count ≤ 4)
    (inside : offset + count * 8 ≤ source.length) :
    neonTwo upper source offset count query =
      .ok ((List.range count).countP (preceding .two upper source offset query)) := by
  have single : ∀ i, i < count → precedes .two upper source (offset + i * 8) query =
      .ok (preceding .two upper source offset query i) := fun i less =>
    precedes_ok upper query (by change offset + i * 8 + 2 * 4 ≤ _; omega)
  have double : ∀ i, i < count → ∃ high low, loadWord source (offset + i * 8) = .ok high ∧
      loadWord source (offset + i * 8 + 4) = .ok low ∧
      compareLane upper (high.setWidth 64 <<< 32 ||| low.setWidth 64 : BitVec 64)
        ((query ⟨0, by decide⟩).setWidth 64 <<< 32 ||| (query ⟨1, by decide⟩).setWidth 64) =
          preceding .two upper source offset query i := fun i less => pair_ok upper query (by omega)
  have pair : ∀ i, i + 1 < count → ∃ a b c d, loadWord source (offset + i * 8) = .ok a ∧
      loadWord source (offset + i * 8 + 4) = .ok b ∧
      loadWord source (offset + i * 8 + 8) = .ok c ∧
      loadWord source (offset + i * 8 + 12) = .ok d ∧
      compareLane upper (a.setWidth 64 <<< 32 ||| b.setWidth 64 : BitVec 64)
        ((query ⟨0, by decide⟩).setWidth 64 <<< 32 ||| (query ⟨1, by decide⟩).setWidth 64) =
          preceding .two upper source offset query i ∧
      compareLane upper (c.setWidth 64 <<< 32 ||| d.setWidth 64 : BitVec 64)
        ((query ⟨0, by decide⟩).setWidth 64 <<< 32 ||| (query ⟨1, by decide⟩).setWidth 64) =
          preceding .two upper source offset query (i + 1) := by
    intro i less
    obtain ⟨a, b, first, second, one⟩ := double i (by omega)
    obtain ⟨c, d, third, fourth, two⟩ := double (i + 1) less
    have place : offset + (i + 1) * 8 = offset + i * 8 + 8 := by omega
    rw [place] at third fourth
    exact ⟨a, b, c, d, first, second, third, fourth, one, two⟩
  unfold neonTwo
  interval_cases count
  · rfl
  · simp only [List.foldlM_cons, List.foldlM_nil, single 0 (by decide), ok_bind, countP_range_succ]
    rfl
  · obtain ⟨a, b, c, d, first, second, third, fourth, one, two⟩ := pair 0 (by decide)
    simp only [List.foldlM_cons, List.foldlM_nil, first, second, third, fourth, one, two, ok_bind,
      countP_range_succ]
    simp
  · obtain ⟨a, b, c, d, first, second, third, fourth, one, two⟩ := pair 0 (by decide)
    simp only [List.foldlM_cons, List.foldlM_nil, first, second, third, fourth, one, two, ok_bind,
      countP_range_succ, single 2 (by decide)]
    simp
  · obtain ⟨a, b, c, d, first, second, third, fourth, one, two⟩ := pair 0 (by decide)
    obtain ⟨a', b', c', d', first', second', third', fourth', one', two'⟩ := pair 2 (by decide)
    simp only [List.foldlM_cons, List.foldlM_nil, first, second, third, fourth, one, two, ok_bind,
      countP_range_succ, first', second', third', fourth', one', two']
    simp [Nat.add_assoc]

theorem neonFour_ok {count : ℕ} (query : Key .four) (few : count ≤ 4)
    (inside : offset + count * 16 ≤ source.length) :
    neonFour upper source offset count query =
      .ok ((List.range count).countP (preceding .four upper source offset query)) := by
  have loop : ∀ lanes, (List.range lanes).foldlM (fun (result : ℕ) at_ =>
      if count ≤ at_ then .ok result
      else do
        let found ← precedesFour upper source (offset + at_ * 16) query
        .ok (result + found.toNat)) 0 =
      (.ok ((List.range (min lanes count)).countP
        (preceding .four upper source offset query)) : Result ℕ) := by
    intro lanes
    induction lanes with
    | zero => rw [Nat.zero_min]; rfl
    | succ lanes induction =>
        rw [List.range_succ, List.foldlM_append, induction, ok_bind, List.foldlM_cons]
        by_cases behind : count ≤ lanes
        · rw [if_pos behind, Nat.min_eq_right behind, Nat.min_eq_right (by omega)]
          rfl
        · rw [if_neg behind, precedesFour_ok upper query (by omega), ok_bind, ok_bind,
            Nat.min_eq_left (by omega), Nat.min_eq_left (by omega), countP_range_succ]
          rfl
  rw [neonFour, loop, Nat.min_eq_right few]

/-! ## Masks of words -/

theorem getLsbD_toBitset (f : ℕ → Bool) {lanes : ℕ} (small : lanes ≤ 32) (i : ℕ) :
    (toBitset lanes f).getLsbD i = (decide (i < lanes) && f i) := by
  induction lanes with
  | zero => simp [toBitset]
  | succ lanes induction =>
      have step : toBitset (lanes + 1) f =
          toBitset lanes f ||| (BitVec.ofBool (f lanes)).setWidth 32 <<< lanes := by
        rw [toBitset, List.range_succ, List.foldl_append]
        rfl
      have single : ((BitVec.ofBool (f lanes)).setWidth 32 <<< lanes).getLsbD i =
          (decide (i = lanes) && f lanes) := by
        rw [BitVec.getLsbD_shiftLeft, BitVec.getLsbD_setWidth, BitVec.getLsbD_ofBool]
        grind
      rw [step, BitVec.getLsbD_or, induction (by omega), single]
      grind

/-- What the masks of words hold of the words before a position. -/
structure Compared (source : List (BitVec 8)) (offset wordCount passed : ℕ) (query : Key K)
    (less equal : BitVec 32) : Prop where
  less_bit : ∀ p < wordCount, p < passed → less.getLsbD p =
    decide (wordAt source (offset + 4 * p) < query ⟨p % K.words, Nat.mod_lt _ K.words_pos⟩)
  equal_bit : ∀ p < wordCount, p < passed → equal.getLsbD p =
    decide (wordAt source (offset + 4 * p) = query ⟨p % K.words, Nat.mod_lt _ K.words_pos⟩)
  less_clear : ∀ p, passed ≤ p → less.getLsbD p = false
  equal_clear : ∀ p, passed ≤ p → equal.getLsbD p = false

theorem lanes_aligned (K : KeyWidth) (lanes : Lanes) (at_ lane : ℕ) (aligned : lanes.count ∣ at_) :
    (at_ + lane) % K.words = lane % K.words := by
  have divides : K.words ∣ at_ := by
    refine Dvd.dvd.trans ?_ aligned
    cases K <;> cases lanes <;> decide
  obtain ⟨k, rfl⟩ := divides
  rw [Nat.mul_add_mod]

theorem Compared.chunk {wordCount chunk : ℕ} {query : Key K} {less equal : BitVec 32}
    (lanes : Lanes) (idle : ℕ → BitVec 32)
    (compared : Compared source offset wordCount (chunk * lanes.count) query less equal)
    (started : chunk * lanes.count < wordCount) (small : wordCount ≤ 16)
    (inside : offset + 4 * wordCount ≤ source.length) :
    ∃ values, loadPartial idle source (offset + chunk * lanes.count * 4)
        (min lanes.count (wordCount - chunk * lanes.count)) = .ok values ∧
      Compared source offset wordCount ((chunk + 1) * lanes.count) query
        (less ||| toBitset lanes.count (fun lane => decide (values lane <
          query ⟨lane % K.words, Nat.mod_lt _ K.words_pos⟩)) <<< (chunk * lanes.count))
        (equal ||| toBitset lanes.count (fun lane => decide (values lane =
          query ⟨lane % K.words, Nat.mod_lt _ K.words_pos⟩)) <<< (chunk * lanes.count)) := by
  have wide : lanes.count ≤ 32 := by cases lanes <;> decide
  have room : offset + chunk * lanes.count * 4 +
      4 * min lanes.count (wordCount - chunk * lanes.count) ≤ source.length := by omega
  obtain ⟨values, loaded, same⟩ := loadPartial_ok idle room
  have aligned : lanes.count ∣ chunk * lanes.count := Dvd.intro_left _ rfl
  rw [Nat.add_mul, Nat.one_mul]
  generalize chunk * lanes.count = at_ at *
  have lane_of : ∀ p < wordCount, at_ ≤ p → p < at_ + lanes.count →
      values (p - at_) = wordAt source (offset + 4 * p) ∧ (p - at_) % K.words = p % K.words := by
    intro p before behind inner
    have place : offset + at_ * 4 + 4 * (p - at_) = offset + 4 * p := by omega
    have lane := lanes_aligned K lanes at_ (p - at_) aligned
    rw [Nat.add_sub_cancel' behind] at lane
    exact ⟨by rw [same _ (by omega), place], lane.symm⟩
  refine ⟨values, loaded, ?_, ?_, ?_, ?_⟩
  · intro p before passed
    rw [BitVec.getLsbD_or, BitVec.getLsbD_shiftLeft, getLsbD_toBitset _ wide]
    by_cases old : p < at_
    · rw [compared.less_bit p before old, decide_eq_true old]
      simp
    · obtain ⟨value, place⟩ := lane_of p before (by omega) passed
      rw [compared.less_clear p (by omega), decide_eq_false old, decide_eq_true (by omega),
        decide_eq_true (by omega), value]
      simp only [place, Bool.false_or, Bool.not_false, Bool.true_and]
  · intro p before passed
    rw [BitVec.getLsbD_or, BitVec.getLsbD_shiftLeft, getLsbD_toBitset _ wide]
    by_cases old : p < at_
    · rw [compared.equal_bit p before old, decide_eq_true old]
      simp
    · obtain ⟨value, place⟩ := lane_of p before (by omega) passed
      rw [compared.equal_clear p (by omega), decide_eq_false old, decide_eq_true (by omega),
        decide_eq_true (by omega), value]
      simp only [place, Bool.false_or, Bool.not_false, Bool.true_and]
  · intro p behind
    have outside : ¬p - at_ < lanes.count := by omega
    rw [BitVec.getLsbD_or, BitVec.getLsbD_shiftLeft, getLsbD_toBitset _ wide,
      compared.less_clear p (by omega), decide_eq_false outside]
    simp
  · intro p behind
    have outside : ¬p - at_ < lanes.count := by omega
    rw [BitVec.getLsbD_or, BitVec.getLsbD_shiftLeft, getLsbD_toBitset _ wide,
      compared.equal_clear p (by omega), decide_eq_false outside]
    simp

/-- Nothing changes behind the last word. -/
theorem Compared.later {wordCount passed more : ℕ} {query : Key K} {less equal : BitVec 32}
    (compared : Compared source offset wordCount passed query less equal)
    (whole : wordCount ≤ passed) (further : passed ≤ more) :
    Compared source offset wordCount more query less equal :=
  ⟨fun p before _ => compared.less_bit p before (by omega),
    fun p before _ => compared.equal_bit p before (by omega),
    fun p behind => compared.less_clear p (by omega),
    fun p behind => compared.equal_clear p (by omega)⟩

/-- The masks compare every word of the keys. -/
theorem compareWords_ok (lanes : Lanes) (idle : ℕ → BitVec 32) {wordCount : ℕ} (query : Key K)
    (few : wordCount ≤ K.words * 4) (inside : offset + 4 * wordCount ≤ source.length) :
    ∃ less equal, compareWords K source offset lanes idle wordCount query = .ok (less, equal) ∧
      ∀ p < wordCount,
        less.getLsbD p = decide (wordAt source (offset + 4 * p) <
          query ⟨p % K.words, Nat.mod_lt _ K.words_pos⟩) ∧
        equal.getLsbD p = decide (wordAt source (offset + 4 * p) =
          query ⟨p % K.words, Nat.mod_lt _ K.words_pos⟩) := by
  have small : wordCount ≤ 16 := few.trans (by cases K <;> decide)
  have positive : 0 < lanes.count := by cases lanes <;> decide
  have loop : ∀ chunks, ∃ less equal, (List.range chunks).foldlM
      (fun ((less, equal) : BitVec 32 × BitVec 32) chunk =>
        let at_ := chunk * lanes.count
        if wordCount ≤ at_ then .ok (less, equal)
        else do
          let values ← loadPartial idle source (offset + at_ * 4)
            (min lanes.count (wordCount - at_))
          let queries (lane : ℕ) := query ⟨lane % K.words, Nat.mod_lt _ K.words_pos⟩
          .ok (less ||| toBitset lanes.count (fun lane => decide (values lane < queries lane)) <<< at_,
            equal ||| toBitset lanes.count
              (fun lane => decide (values lane = queries lane)) <<< at_))
      (0#32, 0#32) = (.ok (less, equal) : Result (BitVec 32 × BitVec 32)) ∧
      Compared source offset wordCount (chunks * lanes.count) query less equal := by
    intro chunks
    induction chunks with
    | zero =>
        refine ⟨0#32, 0#32, rfl, ?_, ?_, fun p _ => BitVec.getLsbD_zero, fun p _ => BitVec.getLsbD_zero⟩
        · intro p _ passed
          rw [Nat.zero_mul] at passed
          exact absurd passed (Nat.not_lt_zero p)
        · intro p _ passed
          rw [Nat.zero_mul] at passed
          exact absurd passed (Nat.not_lt_zero p)
    | succ chunks induction =>
        obtain ⟨less, equal, run, compared⟩ := induction
        rw [List.range_succ, List.foldlM_append, run, ok_bind, List.foldlM_cons]
        dsimp only
        by_cases behind : wordCount ≤ chunks * lanes.count
        · rw [if_pos behind]
          exact ⟨less, equal, rfl, compared.later behind (Nat.mul_le_mul_right _ (Nat.le_succ _))⟩
        · obtain ⟨values, loaded, further⟩ :=
            compared.chunk lanes idle (Nat.not_le.mp behind) small inside
          rw [if_neg behind, loaded, ok_bind]
          exact ⟨_, _, rfl, further⟩
  obtain ⟨less, equal, run, compared⟩ := loop ((K.words * 4 + lanes.count - 1) / lanes.count)
  have whole : K.words * 4 ≤ (K.words * 4 + lanes.count - 1) / lanes.count * lanes.count := by
    have split := Nat.div_add_mod (K.words * 4 + lanes.count - 1) lanes.count
    have rest := Nat.mod_lt (K.words * 4 + lanes.count - 1) positive
    rw [Nat.mul_comm] at split
    omega
  exact ⟨less, equal, run, fun p before =>
    ⟨compared.less_bit p before (by omega), compared.equal_bit p before (by omega)⟩⟩

/-- The flags of a comparison of whole keys. -/
def flags (query key : Key K) : Bool × Bool :=
  (List.finRange K.words).foldl (fun (less, equal) i =>
    (less || (equal && decide (key i < query i)), equal && decide (key i = query i))) (false, true)

theorem below_eq_flags (query key : Key K) :
    below upper query key =
      if upper then (flags query key).1 || (flags query key).2 else (flags query key).1 := by
  have digits : ∀ (places : List (Fin K.words)) (n m : ℕ),
      places.foldl (fun ((less, equal) : Bool × Bool) i =>
        (less || (equal && decide (key i < query i)), equal && decide (key i = query i)))
        (decide (n < m), decide (n = m)) =
      (decide (places.foldl (fun n i => n * 2 ^ 32 + (key i).toNat) n <
          places.foldl (fun n i => n * 2 ^ 32 + (query i).toNat) m),
        decide (places.foldl (fun n i => n * 2 ^ 32 + (key i).toNat) n =
          places.foldl (fun n i => n * 2 ^ 32 + (query i).toNat) m)) := by
    intro places
    induction places with
    | nil => intros; rfl
    | cons i places induction =>
        intro n m
        obtain ⟨less, equal⟩ := @digit_lt n m (key i) (query i)
        rw [List.foldl_cons, List.foldl_cons, List.foldl_cons, ← induction]
        simp only [less, equal, Bool.decide_or, Bool.decide_and]
  have compared : flags query key =
      (decide (number key < number query), decide (number key = number query)) :=
    digits (List.finRange K.words) 0 0
  rw [compared, below]
  cases upper
  · rfl
  · simp only [if_true, ← Bool.decide_or, Nat.le_iff_lt_or_eq]

/-- One bit of the masks which the selection of keys keeps. -/
theorem selectKeys_fold (less equal : BitVec 32) (p : ℕ) (places : List ℕ)
    (result matched : BitVec 32) :
    (let final := places.foldl (fun ((result, matched) : BitVec 32 × BitVec 32) word =>
        (result ||| (matched &&& (less >>> word)), matched &&& (equal >>> word))) (result, matched)
     (final.1.getLsbD p, final.2.getLsbD p)) =
      places.foldl (fun ((result, matched) : Bool × Bool) word =>
        (result || (matched && less.getLsbD (word + p)), matched && equal.getLsbD (word + p)))
        (result.getLsbD p, matched.getLsbD p) := by
  induction places generalizing result matched with
  | nil => rfl
  | cons word places induction =>
      rw [List.foldl_cons, List.foldl_cons]
      have step : (result.getLsbD p || (matched.getLsbD p && less.getLsbD (word + p)),
          matched.getLsbD p && equal.getLsbD (word + p)) =
          ((result ||| (matched &&& (less >>> word))).getLsbD p,
            (matched &&& (equal >>> word)).getLsbD p) := by
        rw [BitVec.getLsbD_or, BitVec.getLsbD_and, BitVec.getLsbD_and, BitVec.getLsbD_ushiftRight,
          BitVec.getLsbD_ushiftRight]
      dsimp only at step ⊢
      rw [step]
      exact induction _ _

theorem getLsbD_starts (K : KeyWidth) : ∀ count ≤ 4, ∀ p < 32,
    (starts K &&& ((1#32 <<< (count * K.words)) - 1#32)).getLsbD p =
      decide (p < count * K.words ∧ p % K.words = 0) := by
  cases K <;> decide

theorem stays_clear (less equal : ℕ → Bool) (places : List ℕ) :
    places.foldl (fun ((result, matched) : Bool × Bool) word =>
      (result || (matched && less word), matched && equal word)) (false, false) =
        (false, false) := by
  induction places with
  | nil => rfl
  | cons word places induction => exact induction

/-- Keys are counted at the words where they start. -/
theorem countP_spread {width : ℕ} (positive : 0 < width) (f : ℕ → Bool) (count : ℕ)
    (sparse : ∀ p < width * count, p % width ≠ 0 → f p = false) :
    (List.range (width * count)).countP f = (List.range count).countP fun k => f (width * k) := by
  induction count with
  | zero => rfl
  | succ count induction =>
      have before := induction fun p less => sparse p (by rw [Nat.mul_succ]; omega)
      have rest : (List.range width).countP (fun i => f (width * count + i)) =
          (f (width * count)).toNat := by
        obtain ⟨more, rfl⟩ := Nat.exists_eq_succ_of_ne_zero positive.ne'
        have later : (List.range more).countP (fun i => f (more.succ * count + (i + 1))) = 0 := by
          refine List.countP_eq_zero.mpr fun i member => ?_
          have less := List.mem_range.mp member
          have place : (more.succ * count + (i + 1)) % more.succ = i + 1 := by
            rw [Nat.mul_add_mod, Nat.mod_eq_of_lt (by omega)]
          rw [Bool.not_eq_true]
          exact sparse _ (by rw [Nat.mul_succ]; omega) (by rw [place]; omega)
        rw [Nat.succ_eq_add_one, List.range_succ_eq_map, List.countP_cons, List.countP_map]
        change (List.range more).countP (fun i => f (more.succ * count + (i + 1))) + _ = _
        rw [later, Nat.zero_add, Nat.add_zero]
        cases f (more.succ * count) <;> rfl
      rw [Nat.mul_succ, List.range_add, List.countP_append, before, countP_range_succ,
        List.countP_map]
      exact congrArg _ rest

theorem registersPopulation_ok (lanes : Lanes) (idle : ℕ → BitVec 32) {count : ℕ} (query : Key K)
    (few : count ≤ 4) (inside : offset + count * K.bytes ≤ source.length) :
    registersPopulation K upper source offset lanes idle count query =
      .ok ((List.range count).countP (preceding K upper source offset query)) := by
  have words : count * K.words ≤ K.words * 4 := by
    rw [Nat.mul_comm]
    exact Nat.mul_le_mul_left _ few
  have small : count * K.words ≤ 32 := words.trans (by cases K <;> decide)
  have room : offset + 4 * (count * K.words) ≤ source.length := by
    unfold KeyWidth.bytes at inside
    rw [← Nat.mul_assoc] at inside
    omega
  obtain ⟨less, equal, run, bits⟩ := compareWords_ok lanes idle query words room
  rw [registersPopulation, run, ok_bind]
  refine congrArg Except.ok ?_
  have selected : ∀ p < 32, (selectKeys K upper (count * K.words) less equal).getLsbD p =
      (decide (p < count * K.words ∧ p % K.words = 0) &&
        preceding K upper source offset query (p / K.words)) := by
    intro p narrow
    have fold := selectKeys_fold less equal p (List.range K.words) 0#32
      (starts K &&& ((1#32 <<< (count * K.words)) - 1#32))
    rw [getLsbD_starts K count few p narrow, BitVec.getLsbD_zero] at fold
    have whole : (selectKeys K upper (count * K.words) less equal).getLsbD p =
        (let final := (List.range K.words).foldl (fun ((result, matched) : Bool × Bool) word =>
            (result || (matched && less.getLsbD (word + p)),
              matched && equal.getLsbD (word + p)))
            (false, decide (p < count * K.words ∧ p % K.words = 0))
         if upper then final.1 || final.2 else final.1) := by
      rw [← fold]
      unfold selectKeys
      cases upper
      · rfl
      · exact BitVec.getLsbD_or ..
    rw [whole]
    by_cases start : p < count * K.words ∧ p % K.words = 0
    · rw [decide_eq_true start, Bool.true_and, preceding, below_eq_flags]
      have same : (List.range K.words).foldl (fun ((result, matched) : Bool × Bool) word =>
          (result || (matched && less.getLsbD (word + p)), matched && equal.getLsbD (word + p)))
          (false, true) =
          flags query (keyAt K source (offset + p / K.words * K.bytes)) := by
        obtain ⟨before, whole⟩ := start
        have split := Nat.div_add_mod p K.words
        rw [whole, Nat.add_zero] at split
        have key_inside : K.words * (p / K.words) + K.words ≤ count * K.words := by
          have key_less : p / K.words < count := by
            rw [Nat.div_lt_iff_lt_mul K.words_pos]
            exact before
          rw [← Nat.mul_succ, Nat.mul_comm count]
          exact Nat.mul_le_mul_left _ key_less
        have places : List.range K.words = (List.finRange K.words).map Fin.val := by
          rw [List.map_coe_finRange_eq_range]
        rw [places, List.foldl_map, flags]
        refine congrArg (fun f => (List.finRange K.words).foldl f (false, true)) ?_
        funext ⟨result, matched⟩ i
        have word := i.isLt
        obtain ⟨less_bit, equal_bit⟩ := bits (i + p) (by omega)
        have digit : (⟨(i + p) % K.words, Nat.mod_lt _ K.words_pos⟩ : Fin K.words) = i := by
          refine Fin.ext ?_
          change (i.val + p) % K.words = i.val
          rw [← split, Nat.add_mul_mod_self_left, Nat.mod_eq_of_lt word]
        have place : offset + 4 * (i + p) = offset + p / K.words * K.bytes + 4 * i := by
          unfold KeyWidth.bytes
          rw [← Nat.mul_assoc, Nat.mul_comm (p / K.words), split]
          omega
        rw [digit, place] at less_bit equal_bit
        rw [less_bit, equal_bit]
        rfl
      rw [same]
    · rw [decide_eq_false start, Bool.false_and,
        stays_clear (fun word => less.getLsbD (word + p)) (fun word => equal.getLsbD (word + p))]
      cases upper <;> rfl
  obtain ⟨idle_words, all⟩ := Nat.exists_eq_add_of_le small
  have behind : (List.range idle_words).countP ((selectKeys K upper (count * K.words) less
      equal).getLsbD ∘ (count * K.words + ·)) = 0 := by
    refine List.countP_eq_zero.mpr fun i member => ?_
    have less_idle := List.mem_range.mp member
    rw [Function.comp_apply, selected _ (by omega),
      decide_eq_false fun start => absurd start.1 (by omega)]
    simp
  have split : List.range 32 = List.range (count * K.words) ++
      (List.range idle_words).map (count * K.words + ·) := by
    rw [all, List.range_add]
  rw [split, List.countP_append, List.countP_map, behind, Nat.add_zero, Nat.mul_comm count,
    countP_spread K.words_pos]
  · refine List.countP_congr fun k member => ?_
    have before : K.words * k < count * K.words := by
      rw [Nat.mul_comm]
      exact Nat.mul_lt_mul_of_pos_right (List.mem_range.mp member) K.words_pos
    rw [Nat.mul_comm K.words count, selected _ (by omega), Nat.mul_mod_right,
      Nat.mul_div_cancel_left _ K.words_pos, decide_eq_true ⟨before, rfl⟩, Bool.true_and]
  · intro p before inner
    rw [Nat.mul_comm K.words count] at before ⊢
    rw [selected p (by omega), decide_eq_false fun start => inner start.2, Bool.false_and]

/-- Every architecture counts the keys which precede the query. -/
theorem population_ok (arch : Arch) {count : ℕ} (query : Key K) (few : count ≤ 4)
    (inside : offset + count * K.bytes ≤ source.length) :
    population K upper source offset arch count query =
      .ok ((List.range count).countP (preceding K upper source offset query)) := by
  unfold population
  by_cases none_left : count = 0
  · subst none_left
    rfl
  · rw [if_neg none_left]
    cases arch with
    | scalar => exact scalarPopulation_ok upper query inside
    | neon idle =>
        cases K with
        | one => exact neonOne_ok upper idle query few inside
        | two => exact neonTwo_ok upper query few inside
        | four => exact neonFour_ok upper query few inside
    | registers lanes idle => exact registersPopulation_ok upper lanes idle query few inside

end Everett.FixedSearch

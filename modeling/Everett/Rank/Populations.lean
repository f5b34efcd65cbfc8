import Everett.Rank.Classes

/-!
# Directories of group populations

The batch builder and the incremental builder accept the same populations and make the same words,
and every query of the directory is exact.
-/

namespace Everett.GroupRank

open BitWords Outcome

variable {K : GroupSize} {source values : List (BitVec 64)} {count : BitVec 64}

/-! ## Group sizes -/

theorem GroupSize.positive (K : GroupSize) : 0 < K.classBits := by
  have := K.least
  omega

theorem GroupSize.small (K : GroupSize) : K.classBits < 64 := by
  have := K.most
  omega

theorem GroupSize.three_le (K : GroupSize) : 3 ≤ K.size := by
  have power : 2 ^ 2 ≤ 2 ^ K.classBits := Nat.pow_le_pow_right Nat.two_pos K.least
  unfold GroupSize.size
  omega

theorem GroupSize.size_lt (K : GroupSize) : K.size < 2 ^ K.classBits := by
  have := Nat.two_pow_pos K.classBits
  unfold GroupSize.size
  omega

theorem groups_split (K : GroupSize) (count : BitVec 64) :
    groupCount K count * K.size =
      count.toNat + if count.toNat % K.size ≠ 0 then K.size - count.toNat % K.size else 0 := by
  have split := Nat.div_add_mod count.toNat K.size
  have less := Nat.mod_lt count.toNat (Nat.lt_of_lt_of_le (by decide) K.three_le)
  unfold groupCount
  split_ifs with rest
  · rw [Nat.add_mul, Nat.one_mul, Nat.mul_comm]
    omega
  · rw [Nat.add_zero, Nat.add_zero, Nat.mul_comm]
    omega

/-- The class bits of all groups can be counted. -/
theorem groups_fit (K : GroupSize) (count : BitVec 64) :
    groupCount K count ≤ (2 ^ 64 - 1 - 63) / K.classBits := by
  have bound : ∀ n < 64, 2 ≤ n → n * ((2 ^ 64 - 1) / (2 ^ n - 1) + 1) ≤ 2 ^ 64 - 1 - 63 := by
    decide
  have few : groupCount K count ≤ (2 ^ 64 - 1) / K.size + 1 := by
    have most : count.toNat / K.size ≤ (2 ^ 64 - 1) / K.size :=
      Nat.div_le_div_right (Nat.le_sub_one_of_lt count.isLt)
    unfold groupCount
    split_ifs <;> omega
  rw [Nat.le_div_iff_mul_le K.positive, Nat.mul_comm]
  exact (Nat.mul_le_mul_left K.classBits few).trans (bound _ K.small K.least)

/-! ## Valid populations -/

/-- A population for every group, the last group as wide as the rest of the entries. -/
structure Valid (K : GroupSize) (values : List (BitVec 64)) (count : BitVec 64) : Prop where
  groups : values.length = groupCount K count
  limits : ∀ group < values.length, (itemOf values group).toNat ≤ populationLimit K count group

theorem populationLimit_le (K : GroupSize) (count : BitVec 64) (group : ℕ) :
    populationLimit K count group ≤ K.size := by
  unfold populationLimit
  split_ifs
  · exact (Nat.mod_lt _ (Nat.lt_of_lt_of_le (by decide) K.three_le)).le
  · exact le_rfl

/-- The groups lie within the entries. -/
theorem limit_fits (K : GroupSize) {group : ℕ} (inside : group < groupCount K count) :
    group * K.size + populationLimit K count group ≤ count.toNat := by
  have whole := groups_split K count
  have less := Nat.mod_lt count.toNat (Nat.lt_of_lt_of_le (by decide) K.three_le)
  unfold populationLimit
  by_cases last : group + 1 = groupCount K count
  · rw [← last, Nat.succ_mul] at whole
    by_cases rest : count.toNat % K.size ≠ 0
    · rw [if_pos rest] at whole
      rw [if_pos ⟨last, rest⟩]
      omega
    · rw [if_neg rest] at whole
      rw [if_neg fun both => rest both.2]
      omega
  · have further : group + 2 ≤ groupCount K count := by omega
    have upto := Nat.mul_le_mul_right K.size further
    rw [whole, Nat.add_mul] at upto
    rw [if_neg fun both => last both.1]
    split_ifs at upto <;> omega

theorem Valid.narrow (valid : Valid K values count) {group : ℕ} (inside : group < values.length) :
    (itemOf values group).toNat < 2 ^ K.classBits :=
  ((valid.limits group inside).trans (populationLimit_le K count group)).trans_lt K.size_lt

theorem Valid.take_le (valid : Valid K values count) {group : ℕ} (inside : group ≤ values.length) :
    total (values.take group) ≤ group * K.size := by
  induction group with
  | zero => exact Nat.zero_le _
  | succ group induction =>
      have limit := (valid.limits group inside).trans (populationLimit_le K count group)
      rw [total_take_succ, Nat.succ_mul]
      exact Nat.add_le_add (induction (by omega)) limit

/-- Populations add up to no more than the entries. -/
theorem Valid.sum_le (valid : Valid K values count) {group : ℕ} (inside : group ≤ values.length) :
    total (values.take group) ≤ count.toNat := by
  cases group with
  | zero => exact Nat.zero_le _
  | succ group =>
      have before := valid.take_le (Nat.le_of_succ_le inside)
      have limit := valid.limits group inside
      have fits := @limit_fits count K group (by rw [← valid.groups]; omega)
      rw [total_take_succ]
      omega

/-! ## Exact directories -/

/-- A directory of populations. -/
structure Exact (K : GroupSize) (values : List (BitVec 64)) (count : BitVec 64) (index : Groups) :
    Prop where
  valid : Valid K values count
  held : Holds K.classBits values index.classes index.checkpoints
  size : index.classes.length = (values.length * K.classBits + 63) / 64
  virtualCount : index.virtualCount = count

variable {index : Groups}

theorem Exact.unique {other : Groups} (left : Exact K values count index)
    (right : Exact K values count other) : index = other := by
  obtain ⟨classes, checkpoints⟩ := left.held.unique right.held (by rw [left.size, right.size])
  have size := left.virtualCount.trans right.virtualCount.symm
  cases index
  cases other
  rw [Groups.mk.injEq]
  exact ⟨classes, checkpoints, size⟩

theorem Exact.groups (exact : Exact K values count index) :
    groupCount K index.virtualCount = values.length := by
  rw [exact.virtualCount, exact.valid.groups]

theorem Exact.view_ok (exact : Exact K values count index) : view K index = .ok index := by
  have fits := groups_fit K count
  have marks := exact.held.marks
  have size := exact.size
  rw [← exact.valid.groups] at fits
  rw [view, view15, exact.groups]
  split_ifs with nibbles wrong
  · rw [nibbles] at size
    omega
  · rfl
  · omega
  · omega
  · rfl

theorem Exact.readClass_ok (exact : Exact K values count index) {group : ℕ}
    (inside : group < values.length) :
    readClass K index.classes group = .ok (itemOf values group) := by
  have size := exact.size
  have room : (group + 1) * K.classBits ≤ values.length * K.classBits :=
    Nat.mul_le_mul_right _ inside
  rw [Nat.succ_mul] at room
  have found := exact.held.field K.positive K.small group
  have split := Nat.div_add_mod (group * K.classBits) 64
  have positive := K.positive
  rw [← found, readClass, loadWord_ok (by omega), ok_bind]
  dsimp only
  unfold field
  dsimp only
  split_ifs with straddles
  · rw [loadWord_ok (by omega)]
    rfl
  · rfl

theorem Exact.classAt_ok (exact : Exact K values count index) {group : ℕ}
    (inside : group < values.length) : classAt K index group = .ok (itemOf values group) := by
  have found := exact.held.field K.positive K.small group
  have size := exact.size
  rw [classAt, classAt15, exact.groups, if_neg (Nat.not_le.mpr inside),
    if_neg (Nat.not_le.mpr inside)]
  split_ifs with nibbles
  · rw [nibbles] at size found
    have place : group * 4 / 64 = group / 16 ∧ group * 4 % 64 = 4 * (group % 16) := by omega
    have whole : ¬64 < 4 * (group % 16) + 4 := by omega
    rw [loadWord_ok (by omega), ← found, field, place.1, place.2]
    simp only [whole, if_false]
    rfl
  · exact exact.readClass_ok inside

/-! ## Ranks -/

theorem addPrefix_ok {error : String} {checkpoint sum limit : ℕ} (fits : checkpoint + sum ≤ limit) :
    addPrefix error checkpoint sum limit = .ok (checkpoint + sum) := by
  rw [addPrefix, if_neg (by omega)]

/-- The checkpoint of a group. -/
theorem Exact.checkpoint (exact : Exact K values count index) {group : ℕ}
    (inside : group < values.length) :
    ∃ mark, loadWord index.checkpoints (group / 128) = .ok mark ∧
      mark.toNat = total (values.take (128 * (group / 128))) := by
  have marks := exact.held.marks
  have there : group / 128 < index.checkpoints.length := by omega
  exact ⟨_, loadWord_eq (List.getElem?_eq_getElem there),
    exact.held.sums _ _ (List.getElem?_eq_getElem there)⟩

/-- The populations since the checkpoint complete a rank. -/
theorem Exact.addPrefix_ok (exact : Exact K values count index) {group : ℕ}
    (inside : group < values.length) {mark : BitVec 64} {error : String} {rest : ℕ}
    (sum : mark.toNat = total (values.take (128 * (group / 128))))
    (same : rest = total ((values.drop (128 * (group / 128))).take (group % 128))) :
    addPrefix error mark.toNat rest count.toNat = .ok (total (values.take group)) := by
  have fits := exact.valid.sum_le inside.le
  have whole := total_drop values (128 * (group / 128)) (group % 128)
  rw [Nat.div_add_mod] at whole
  rw [GroupRank.addPrefix_ok (by omega), ← whole, ← sum, ← same]

theorem Exact.rank15_ok (exact : Exact K values count index) (nibbles : K.classBits = 4)
    (arch : Architecture) {group : ℕ} (inside : group < values.length) :
    rank15 K arch index group = .ok (total (values.take group)) := by
  obtain ⟨mark, loaded, sum⟩ := exact.checkpoint inside
  have held := exact.held
  have size := exact.size
  rw [nibbles] at held size
  have start : 64 * (group / 128 * 8) = 4 * (128 * (group / 128)) := by omega
  rw [rank15, exact.groups, if_neg (Nat.not_le.mpr inside), loaded, ok_bind, exact.virtualCount]
  dsimp only
  split_ifs with first vector
  · exact exact.addPrefix_ok inside sum (by rw [first]; rfl)
  · exact exact.addPrefix_ok inside sum (nibbleVectors_eq held start (by omega))
  · obtain ⟨pairs, run, reduced⟩ := @pairs_ok index.classes (group / 128 * 8)
      (group / 16 - group / 128 * 8) (group % 16) (by omega) (by omega) (by omega)
    have last : group / 128 * 8 + (group / 16 - group / 128 * 8) = group / 16 := by omega
    have place : 16 * (group / 16 - group / 128 * 8) + group % 16 = group % 128 := by omega
    rw [last, place, held.weigh_ok (by decide) start] at reduced
    rw [run, ok_bind, loadWord_ok (by omega), ok_bind]
    exact exact.addPrefix_ok inside sum reduced

/-- The generic loop. -/
theorem Exact.loop_ok (exact : Exact K values count index) {first size : ℕ}
    (inside : first + size ≤ values.length) :
    (List.range' first size).foldlM (fun result i => do
        let value ← readClass K index.classes i
        addPrefixGroups result value.toNat count.toNat) (total (values.take first)) =
      .ok (total (values.take (first + size))) := by
  induction size with
  | zero => rfl
  | succ size induction =>
      have next := total_take_succ values (first + size)
      have fits : total (values.take (first + size + 1)) ≤ count.toNat :=
        exact.valid.sum_le (by omega)
      rw [List.range'_1_concat, List.foldlM_append, induction (by omega), ok_bind, List.foldlM_cons,
        exact.readClass_ok (by omega), ok_bind, addPrefixGroups,
        GroupRank.addPrefix_ok (by rw [← next]; exact fits), ok_bind, ← next]
      rfl

theorem Exact.rank_ok (exact : Exact K values count index) (arch : Architecture) {group : ℕ}
    (inside : group < values.length) :
    rank K arch index group = .ok (total (values.take group)) := by
  obtain ⟨mark, loaded, sum⟩ := exact.checkpoint inside
  have size := exact.size
  have start : 64 * (group / 128 * (2 * K.classBits)) = K.classBits * (128 * (group / 128)) := by
    ring
  have room : (group + 1) * K.classBits ≤ values.length * K.classBits :=
    Nat.mul_le_mul_right _ inside
  have less : group % 128 * K.classBits ≤ 128 * K.classBits := Nat.mul_le_mul_right _ (by omega)
  have split : group * K.classBits =
      64 * (group / 128 * (2 * K.classBits)) + group % 128 * K.classBits := by
    calc group * K.classBits
        = (128 * (group / 128) + group % 128) * K.classBits := by rw [Nat.div_add_mod]
      _ = _ := by ring
  have rest : weigh (place K.classBits)
      (bitAt (index.classes.drop (group / 128 * (2 * K.classBits))))
        (group % 128 * K.classBits) =
      total ((values.drop (128 * (group / 128))).take (group % 128)) := by
    rw [Nat.mul_comm (group % 128), exact.held.weigh_ok K.positive start]
  rw [rank]
  rw [Nat.succ_mul] at room
  split_ifs with nibbles outside packed
  · exact exact.rank15_ok nibbles arch inside
  · rw [exact.groups] at outside
    omega
  · rw [loaded, ok_bind, exact.virtualCount]
    dsimp only
    split_ifs with first vector short
    · exact exact.addPrefix_ok inside sum (by rw [first]; rfl)
    · refine exact.addPrefix_ok inside sum ?_
      rw [prefixVectors_eq K.positive _ (by omega), rest]
    · omega
    · rw [prefixPortable_eq K.positive (by rw [List.length_drop]; omega) (fun _ => by omega),
        ok_bind]
      exact exact.addPrefix_ok inside sum rest
  · have run := @Exact.loop_ok _ _ _ _ exact (group - group % 128) (group % 128) (by omega)
    have here : group - group % 128 = 128 * (group / 128) := by omega
    have whole : 128 * (group / 128) + group % 128 = group := Nat.div_add_mod group 128
    have fits := exact.valid.sum_le inside.le
    rw [here, ← sum, whole] at run
    rw [loaded, ok_bind, exact.virtualCount]
    dsimp only
    rw [here, run, ok_bind, addPrefixGroups, GroupRank.addPrefix_ok (by omega), Nat.add_zero]

theorem Exact.count_ok (exact : Exact K values count index) (arch : Architecture) :
    GroupRank.count K arch index = .ok (total values) := by
  rw [GroupRank.count, exact.groups]
  dsimp only
  rcases Nat.eq_zero_or_pos values.length with none | some
  · rw [if_pos none, List.length_eq_zero_iff.mp none]
    rfl
  · have last : values.length - 1 < values.length := by omega
    have fits := @limit_fits count K (values.length - 1)
      (by rw [← exact.valid.groups]; exact last)
    have limit := exact.valid.limits _ last
    have next := total_take_succ values (values.length - 1)
    have whole := exact.valid.sum_le le_rfl
    rw [Nat.sub_add_cancel some] at next
    rw [List.take_length] at next whole
    have done : ∀ error, addPrefix error (total (values.take (values.length - 1)))
        (itemOf values (values.length - 1)).toNat count.toNat = .ok (total values) := by
      intro error
      rw [GroupRank.addPrefix_ok (by omega), next]
    rw [if_neg some.ne', exact.classAt_ok last, ok_bind, exact.virtualCount, exact.rank_ok arch last,
      ok_bind, if_neg (by omega)]
    split_ifs
    · exact done _
    · exact done _

/-! ## Batch construction -/

theorem buildGroup_ok (valid : Valid K source count) {packing : Packing} {group : ℕ}
    (inside : group < source.length)
    (held : Holds K.classBits (source.take group) packing.classes packing.checkpoints)
    (sum : packing.total.toNat = total (source.take group))
    (size : packing.classes.length = (source.length * K.classBits + 63) / 64) :
    ∃ next, buildGroup K source count packing group = .ok next ∧
      Holds K.classBits (source.take (group + 1)) next.classes next.checkpoints ∧
      next.total.toNat = total (source.take (group + 1)) ∧
      next.classes.length = (source.length * K.classBits + 63) / 64 := by
  have limit := valid.limits group inside
  have length : (source.take group).length = group := by
    rw [List.length_take]
    omega
  have further : source.take (group + 1) = source.take group ++ [itemOf source group] := by
    rw [List.take_add_one, itemOf, List.getElem?_eq_getElem inside]
    rfl
  have room : (group + 1) * K.classBits ≤ source.length * K.classBits :=
    Nat.mul_le_mul_right _ inside
  have fits := @Valid.sum_le _ _ _ valid (group + 1) inside
  have next := total_take_succ source group
  refine ⟨packing.put K.classBits group (itemOf source group), if_neg (Nat.not_lt.mpr limit), ?_,
    ?_, ?_⟩
  · have put := held.put K.positive (valid.narrow inside)
      (by rw [length, Nat.mul_comm]; omega) sum
    rw [length] at put
    rw [further]
    exact put
  · have total := packing.total.isLt
    change (packing.total + itemOf source group).toNat = _
    rw [BitVec.toNat_add, sum, next, Nat.mod_eq_of_lt]
    have bounded := count.isLt
    omega
  · exact (putField_length ..).trans size

theorem build_ok (valid : Valid K source count) :
    ∃ index, build K source count = .ok index ∧ Exact K source count index := by
  have loop : ∀ groups ≤ source.length, ∃ packing,
      (List.range groups).foldlM (buildGroup K source count)
        ⟨List.replicate ((source.length * K.classBits + 63) / 64) 0#64, [], 0#64⟩ = .ok packing ∧
      Holds K.classBits (source.take groups) packing.classes packing.checkpoints ∧
      packing.total.toNat = total (source.take groups) ∧
      packing.classes.length = (source.length * K.classBits + 63) / 64 := by
    intro groups inside
    induction groups with
    | zero => exact ⟨_, rfl, holds_nil _ _, rfl, List.length_replicate⟩
    | succ groups induction =>
        obtain ⟨packing, run, held, sum, size⟩ := induction (by omega)
        obtain ⟨next, step, rest⟩ := buildGroup_ok valid inside held sum size
        refine ⟨next, ?_, rest⟩
        rw [List.range_succ, List.foldlM_append, run, ok_bind, List.foldlM_cons, step, ok_bind]
        rfl
  obtain ⟨packing, run, held, -, size⟩ := loop source.length le_rfl
  rw [List.take_length] at held
  refine ⟨⟨packing.classes, packing.checkpoints, count⟩, ?_, valid, held, size, rfl⟩
  have fits := groups_fit K count
  rw [build, ← valid.groups]
  rw [← valid.groups] at fits
  rw [if_neg (not_not.mpr rfl), if_neg (Nat.not_lt.mpr fits), run]
  rfl

/-- Nothing but valid populations is accepted. -/
theorem valid_of_build {index : Groups} (built : build K source count = .ok index) :
    Valid K source count := by
  rw [build] at built
  split_ifs at built with length size
  have groups : source.length = groupCount K count := not_not.mp length
  obtain ⟨packing, run, -⟩ := bind_eq_ok.mp built
  have each : ∀ (size : ℕ) (first last : Packing),
      (List.range size).foldlM (buildGroup K source count) first = .ok last →
      ∀ group < size, (itemOf source group).toNat ≤ populationLimit K count group := by
    intro size
    induction size with
    | zero => exact fun _ _ _ group less => absurd less (Nat.not_lt_zero group)
    | succ size induction =>
        intro first last run group less
        rw [List.range_succ, List.foldlM_append] at run
        obtain ⟨middle, before, step⟩ := bind_eq_ok.mp run
        rcases Nat.lt_succ_iff_lt_or_eq.mp less with earlier | rfl
        · exact induction first middle before group earlier
        · obtain ⟨next, put, -⟩ := bind_eq_ok.mp step
          rw [buildGroup] at put
          split_ifs at put with wrong
          exact Nat.not_lt.mp wrong
  exact ⟨groups, by rw [groups]; exact each _ _ _ run⟩

/-! ## Incremental construction -/

/-- A builder which has accepted some populations. -/
structure Accepted (K : GroupSize) (values : List (BitVec 64)) (builder : Builder) : Prop where
  valid : Valid K values builder.virtualCount
  held : Holds K.classBits values builder.data.classes builder.data.checkpoints
  size : builder.data.classes.length = (values.length * K.classBits + 63) / 64
  sum : builder.data.total.toNat = total values
  groups : builder.groups = values.length
  active : builder.finished = false
  whole : builder.isPartial = false → builder.virtualCount.toNat = values.length * K.size
  ended : builder.isPartial = true → builder.virtualCount.toNat % K.size ≠ 0

theorem accepted_empty (K : GroupSize) : Accepted K [] Builder.empty where
  valid := ⟨by simp [groupCount, Builder.empty], fun _ less => absurd less (Nat.not_lt_zero _)⟩
  held := holds_nil _ 0
  size := by simp [Builder.empty]
  sum := rfl
  groups := rfl
  active := rfl
  whole _ := by simp [Builder.empty]
  ended := by simp [Builder.empty]

/-- The groups after one more of a width. -/
theorem groupCount_add {groups width : ℕ} {wider : BitVec 64} (positive : 0 < width)
    (most : width ≤ K.size) (sum : wider.toNat = groups * K.size + width) :
    groupCount K wider = groups + 1 ∧
      ∀ group, populationLimit K wider group = if group = groups then width else K.size := by
  have three := K.three_le
  have count : groupCount K wider = groups + 1 ∧
      (width < K.size → wider.toNat % K.size = width) ∧
      (width = K.size → wider.toNat % K.size = 0) := by
    unfold groupCount
    rw [sum, Nat.mul_comm, Nat.mul_add_mod, Nat.mul_add_div (by omega)]
    rcases most.lt_or_eq with less | rfl
    · rw [Nat.mod_eq_of_lt less, Nat.div_eq_of_lt less, if_pos positive.ne']
      exact ⟨rfl, fun _ => rfl, fun same => absurd same less.ne⟩
    · rw [Nat.mod_self, Nat.div_self positive, if_neg (not_not.mpr rfl)]
      exact ⟨rfl, fun less => absurd less (Nat.lt_irrefl _), fun _ => rfl⟩
  obtain ⟨next, short, full⟩ := count
  refine ⟨next, fun group => ?_⟩
  unfold populationLimit
  rw [next]
  by_cases last : group = groups
  · subst last
    rcases most.lt_or_eq with less | same
    · rw [short less, if_pos ⟨rfl, positive.ne'⟩, if_pos rfl]
    · rw [full same, if_neg fun both => both.2 rfl, if_pos rfl, same]
  · rw [if_neg fun both => last (Nat.succ_injective both.1), if_neg last]

/-- What `append` checks of a group. -/
structure Fits (K : GroupSize) (builder : Builder) (population width : BitVec 64) : Prop where
  whole : builder.isPartial = false
  positive : width ≠ 0#64
  most : width.toNat ≤ K.size
  less : population.toNat ≤ width.toNat
  room : builder.virtualCount.toNat + width.toNat < 2 ^ 64

/-- One more group. -/
theorem Accepted.grow {builder : Builder} (accepted : Accepted K values builder)
    {population width : BitVec 64} (fits : Fits K builder population width) :
    Accepted K (values ++ [population]) (builder.grow K population width) ∧
      (builder.grow K population width).virtualCount.toNat =
        builder.virtualCount.toNat + width.toNat := by
  obtain ⟨whole, positive, most, less, room⟩ := fits
  have positive' : 0 < width.toNat := Nat.pos_of_ne_zero fun zero =>
    positive (BitVec.eq_of_toNat_eq zero)
  have sum : (builder.virtualCount + width).toNat =
      builder.virtualCount.toNat + width.toNat := by
    rw [BitVec.toNat_add, Nat.mod_eq_of_lt room]
  have places := @groupCount_add K values.length _ (builder.virtualCount + width)
    positive' most (by rw [sum, accepted.whole whole])
  have valid : Valid K (values ++ [population]) (builder.virtualCount + width) := by
    refine ⟨?_, fun group inside => ?_⟩
    · rw [places.1, List.length_append, List.length_singleton]
    · rw [List.length_append, List.length_singleton] at inside
      rw [places.2 group, itemOf]
      split_ifs with last
      · rw [last, List.getElem?_append_right le_rfl, Nat.sub_self]
        exact less
      · have before : group < values.length := by omega
        rw [List.getElem?_append_left before]
        exact (accepted.valid.limits group before).trans (populationLimit_le K _ group)
  have narrow : population.toNat < 2 ^ K.classBits := less.trans_lt (most.trans_lt K.size_lt)
  have size := accepted.size
  have grows : (values.length + 1) * K.classBits = values.length * K.classBits + K.classBits :=
    Nat.succ_mul ..
  have extended : (builder.data.classes ++ List.replicate
      (((values.length + 1) * K.classBits + 63) / 64 - builder.data.classes.length) 0#64).length =
      ((values.length + 1) * K.classBits + 63) / 64 := by
    rw [List.length_append, List.length_replicate]
    omega
  have held : Holds K.classBits values (builder.data.classes ++ List.replicate
      (((values.length + 1) * K.classBits + 63) / 64 - builder.data.classes.length) 0#64)
      builder.data.checkpoints :=
    { accepted.held with bits := fun i => by rw [bitAt_append_zeros, accepted.held.bits] }
  have total_le := valid.sum_le le_rfl
  rw [List.take_length, total_append, sum] at total_le
  have added : total [population] = population.toNat := Nat.add_zero _
  refine ⟨⟨valid, ?_, ?_, ?_, ?_, accepted.active, ?_, ?_⟩, sum⟩
  · have put := held.put K.positive narrow (by rw [extended, Nat.mul_comm]; omega) accepted.sum
    rw [← accepted.groups] at put
    exact put
  · rw [List.length_append, List.length_singleton, ← extended, ← accepted.groups]
    exact putField_length ..
  · change (builder.data.total + population).toNat = _
    rw [BitVec.toNat_add, accepted.sum, total_append, added, Nat.mod_eq_of_lt (by omega)]
  · change builder.groups + 1 = _
    rw [accepted.groups, List.length_append, List.length_singleton]
  · intro full
    have same : width.toNat = K.size := by simpa [Builder.grow] using full
    change (builder.virtualCount + width).toNat = _
    rw [sum, accepted.whole whole, same, List.length_append, List.length_singleton, Nat.succ_mul]
  · intro short
    have apart : width.toNat ≠ K.size := by simpa [Builder.grow] using short
    change (builder.virtualCount + width).toNat % K.size ≠ 0
    rw [sum, accepted.whole whole, Nat.mul_comm, Nat.mul_add_mod,
      Nat.mod_eq_of_lt (lt_of_le_of_ne most apart)]
    exact positive'.ne'

/-- A group which fits is appended when its storage grows. -/
theorem Accepted.append_ok {builder : Builder} (accepted : Accepted K values builder)
    {population width : BitVec 64} (fits : Fits K builder population width) :
    builder.append K ⟨none, none⟩ population width = (.ok (), builder.grow K population width) := by
  have room := fits.room
  have few := groups_fit K (builder.grow K population width).virtualCount
  have grown := (accepted.grow fits).1.valid.groups
  rw [List.length_append, List.length_singleton] at grown
  rw [← grown] at few
  have refused : ¬(builder.isPartial = true ∨ width = 0#64 ∨ K.size < width.toNat ∨
      width.toNat < population.toNat) := by
    rintro (ended | empty | wide | high)
    · rw [fits.whole] at ended
      exact Bool.false_ne_true ended
    · exact fits.positive empty
    · exact Nat.not_lt.mpr fits.most wide
    · exact Nat.not_lt.mpr fits.less high
  have large : ¬(2 ^ 64 - 1 - builder.virtualCount.toNat < width.toNat ∨
      (2 ^ 64 - 1 - 63) / K.classBits ≤ builder.groups) := by
    rw [accepted.groups]
    omega
  rw [Builder.append, accepted.active, if_neg Bool.false_ne_true, if_neg refused, if_neg large,
    ite_self]

/-- An append is refused and changes nothing, or adds a group which fits. -/
theorem append_cases (K : GroupSize) (growth : Growth) (population width : BitVec 64)
    (builder : Builder) :
    (∃ error, builder.append K growth population width = (.error error, builder)) ∨
      (builder.append K growth population width = (.ok (), builder.grow K population width) ∧
        Fits K builder population width) := by
  rw [Builder.append]
  generalize (if builder.groups % 128 = 0 then growth.checkpoints else none) = marks
  split_ifs with ended wrong large
  · exact .inl ⟨_, rfl⟩
  · exact .inl ⟨_, rfl⟩
  · exact .inl ⟨_, rfl⟩
  · split
    · exact .inl ⟨_, rfl⟩
    · exact .inl ⟨_, rfl⟩
    · rw [not_or, not_or, not_or, Bool.not_eq_true] at wrong
      obtain ⟨whole, positive, most, less⟩ := wrong
      have bounded := builder.virtualCount.isLt
      exact .inr ⟨rfl, whole, positive, Nat.not_lt.mp most, Nat.not_lt.mp less, by omega⟩

/-- One call of `append`. -/
structure Append where
  growth : Growth
  population : BitVec 64
  width : BitVec 64

/-- Successive calls of `append`: the populations which were accepted, and the builder. -/
def appends (K : GroupSize) : List Append → Builder → List (BitVec 64) × Builder
  | [], builder => ([], builder)
  | call :: calls, builder =>
    match builder.append K call.growth call.population call.width with
    | (.ok _, next) =>
      let (values, last) := appends K calls next
      (call.population :: values, last)
    | (.error _, next) => appends K calls next

theorem Accepted.appends {builder : Builder} (accepted : Accepted K values builder)
    (calls : List Append) :
    Accepted K (values ++ (appends K calls builder).1) (appends K calls builder).2 := by
  induction calls generalizing values builder with
  | nil =>
      rw [GroupRank.appends, List.append_nil]
      exact accepted
  | cons call calls induction =>
      rw [GroupRank.appends]
      rcases append_cases K call.growth call.population call.width builder with
        ⟨error, refused⟩ | ⟨grown, fits⟩
      · rw [refused]
        exact induction accepted
      · rw [grown]
        have rest := induction (accepted.grow fits).1
        rw [List.append_assoc, List.singleton_append] at rest
        exact rest

/-- Finishing makes the directory of the batch builder. -/
theorem Accepted.finish {builder : Builder} (accepted : Accepted K values builder) :
    ∃ index, builder.finish.1 = .ok index ∧ build K values builder.virtualCount = .ok index ∧
      Exact K values builder.virtualCount index := by
  obtain ⟨index, built, exact⟩ := build_ok accepted.valid
  have finished : Exact K values builder.virtualCount
      ⟨builder.data.classes, builder.data.checkpoints, builder.virtualCount⟩ :=
    ⟨accepted.valid, accepted.held, accepted.size, rfl⟩
  refine ⟨index, ?_, built, exact⟩
  rw [Builder.finish, accepted.active, if_neg Bool.false_ne_true, exact.unique finished]

/-- The calls which append a sequence of populations, every group as wide as it may be. -/
def groupAppends (K : GroupSize) (source : List (BitVec 64)) (count : BitVec 64) (groups : ℕ) :
    List Append :=
  (List.range groups).map fun group =>
    ⟨⟨none, none⟩, itemOf source group, BitVec.ofNat 64 (populationLimit K count group)⟩

theorem appends_append (K : GroupSize) (calls : List Append) (call : Append) (builder : Builder) :
    appends K (calls ++ [call]) builder =
      ((appends K calls builder).1 ++ (appends K [call] (appends K calls builder).2).1,
        (appends K [call] (appends K calls builder).2).2) := by
  induction calls generalizing builder with
  | nil => rfl
  | cons first calls induction =>
      rw [List.cons_append, appends, appends]
      split
      · rw [induction]
        rfl
      · exact induction _

/-- A width is what is left of the entries, up to the group size. -/
theorem populationLimit_eq (K : GroupSize) {group : ℕ} (inside : group < groupCount K count) :
    populationLimit K count group = min ((group + 1) * K.size) count.toNat - group * K.size ∧
      0 < populationLimit K count group := by
  have whole := groups_split K count
  have less := Nat.mod_lt count.toNat (Nat.lt_of_lt_of_le (by decide) K.three_le)
  have three := K.three_le
  rw [Nat.add_mul, Nat.one_mul]
  unfold populationLimit
  by_cases last : group + 1 = groupCount K count
  · rw [← last, Nat.add_mul, Nat.one_mul] at whole
    by_cases rest : count.toNat % K.size ≠ 0
    · rw [if_pos rest] at whole
      rw [if_pos ⟨last, rest⟩]
      omega
    · rw [if_neg rest] at whole
      rw [if_neg fun both => rest both.2]
      omega
  · have further : group + 2 ≤ groupCount K count := by omega
    have upto := Nat.mul_le_mul_right K.size further
    rw [whole, Nat.add_mul] at upto
    rw [if_neg fun both => last both.1]
    split_ifs at upto <;> omega

/-- Every valid sequence of populations is accepted. -/
theorem groupAppends_ok (valid : Valid K source count) {groups : ℕ}
    (inside : groups ≤ source.length) :
    (appends K (groupAppends K source count groups) Builder.empty).1 = source.take groups ∧
      (appends K (groupAppends K source count groups) Builder.empty).2.virtualCount.toNat =
        min (groups * K.size) count.toNat := by
  induction groups with
  | zero => exact ⟨rfl, by simp [groupAppends, appends, Builder.empty]⟩
  | succ groups induction =>
      obtain ⟨values, width⟩ := induction (by omega)
      have accepted := (accepted_empty K).appends (groupAppends K source count groups)
      rw [List.nil_append, values] at accepted
      have more : groups < groupCount K count := by
        rw [← valid.groups]
        exact inside
      have limits := valid.limits groups inside
      obtain ⟨limit, positive⟩ := populationLimit_eq K more
      have limited := limit_fits K more
      have most := populationLimit_le K count groups
      have bounded := count.isLt
      have small : (BitVec.ofNat 64 (populationLimit K count groups)).toNat =
          populationLimit K count groups := by
        rw [BitVec.toNat_ofNat, Nat.mod_eq_of_lt (by omega)]
      rw [min_eq_left (by omega)] at width
      have whole : (appends K (groupAppends K source count groups)
          Builder.empty).2.isPartial = false := by
        by_contra partly
        refine accepted.ended (Bool.not_eq_false _ ▸ partly) ?_
        rw [width, Nat.mul_mod_left]
      have fits : Fits K (appends K (groupAppends K source count groups) Builder.empty).2
          (itemOf source groups) (BitVec.ofNat 64 (populationLimit K count groups)) := by
        refine ⟨whole, fun zero => ?_, ?_, ?_, ?_⟩
        · rw [zero] at small
          exact positive.ne small
        · rw [small]
          exact most
        · rw [small]
          exact limits
        · rw [small, width]
          omega
      have step : appends K [⟨⟨none, none⟩, itemOf source groups,
          BitVec.ofNat 64 (populationLimit K count groups)⟩]
          (appends K (groupAppends K source count groups) Builder.empty).2 =
          ([itemOf source groups], Builder.grow K (itemOf source groups)
            (BitVec.ofNat 64 (populationLimit K count groups))
            (appends K (groupAppends K source count groups) Builder.empty).2) := by
        rw [appends, accepted.append_ok fits]
        rfl
      have further : groupAppends K source count (groups + 1) =
          groupAppends K source count groups ++ [⟨⟨none, none⟩, itemOf source groups,
            BitVec.ofNat 64 (populationLimit K count groups)⟩] := by
        rw [groupAppends, List.range_succ, List.map_append]
        rfl
      have grown := (accepted.grow fits).2
      rw [further, appends_append, step]
      refine ⟨?_, ?_⟩
      · rw [values, List.take_add_one, itemOf, List.getElem?_eq_getElem inside]
        rfl
      · rw [grown, width, small, limit]
        omega

/-- Group rank is exact.  The batch builder accepts the valid populations only, and every query of
its directory is exact on every architecture.  Valid populations are accepted one by one as well,
and whatever the incremental builder has accepted it finishes to the directory of the batch builder;
an append which is rejected changes nothing. -/
theorem rank_groups_exact (K : GroupSize) :
    (∀ source count, ¬Valid K source count ∧ (∃ error, build K source count = .error error) ∨
      Valid K source count ∧ ∃ index, build K source count = .ok index ∧ view K index = .ok index ∧
        (∀ group < source.length, classAt K index group = .ok (itemOf source group)) ∧
        (∀ arch, ∀ group < source.length,
          rank K arch index group = .ok (total (source.take group))) ∧
        ∀ arch, GroupRank.count K arch index = .ok (total source)) ∧
    (∀ source count, Valid K source count →
      (appends K (groupAppends K source count source.length) Builder.empty).1 = source ∧
      (appends K (groupAppends K source count source.length) Builder.empty).2.finish.1 =
        build K source count) ∧
    (∀ calls, ∃ index,
      (appends K calls Builder.empty).2.finish.1 = .ok index ∧
      build K (appends K calls Builder.empty).1
        (appends K calls Builder.empty).2.virtualCount = .ok index) ∧
    ∀ growth population width builder error,
      (Builder.append K growth population width builder).1 = .error error →
        (Builder.append K growth population width builder).2 = builder := by
  refine ⟨fun source count => ?_, fun source count valid => ?_, fun calls => ?_,
    fun growth population width builder error refused => ?_⟩
  · by_cases valid : Valid K source count
    · obtain ⟨index, built, exact⟩ := build_ok valid
      exact .inr ⟨valid, index, built, exact.view_ok, fun group inside => exact.classAt_ok inside,
        fun arch group inside => exact.rank_ok arch inside, exact.count_ok⟩
    · refine .inl ⟨valid, ?_⟩
      cases built : build K source count with
      | ok index => exact absurd (valid_of_build built) valid
      | error error => exact ⟨error, rfl⟩
  · obtain ⟨values, width⟩ := groupAppends_ok valid le_rfl
    have accepted := (accepted_empty K).appends (groupAppends K source count source.length)
    rw [List.nil_append] at accepted
    obtain ⟨index, finished, built, -⟩ := accepted.finish
    have whole := groups_split K count
    have same : (appends K (groupAppends K source count source.length)
        Builder.empty).2.virtualCount = count := by
      refine BitVec.eq_of_toNat_eq ?_
      rw [width, valid.groups, whole]
      exact min_eq_right (Nat.le_add_right _ _)
    rw [List.take_length] at values
    rw [values, same] at built
    exact ⟨values, finished.trans built.symm⟩
  · have accepted := (accepted_empty K).appends calls
    rw [List.nil_append] at accepted
    obtain ⟨index, finished, built, -⟩ := accepted.finish
    exact ⟨index, finished, built⟩
  · rcases append_cases K growth population width builder with ⟨_, same⟩ | ⟨grown, -⟩
    · rw [same]
    · rw [grown] at refused
      cases refused

end Everett.GroupRank

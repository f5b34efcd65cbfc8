import Everett.Binary.Carry

/-!
# Service of a binary runtime

The invariant of the executor, kept by every action and every call, also by one which throws.
-/

namespace Everett

open Outcome ColaSnapshot ColaContinuation

variable {P : StoragePolicy}

namespace ColaRuntime

/-- What an executor keeps: a carry continues over unsettled runs, and settled runs are a tower. -/
structure Inv (e : ColaRuntime P) : Prop where
  bare : e.empty.value.size = 0
  published : e.published.Valid
  small : e.published.admissions ≤ maximum64
  idle : e.job = none → Tower e.published.admissions e.published.runs.reverse
  busy : ∀ j, e.job = some j → j.Valid e.empty

variable {e e' : ColaRuntime P} {j : ColaContinuation P}

/-- Only the counters of a runtime change. -/
def Counts (e e' : ColaRuntime P) : Prop :=
  ∃ allocated charged granted credit, e' = { e with
    allocated := allocated
    charged := charged
    granted := granted
    credit := credit }

theorem Counts.refl (e : ColaRuntime P) : e.Counts e :=
  ⟨e.allocated, e.charged, e.granted, e.credit, rfl⟩

theorem Counts.trans {e'' : ColaRuntime P} (first : e.Counts e') (second : e'.Counts e'') :
    e.Counts e'' := by
  obtain ⟨allocated, charged, granted, credit, rfl⟩ := first
  obtain ⟨allocated', charged', granted', credit', rfl⟩ := second
  exact ⟨allocated', charged', granted', credit', rfl⟩

theorem Inv.counts (inv : e.Inv) (counts : e.Counts e') : e'.Inv := by
  obtain ⟨allocated, charged, granted, credit, rfl⟩ := counts
  exact ⟨inv.bare, inv.published, inv.small, inv.idle, inv.busy⟩

theorem grant_counts {amount : Nat} (granted : e.grant amount = .ok e') : e.Counts e' := by
  obtain ⟨credit, -, rest⟩ := bind_eq_ok.mp granted
  obtain ⟨total, -, rest⟩ := bind_eq_ok.mp rest
  cases rest
  exact ⟨e.allocated, e.charged, total, credit, rfl⟩

theorem direct_counts {amount : Nat} (charged : e.direct amount = .ok e') : e.Counts e' := by
  obtain ⟨total, -, rest⟩ := bind_eq_ok.mp charged
  obtain ⟨granted, -, rest⟩ := bind_eq_ok.mp rest
  cases rest
  exact ⟨e.allocated, total, granted, e.credit, rfl⟩

theorem charge_counts {amount : Nat} (charged : e.charge amount = .ok e') : e.Counts e' := by
  obtain ⟨total, -, rest⟩ := bind_eq_ok.mp charged
  cases rest
  exact ⟨e.allocated, total, e.granted, e.credit - amount, rfl⟩

/-! ## Actions -/

/-- An executor with a carry under way. -/
theorem Inv.continue (inv : e.Inv) {allocated : Nat} {next : ColaContinuation P}
    (valid : next.Valid e.empty) : Inv { e with
      allocated
      job := some next } :=
  ⟨inv.bare, inv.published, inv.small, nofun, fun _ same => Option.some.inj same ▸ valid⟩

theorem Inv.mergeStart (inv : e.Inv) (here : e.job = some j) (stage : j.stage = .mergeStart)
    (performed : e.perform j = .ok e') : e'.Inv := by
  have valid := inv.busy j here
  rw [ColaContinuation.Valid, stage] at valid
  rw [perform, stage] at performed
  obtain ⟨merge, started, rest⟩ := bind_eq_ok.mp performed
  cases rest
  have merges : j.Merges := valid
  obtain ⟨sound, older_last, -, -⟩ := merges.tower
  have size := sound.size_le
  have carried := merges.size_le
  have mass := ColaRun.mass.eq_1 j.older
  have room : j.older.native.value.size + j.carry.value.size ≤ maximum64 := by
    have last_eq := merges.last_eq
    have last_le := merges.last_le
    omega
  obtain ⟨opened, opens, -, merging⟩ := NativeMerge.start_ok e.composition
    (NativeMerge.fits_of_start started) sound.valid merges.valid room
  rw [started] at opens
  cases opens
  refine inv.continue ?_
  have combines : Combines { j with merge := some merge } merge :=
    ⟨rfl, e.composition, _, _, _, merging⟩
  cases done : merge.done with
  | true => exact ⟨merges.step _ _, merge, combines, done⟩
  | false => exact ⟨merges.step _ _, merge, combines, done⟩

theorem Inv.mergeStep (inv : e.Inv) (here : e.job = some j) (stage : j.stage = .mergeStep)
    (performed : e.perform j = .ok e') : e'.Inv := by
  have valid := inv.busy j here
  rw [ColaContinuation.Valid, stage] at valid
  obtain ⟨merges, merge, ⟨held, composition, written, olderRest, newerRest, merging⟩, live⟩ := valid
  rw [perform, stage] at performed
  dsimp only at performed
  rw [held, demand_some, ok_bind] at performed
  have left : ¬ (olderRest = [] ∧ newerRest = []) := by
    rw [← merging.done_iff, live]
    exact Bool.false_ne_true
  obtain ⟨next, work, entry, olderRest', newerRest', stepped, after, -, -⟩ :=
    merging.step_one_ok left
  rw [stepped, ok_bind] at performed
  cases performed
  refine inv.continue ?_
  have combines : Combines { j with merge := some next } next :=
    ⟨rfl, composition, _, _, _, after⟩
  cases done : next.done with
  | true => exact ⟨merges.step _ _, next, combines, done⟩
  | false => exact ⟨merges.step _ _, next, combines, done⟩

theorem Inv.mergeFinish (inv : e.Inv) (here : e.job = some j) (stage : j.stage = .mergeFinish)
    (performed : e.perform j = .ok e') : e'.Inv := by
  have valid := inv.busy j here
  rw [ColaContinuation.Valid, stage] at valid
  obtain ⟨merges, merge, combines, done⟩ := valid
  rw [perform, stage] at performed
  dsimp only at performed
  rw [combines.1, demand_some, ok_bind] at performed
  obtain ⟨closed, frames, array, finished, adopted, valid, positive, bound⟩ :=
    combines.finish_ok merges done
  rw [finished, ok_bind] at performed
  dsimp only at performed
  rw [adopted, ok_bind] at performed
  cases performed
  exact inv.continue (merges.afterMerge valid positive bound)

theorem Inv.indexStart (inv : e.Inv) (here : e.job = some j) (stage : j.stage = .indexStart)
    (performed : e.perform j = .ok e') : e'.Inv := by
  have valid := inv.busy j here
  rw [ColaContinuation.Valid, stage] at valid
  have indexes : j.Indexes := valid
  rw [perform, stage] at performed
  obtain ⟨builder, started, rest⟩ := bind_eq_ok.mp performed
  cases rest
  obtain ⟨opened, opens, ongoing⟩ := ColaIndexBuilder.start_ongoing indexes.built
    (ColaIndexBuilder.fits_of_start started)
  rw [started] at opens
  cases opens
  refine inv.continue ?_
  cases done : builder.done with
  | true =>
      have count : 0 = j.occurrences e.empty := ongoing.done_iff.mp done
      have whole : builder.Ongoing (j.indexed e.empty) j.target none (j.occurrences e.empty) := by
        rw [← count]
        exact ongoing
      exact ⟨indexes.step _ _, builder, rfl, whole⟩
  | false =>
      have left : 0 ≠ j.occurrences e.empty := fun none_left => by
        rw [ongoing.done_iff.mpr none_left] at done
        cases done
      exact ⟨indexes.step _ _, 0, Nat.pos_of_ne_zero left.symm, builder, rfl, ongoing⟩

theorem Inv.indexStep (inv : e.Inv) (here : e.job = some j) (stage : j.stage = .indexStep)
    (performed : e.perform j = .ok e') : e'.Inv := by
  have valid := inv.busy j here
  rw [ColaContinuation.Valid, stage] at valid
  obtain ⟨indexes, count, left, builder, held, ongoing⟩ := valid
  rw [perform, stage] at performed
  dsimp only at performed
  rw [held, demand_some, ok_bind] at performed
  obtain ⟨next, stepped, after⟩ := ongoing.step_ok left
  rw [stepped, ok_bind] at performed
  cases performed
  refine inv.continue ?_
  cases done : next.done with
  | true =>
      have taken : count + 1 = j.occurrences e.empty := after.done_iff.mp done
      have whole : next.Ongoing (j.indexed e.empty) j.target none (j.occurrences e.empty) := by
        rw [← taken]
        exact after
      exact ⟨indexes.step _ _, next, rfl, whole⟩
  | false =>
      have more : count + 1 ≠ j.occurrences e.empty := fun none_left => by
        rw [after.done_iff.mpr none_left] at done
        cases done
      exact ⟨indexes.step _ _, count + 1, lt_of_le_of_ne left more, next, rfl, after⟩

theorem Inv.indexFinish (inv : e.Inv) (here : e.job = some j) (stage : j.stage = .indexFinish)
    (performed : e.perform j = .ok e') : e'.Inv := by
  have valid := inv.busy j here
  rw [ColaContinuation.Valid, stage] at valid
  obtain ⟨indexes, builder, held, ongoing⟩ := valid
  rw [perform, stage] at performed
  dsimp only at performed
  rw [held, demand_some, ok_bind] at performed
  obtain ⟨closed, index, finished, -, assembles⟩ := ongoing.finish_ok rfl
  rw [finished, ok_bind] at performed
  cases performed
  exact inv.continue (indexes.afterIndex inv.bare (assembles e.allocated))

/-- A carry has ended. -/
theorem Inv.settle (inv : e.Inv) {snapshot : ColaSnapshot P} (valid : snapshot.Valid)
    (small : snapshot.admissions ≤ maximum64)
    (tower : Tower snapshot.admissions snapshot.runs.reverse) (credit : Nat) : Inv { e with
      published := snapshot
      job := none
      credit := credit } := by
  refine ⟨inv.bare, valid, small, fun _ => tower, fun j same => ?_⟩
  cases same

theorem Inv.publish (inv : e.Inv) (here : e.job = some j) (stage : j.stage = .publish)
    (performed : e.perform j = .ok e') : e'.Inv := by
  have valid := inv.busy j here
  rw [ColaContinuation.Valid, stage] at valid
  obtain ⟨carries, ⟨node, main, result, native, sources_eq⟩, built⟩ := valid
  rw [perform, stage] at performed
  dsimp only at performed
  rw [result] at performed
  obtain ⟨query, adopted, rest⟩ := bind_eq_ok.mp performed
  have same := adoptPrepared_eq adopted
  subst same
  have newest : ∀ run : ColaRun P, (j.earlier ++ [run]).reverse = run :: j.earlier.reverse :=
    fun _ => List.reverse_append
  have tower := carries.tower_result native main
  rw [← newest] at tower
  have valid : ColaSnapshot.Valid
      ⟨j.head, j.earlier ++ [⟨j.first, j.last, node, main⟩], j.last⟩ := by
    refine ⟨.inl tower, ?_, built, adopted⟩
    rw [newest]
    exact sources_eq
  cases rest
  exact inv.settle valid carries.last_le tower 0

/-- Every action keeps the invariant. -/
theorem Inv.perform (inv : e.Inv) (here : e.job = some j) (performed : e.perform j = .ok e') :
    e'.Inv := by
  cases stage : j.stage with
  | mergeStart => exact inv.mergeStart here stage performed
  | mergeStep => exact inv.mergeStep here stage performed
  | mergeFinish => exact inv.mergeFinish here stage performed
  | indexStart => exact inv.indexStart here stage performed
  | indexStep => exact inv.indexStep here stage performed
  | indexFinish => exact inv.indexFinish here stage performed
  | publish => exact inv.publish here stage performed

/-! ## Admissions -/

/-- A writer of one record gives an array of that record. -/
theorem singleton_ok {record : ProfileRecord} {opened written closed : NativeWriter}
    {frames : List Frame} {array : NativeArray P} (started : NativeWriter.start P = .ok opened)
    (appended : opened.append P record = .ok written)
    (finished : written.finish = .ok (closed, frames))
    (adopted : NativeArray.fromOwned P frames = .ok array) :
    array.size = 1 ∧ array.ValidValues := by
  obtain ⟨output, opens, rest⟩ := bind_eq_ok.mp started
  cases rest
  obtain ⟨_, -, rest⟩ := bind_eq_ok.mp opens
  obtain ⟨_, -, rest⟩ := bind_eq_ok.mp rest
  cases rest
  obtain ⟨_, -, rest⟩ := bind_eq_ok.mp appended
  obtain ⟨_, aligned, rest⟩ := bind_eq_ok.mp rest
  obtain ⟨_, width, rest⟩ := bind_eq_ok.mp rest
  obtain ⟨_, -, rest⟩ := bind_eq_ok.mp rest
  obtain ⟨output, wrote, rest⟩ := bind_eq_ok.mp rest
  cases rest
  obtain ⟨_, -, rest⟩ := bind_eq_ok.mp wrote
  obtain ⟨_, -, rest⟩ := bind_eq_ok.mp rest
  obtain ⟨_, -, rest⟩ := bind_eq_ok.mp rest
  obtain ⟨_, -, rest⟩ := bind_eq_ok.mp rest
  obtain ⟨_, -, rest⟩ := bind_eq_ok.mp rest
  cases rest
  obtain ⟨_, ends, rest⟩ := bind_eq_ok.mp finished
  cases rest
  obtain ⟨_, -, rest⟩ := bind_eq_ok.mp ends
  cases rest
  unfold NativeArray.fromOwned at adopted
  dsimp only at adopted
  split_ifs at adopted with native
  cases adopted
  refine ⟨rfl, fun found member => ?_⟩
  cases List.mem_singleton.mp member
  exact ⟨(require_eq_ok.mp aligned).2, require_eq_ok.mp width⟩

theorem indexAll_ok {native : Shared (NativeArray P)} {target : MainPointer P} (fuel : Nat)
    {count : Nat} {builder builder' : ColaIndexBuilder P}
    (ongoing : builder.Ongoing native target none count)
    (enough : ColaIndexBuilder.extent native target none - count < fuel)
    (indexed : indexAll fuel e builder = .ok (e', builder')) : e.Counts e' ∧
      builder'.Ongoing native target none (ColaIndexBuilder.extent native target none) := by
  induction fuel generalizing e builder count with
  | zero => omega
  | succ fuel induction =>
      rw [indexAll] at indexed
      split_ifs at indexed with done
      · cases indexed
        rw [ongoing.done_iff] at done
        exact ⟨.refl _, done ▸ ongoing⟩
      · rw [ongoing.done_iff] at done
        have left := lt_of_le_of_ne ongoing.count_le done
        obtain ⟨next, stepped, after⟩ := ongoing.step_ok left
        obtain ⟨e₁, first, indexed⟩ := bind_eq_ok.mp indexed
        obtain ⟨e₂, second, indexed⟩ := bind_eq_ok.mp indexed
        obtain ⟨e₃, third, indexed⟩ := bind_eq_ok.mp indexed
        rw [stepped, ok_bind] at indexed
        obtain ⟨counts, complete⟩ := induction after (by omega) indexed
        exact ⟨(((direct_counts first).trans (direct_counts second)).trans
          (direct_counts third)).trans counts, complete⟩

theorem immediateIndex_ok {native : Shared (NativeArray P)} {target : MainPointer P}
    {node : Shared (ColaIndex P)} (built : target.Built)
    (indexed : e.immediateIndex native target = .ok (e', node)) :
    e.Counts e' ∧ MainPointer.Assembles (node :: target) native target none := by
  obtain ⟨e₁, first, indexed⟩ := bind_eq_ok.mp indexed
  obtain ⟨builder, started, indexed⟩ := bind_eq_ok.mp indexed
  obtain ⟨opened, opens, ongoing⟩ := ColaIndexBuilder.start_ongoing built
    (ColaIndexBuilder.fits_of_start started)
  rw [started] at opens
  cases opens
  obtain ⟨⟨e₂, complete⟩, stepped, indexed⟩ := bind_eq_ok.mp indexed
  obtain ⟨counts, whole⟩ := indexAll_ok _ ongoing (by omega) stepped
  obtain ⟨entries, -, indexed⟩ := bind_eq_ok.mp indexed
  obtain ⟨e₃, second, indexed⟩ := bind_eq_ok.mp indexed
  obtain ⟨e₄, third, indexed⟩ := bind_eq_ok.mp indexed
  obtain ⟨closed, index, finished, -, assembles⟩ := whole.finish_ok rfl
  rw [finished, ok_bind] at indexed
  cases indexed
  have shared : e₄.Counts { e₄ with allocated := e₄.allocated + 1 } :=
    ⟨e₄.allocated + 1, e₄.charged, e₄.granted, e₄.credit, rfl⟩
  exact ⟨((((direct_counts first).trans counts).trans (direct_counts second)).trans
    (direct_counts third)).trans shared, assembles _⟩

/-- A carry is started unless the runs are settled. -/
theorem carry_inv (bare : e.empty.value.size = 0) (valid : e.published.Valid)
    (small : e.published.admissions ≤ maximum64) (idle : e.job = none)
    (carried : e.carry = .ok e') : e'.Inv := by
  unfold carry at carried
  split_ifs at carried with settled
  · cases carried
    exact ⟨bare, valid, small, fun _ => valid.frontier.settled settled,
      fun j busy => by rw [idle] at busy; cases busy⟩
  · obtain ⟨entries, -, carried⟩ := bind_eq_ok.mp carried
    obtain ⟨e₁, charged, carried⟩ := bind_eq_ok.mp carried
    obtain ⟨j, started, carried⟩ := bind_eq_ok.mp carried
    cases carried
    obtain ⟨allocated, total, granted, credit, rfl⟩ := direct_counts charged
    have continues : j.Valid e.empty :=
      ColaContinuation.start_ok valid small (Bool.eq_false_of_not_eq_true settled) started
    exact ⟨bare, valid, small, nofun, fun _ same => Option.some.inj same ▸ continues⟩

/-- An admission adds a run of one record over the previous head. -/
theorem Inv.admission (inv : e.Inv) (idle : e.job = none) {record : ProfileRecord}
    (admitted : e.admitRecord record = .ok e') : e'.Inv := by
  have tower := inv.idle idle
  obtain ⟨e₁, first, admitted⟩ := bind_eq_ok.mp admitted
  obtain ⟨opened, started, admitted⟩ := bind_eq_ok.mp admitted
  obtain ⟨e₂, second, admitted⟩ := bind_eq_ok.mp admitted
  obtain ⟨written, appended, admitted⟩ := bind_eq_ok.mp admitted
  obtain ⟨e₃, third, admitted⟩ := bind_eq_ok.mp admitted
  obtain ⟨⟨closed, frames⟩, finished, admitted⟩ := bind_eq_ok.mp admitted
  obtain ⟨array, adopted, admitted⟩ := bind_eq_ok.mp admitted
  obtain ⟨⟨e₄, node⟩, indexed, admitted⟩ := bind_eq_ok.mp admitted
  obtain ⟨next, counted, admitted⟩ := bind_eq_ok.mp admitted
  obtain ⟨_, -, admitted⟩ := bind_eq_ok.mp admitted
  obtain ⟨entries, -, admitted⟩ := bind_eq_ok.mp admitted
  obtain ⟨e₅, fifth, admitted⟩ := bind_eq_ok.mp admitted
  obtain ⟨query, prepared, admitted⟩ := bind_eq_ok.mp admitted
  have direct := ((direct_counts first).trans (direct_counts second)).trans (direct_counts third)
  obtain ⟨allocated, charged, granted, credit, rfl⟩ := direct
  obtain ⟨size, valid⟩ := singleton_ok started appended finished adopted
  obtain ⟨counts, assembles⟩ := immediateIndex_ok inv.published.built indexed
  obtain ⟨_, _, _, _, rfl⟩ := counts
  obtain ⟨_, _, _, _, rfl⟩ := direct_counts fifth
  have same := adoptPrepared_eq prepared
  subst same
  unfold ProfileDetail.add at counted
  split_ifs at counted with small
  cases counted
  obtain ⟨address, index, shape, native_eq, -, -⟩ := assembles.shape
  cases shape
  have native_size : index.native.value.size = 1 := by
    rw [native_eq]
    exact size
  set run : ColaRun P := ⟨e.published.admissions, e.published.admissions + 1, ⟨address, index⟩,
    e.published.query⟩ with run_eq
  have mass : run.mass = 1 := Nat.add_sub_cancel_left ..
  have sound : run.Sound := by
    refine ⟨Nat.lt_succ_self _, ⟨0, mass⟩, ?_, ?_, ?_⟩
    · exact native_size ▸ Nat.one_pos
    · exact mass ▸ native_size.le
    · change index.native.value.ValidValues
      rw [native_eq]
      exact valid
  have newest : (e.published.runs ++ [run]).reverse = run :: e.published.runs.reverse :=
    List.reverse_append
  have frontier := tower.admission sound rfl mass
  rw [← newest] at frontier
  have admits : ColaSnapshot.Valid ⟨run.pointer, e.published.runs ++ [run], run.last⟩ := by
    refine ⟨frontier, ?_, assembles.built, prepared⟩
    rw [newest, List.map_cons, ← inv.published.sources_eq]
    exact sources_cons (ne_of_eq_of_ne native_size Nat.one_ne_zero)
  refine carry_inv ?_ ?_ ?_ ?_ admitted
  · exact inv.bare
  · exact admits
  · exact small
  · exact idle

/-! ## Service -/

theorem Inv.serveLoop (inv : e.Inv) {fuel : Nat} (served : serveLoop fuel e = .ok e') :
    e'.Inv := by
  induction fuel generalizing e with
  | zero =>
      cases served
      exact inv
  | succ fuel induction =>
      rw [ColaRuntime.serveLoop] at served
      split at served
      · cases served
        exact inv
      · next j here =>
          obtain ⟨amount, -, served⟩ := bind_eq_ok.mp served
          split_ifs at served
          · cases served
            exact inv
          · obtain ⟨charged, charge, served⟩ := bind_eq_ok.mp served
            obtain ⟨performed, perform, served⟩ := bind_eq_ok.mp served
            have counts := charge_counts charge
            have kept := inv.counts counts
            have still : charged.job = some j := by
              obtain ⟨_, _, _, _, rfl⟩ := counts
              exact here
            exact induction (kept.perform still perform) served

theorem price_pos {amount : Nat} (priced : price j = .ok amount) : 0 < amount := by
  have sum : ∀ {a b : Nat}, 0 < b → ProfileDetail.add a b = .ok amount → 0 < amount := by
    intro a b positive added
    unfold ProfileDetail.add at added
    split_ifs at added
    cases added
    omega
  unfold price at priced
  split at priced
  · cases priced
    decide
  · cases priced
    decide
  · obtain ⟨merge, -, added⟩ := bind_eq_ok.mp priced
    exact sum (by decide) added
  · cases priced
    decide
  · exact sum (by decide) priced
  · exact sum (by decide) priced
  · obtain ⟨entries, -, added⟩ := bind_eq_ok.mp priced
    exact sum (by decide) added

/-- No action earns credit. -/
theorem perform_credit (performed : e.perform j = .ok e') : e'.credit ≤ e.credit := by
  unfold ColaRuntime.perform at performed
  split at performed
  · obtain ⟨_, -, rest⟩ := bind_eq_ok.mp performed
    cases rest
    exact le_rfl
  · obtain ⟨_, -, rest⟩ := bind_eq_ok.mp performed
    obtain ⟨_, -, rest⟩ := bind_eq_ok.mp rest
    cases rest
    exact le_rfl
  · obtain ⟨_, -, rest⟩ := bind_eq_ok.mp performed
    obtain ⟨_, -, rest⟩ := bind_eq_ok.mp rest
    obtain ⟨_, -, rest⟩ := bind_eq_ok.mp rest
    cases rest
    exact le_rfl
  · obtain ⟨_, -, rest⟩ := bind_eq_ok.mp performed
    cases rest
    exact le_rfl
  · obtain ⟨_, -, rest⟩ := bind_eq_ok.mp performed
    obtain ⟨_, -, rest⟩ := bind_eq_ok.mp rest
    cases rest
    exact le_rfl
  · obtain ⟨_, -, rest⟩ := bind_eq_ok.mp performed
    obtain ⟨_, -, rest⟩ := bind_eq_ok.mp rest
    cases rest
    exact le_rfl
  · split at performed
    · cases performed
    · obtain ⟨_, -, rest⟩ := bind_eq_ok.mp performed
      cases rest
      exact Nat.zero_le _

/-- Service ends with no carry, or with too little credit for its next action. -/
theorem serveLoop_exhausts {fuel : Nat} (enough : e.credit < fuel)
    (served : serveLoop fuel e = .ok e') : e'.job = none ∨ ∃ j amount, e'.job = some j ∧
      price j = .ok amount ∧ e'.credit < amount := by
  induction fuel generalizing e with
  | zero => omega
  | succ fuel induction =>
      rw [serveLoop] at served
      split at served
      · next idle =>
          cases served
          exact .inl idle
      · next j here =>
          obtain ⟨amount, priced, served⟩ := bind_eq_ok.mp served
          split_ifs at served with poor
          · cases served
            exact .inr ⟨j, amount, here, priced, poor⟩
          · obtain ⟨charged, charge, served⟩ := bind_eq_ok.mp served
            obtain ⟨performed, perform, served⟩ := bind_eq_ok.mp served
            have positive := price_pos priced
            have spent : charged.credit = e.credit - amount := by
              obtain ⟨_, -, charge⟩ := bind_eq_ok.mp charge
              cases charge
              rfl
            have fewer := perform_credit perform
            exact induction (by omega) served

theorem Inv.drain (inv : e.Inv) {turns : Nat} (drained : e.drain turns = some (.ok e')) :
    e'.Inv ∧ e'.job = none := by
  induction turns generalizing e with
  | zero => cases drained
  | succ turns induction =>
      rw [ColaRuntime.drain] at drained
      split at drained
      · next idle =>
          cases drained
          exact ⟨inv, idle⟩
      · next j here =>
          split at drained
          · next turned =>
              obtain ⟨amount, -, turned⟩ := bind_eq_ok.mp turned
              obtain ⟨granted, grants, served⟩ := bind_eq_ok.mp turned
              have kept : granted.Inv := by
                unfold afford at grants
                split_ifs at grants
                · exact inv.counts (grant_counts grants)
                · cases grants
                  exact inv
              exact induction (kept.serveLoop served) drained
          · cases drained

theorem Inv.admitServed (inv : e.Inv) (idle : e.job = none) {record : ProfileRecord}
    {serviceBudget : Nat} (admitted : e.admitServed record serviceBudget = .ok e') : e'.Inv := by
  obtain ⟨middle, admits, served⟩ := bind_eq_ok.mp admitted
  have kept := inv.admission idle admits
  split_ifs at served
  · obtain ⟨granted, grants, served⟩ := bind_eq_ok.mp served
    exact (kept.counts (grant_counts grants)).serveLoop served
  · cases served
    exact kept

theorem Inv.admitAll (inv : e.Inv) {turns serviceBudget : Nat} {records : List ProfileRecord}
    (admitted : admitAll turns serviceBudget records e = some (.ok e')) : e'.Inv := by
  induction records generalizing e with
  | nil =>
      cases admitted
      exact inv
  | cons record records induction =>
      rw [ColaRuntime.admitAll] at admitted
      split at admitted
      · cases admitted
      · cases admitted
      · next drained =>
          obtain ⟨kept, idle⟩ := inv.drain drained
          split at admitted
          · cases admitted
          · next served => exact induction (kept.admitServed idle served) admitted

theorem Inv.poison (inv : e.Inv) : e.poison.Inv :=
  ⟨inv.bare, inv.published, inv.small, inv.idle, inv.busy⟩

/-! ## Calls -/

theorem Inv.contribute (inv : e.Inv) {records : List ProfileRecord} {serviceBudget turns : Nat}
    {answer : Result (ColaSnapshot P)}
    (called : e.contribute records serviceBudget turns = some (answer, e')) : e'.Inv := by
  unfold ColaRuntime.contribute at called
  split_ifs at called
  · cases called
    exact inv
  · split at called
    · cases called
      exact inv
    · split at called
      · cases called
      · cases called
        exact inv.poison
      · next admitted =>
          cases called
          exact inv.admitAll admitted

theorem Inv.tryContribute (inv : e.Inv) {record : ProfileRecord} {serviceBudget turns : Nat}
    {answer : Result (Option (ColaSnapshot P))}
    (called : e.tryContribute record serviceBudget turns = some (answer, e')) : e'.Inv := by
  unfold ColaRuntime.tryContribute at called
  split_ifs at called
  · cases called
    exact inv
  · cases called
    exact inv
  · obtain ⟨⟨_, next⟩, contributed, same⟩ := Option.map_eq_some_iff.mp called
    cases same
    exact inv.contribute contributed

theorem Inv.advance (inv : e.Inv) (budget : Nat) : (e.advance budget).2.Inv := by
  unfold ColaRuntime.advance
  split_ifs
  · exact inv
  · exact inv
  · split
    · exact inv.poison
    · next served =>
        obtain ⟨granted, grants, served⟩ := bind_eq_ok.mp served
        exact (inv.counts (grant_counts grants)).serveLoop served

/-- A fresh executor. -/
theorem start_inv {composition : Composition P} (started : start composition = .ok e) : e.Inv := by
  obtain ⟨builder, opened, started⟩ := bind_eq_ok.mp started
  obtain ⟨⟨closed, index⟩, finished, started⟩ := bind_eq_ok.mp started
  obtain ⟨query, prepared, started⟩ := bind_eq_ok.mp started
  obtain ⟨e₁, first, started⟩ := bind_eq_ok.mp started
  obtain ⟨e₂, second, started⟩ := bind_eq_ok.mp started
  have counts := ((direct_counts first).trans (direct_counts second)).trans
    (direct_counts started)
  have same := adoptPrepared_eq prepared
  subst same
  obtain ⟨opens, open_eq, ongoing⟩ := ColaIndexBuilder.start_ongoing MainPointer.Built.null
    (ColaIndexBuilder.fits_of_start opened)
  rw [opened] at open_eq
  cases open_eq
  obtain ⟨_, _, finishes, -, assembles⟩ := ongoing.finish_ok rfl
  rw [finished] at finishes
  cases finishes
  obtain ⟨_, _, shape, native_eq, -, -⟩ := (assembles 1).shape
  cases shape
  have routes : index.native.value.size = 0 := by
    rw [native_eq]
    rfl
  refine Inv.counts ?_ counts
  refine ⟨rfl, ⟨.inl rfl, sources_routing routes, (assembles 1).built, prepared⟩, Nat.zero_le _,
    fun _ => rfl, fun j busy => ?_⟩
  cases busy

/-- An executor over a snapshot of another. -/
theorem Inv.fromSnapshot (inv : e.Inv) {allocated : Nat} {composition : Composition P}
    (resumed : fromSnapshot allocated e.published composition = .ok e') : e'.Inv := by
  obtain ⟨e₁, first, resumed⟩ := bind_eq_ok.mp resumed
  obtain ⟨e₂, second, resumed⟩ := bind_eq_ok.mp resumed
  obtain ⟨_, _, _, _, rfl⟩ := (direct_counts first).trans (direct_counts second)
  refine carry_inv ?_ ?_ ?_ ?_ resumed
  · rfl
  · exact inv.published
  · exact inv.small
  · rfl

end ColaRuntime

end Everett

import Everett.Session.Invariant

/-!
# The protocol of a session

Every step keeps the invariant, so it holds of every session which an interleaving of clients with
the worker can lead to.
-/

namespace Everett

open Session

variable {W X : Type} {s t : Session W X} {id : Nat}

namespace Session

/-! ## Phases and outcomes after a step -/

theorem phases_onRequest (f : SessionRequest W X → SessionRequest W X) :
    (s.onRequest id f).phases = Function.update s.phases id (f (s.requests id)).phase := by
  funext other
  by_cases same : other = id <;> simp [phases, onRequest, same]

theorem outcomes_onRequest (f : SessionRequest W X → SessionRequest W X) :
    (s.onRequest id f).outcomes = Function.update s.outcomes id (f (s.requests id)).outcomes := by
  funext other
  by_cases same : other = id <;> simp [outcomes, onRequest, same]

theorem phases_move (phase : RequestPhase) :
    (s.move id phase).phases = Function.update s.phases id phase := phases_onRequest _

theorem outcomes_move (phase : RequestPhase) : (s.move id phase).outcomes = s.outcomes := by
  rw [move, outcomes_onRequest]
  exact Function.update_eq_self id s.outcomes

theorem phases_resolve (outcome : TicketOutcome W X) :
    (s.resolve id outcome).phases = Function.update s.phases id .resolved := phases_onRequest _

theorem outcomes_resolve (outcome : TicketOutcome W X) :
    (s.resolve id outcome).outcomes =
      Function.update s.outcomes id (s.outcomes id ++ [outcome]) := outcomes_onRequest _

theorem phases_admission (charge : SessionReservation) :
    (s.admission charge).phases = Function.update s.phases s.made .constructing := by
  funext other
  by_cases same : other = s.made <;> simp [phases, admission, same]

theorem outcomes_admission (charge : SessionReservation) :
    (s.admission charge).outcomes = Function.update s.outcomes s.made [] := by
  funext other
  by_cases same : other = s.made <;> simp [outcomes, admission, same]

theorem outcomes_fail (active : Option Nat) (error : SessionError X) :
    (s.fail active error).outcomes = s.outcomes := by
  funext other
  simp only [outcomes, fail]
  split_ifs <;> rfl

theorem phases_fail (active : Option Nat) (error : SessionError X) :
    (s.fail active error).phases =
      fun id => if id ∈ active.toList ++ s.queue then .abandoned else s.phases id := by
  funext other
  simp only [phases, fail]
  split_ifs <;> rfl

/-! ## Steps of requests -/

/-- A request which holds a charge counts. -/
theorem Accounts.positive (accounts : s.Accounts) (within : id < s.made)
    (holds : (s.requests id).phase.holds = true) : 0 < s.count := by
  have member : id ∈ Finset.range s.made := Finset.mem_range.mpr within
  rw [accounts.count, held, ← Finset.sum_erase_add _ _ member, holds, if_pos rfl]
  exact Nat.succ_pos _

/-- No request holds a charge in a finished session. -/
theorem Inv.unfinished (inv : s.Inv) (within : id < s.made)
    (holds : (s.requests id).phase.holds = true) : s.worker ≠ .finished := by
  intro finished
  have empty := inv.ended.finished finished
  have positive := inv.accounts.positive within holds
  omega

/-- A request outside the queue moves on and keeps its charge. -/
theorem Inv.move (inv : s.Inv) {new : RequestPhase} (before : Unqueued (s.phases id))
    (after : Unqueued new) (holds : new.holds = (s.phases id).holds) : (s.move id new).Inv := by
  have before_told : s.phases id ≠ .resolved := by
    intro resolved
    rw [resolved] at before
    rcases before with h | h | h | h <;> cases h
  have after_told : new ≠ .resolved := by
    rintro rfl
    rcases after with h | h | h | h <;> cases h
  refine ⟨inv.accounts.same (.move holds), ?_, ?_, ?_, inv.ended⟩
  · rw [phases_move]
    exact inv.located.move before after
  · rw [phases_move, outcomes_move]
    exact inv.told.move before_told after_told
  · rw [outcomes_move]
    exact inv.recorded

theorem Inv.admission (inv : s.Inv) {charge : SessionReservation} (opened : s.closing = false) (room : s.fits charge = true) : (s.admission charge).Inv := by
  have unfinished : s.worker ≠ .finished := by
    intro finished
    have closing := inv.ended.closing (.inr finished)
    rw [opened] at closing
    cases closing
  refine ⟨inv.accounts.admission room, ?_, ?_, ?_, ?_⟩
  · rw [phases_admission]
    exact inv.located.admission
  · rw [phases_admission, outcomes_admission]
    exact inv.told.admission
  · rw [outcomes_admission]
    refine inv.recorded.tell fun other executed outcome told => ?_
    have within : other < s.made :=
      ((inv.located.accepted_iff other).mp
        (inv.located.order.subset (List.mem_append_left _ executed))).1
    rwa [Function.update_of_ne within.ne]
  · exact { inv.ended with
      finished := fun finished => absurd finished unfinished }

/-- A submission reserves its charge, or changes nothing. -/
theorem reserve_cases (s : Session W X) (charge : SessionReservation) (wait : Bool) :
    (s.reserve charge wait).2 = s ∨
      s.closing = false ∧ s.fits charge = true ∧ (s.reserve charge wait).2 = s.admission charge := by
  unfold Session.reserve
  by_cases oversized : s.limits.work < charge.work ∨ s.limits.bytes < charge.bytes
  · rw [if_pos oversized]
    exact .inl rfl
  rw [if_neg oversized]
  cases s.failure with
  | some error => exact .inl rfl
  | none =>
      by_cases closing : s.closing = true
      · simp [closing]
      by_cases room : s.fits charge = true
      · simp [closing, room]
      · simp [closing, room]

theorem Inv.reserve (inv : s.Inv) (charge : SessionReservation) (wait : Bool) :
    (s.reserve charge wait).2.Inv := by
  rcases reserve_cases s charge wait with same | ⟨opened, room, admitted⟩
  · rwa [same]
  · rw [admitted]
    exact inv.admission opened room

theorem Inv.push (inv : s.Inv) (within : id < s.made)
    (here : (s.requests id).phase = .constructed) : (s.push id).Inv := by
  have here' : s.phases id = .constructed := here
  unfold Session.push
  split_ifs with failed
  · exact inv.move (.inr (.inl here)) (.inr (.inr (.inl rfl))) (by rw [here']; rfl)
  have same : SameAccounts s (s.move id .queued) := .move (by rw [here]; rfl)
  have alive : s.failure = none := by simpa using failed
  refine ⟨(inv.accounts.same same).same ⟨rfl, rfl, rfl, rfl, fun _ => rfl, fun _ => rfl⟩, ?_, ?_,
    ?_, ?_⟩
  · change Located _ (s.move id .queued).phases _ _ _ _ _
    rw [phases_move]
    exact inv.located.push within here
  · change Told _ (s.move id .queued).phases (s.move id .queued).outcomes _ _ _
    rw [phases_move, outcomes_move]
    exact inv.told.move (by rw [here']; decide) (by decide)
  · change Recorded _ _ _ _ (s.move id .queued).outcomes
    rw [outcomes_move]
    exact inv.recorded
  · exact { inv.ended with
      queue := fun failed => by
        change s.failure.isSome = true at failed
        rw [alive] at failed
        cases failed }

theorem Inv.refund (inv : s.Inv) (within : id < s.made)
    (here : (s.requests id).phase = .refunding) : (s.refund id).Inv := by
  have here' : s.phases id = .refunding := here
  have holds : (s.requests id).phase.holds = true := by rw [here]; rfl
  refine ⟨inv.accounts.release within holds rfl rfl ?_ ?_ rfl rfl, ?_, ?_, ?_, ?_⟩
  · simp [Session.refund, unreserve, Session.move, onRequest, RequestPhase.holds]
  · intro other elsewhere
    simp [Session.refund, unreserve, Session.move, onRequest, elsewhere]
  · change Located _ (s.move id .dropped).phases _ _ _ _ _
    rw [phases_move]
    exact inv.located.move (.inr (.inr (.inl here))) (.inr (.inr (.inr rfl)))
  · change Told _ (s.move id .dropped).phases (s.move id .dropped).outcomes _ _ _
    rw [phases_move, outcomes_move]
    exact inv.told.move (by rw [here']; decide) (by decide)
  · change Recorded _ _ _ _ (s.move id .dropped).outcomes
    rw [outcomes_move]
    exact inv.recorded
  · exact ⟨inv.ended.closing, inv.ended.queue, inv.ended.failing, inv.ended.abandoning,
      fun finished => absurd finished (inv.unfinished within holds)⟩

theorem Inv.cancel (inv : s.Inv) (id : Nat) : (s.cancel id).2.Inv := by
  unfold Session.cancel
  split_ifs with member
  swap
  · exact inv
  obtain ⟨within, here⟩ := (inv.located.queued id).mp member
  have same : SameAccounts s (s.move id .cancelling) := .move (by
    change _ = (s.phases id).holds
    rw [here]; rfl)
  refine ⟨(inv.accounts.same same).same ⟨rfl, rfl, rfl, rfl, fun _ => rfl, fun _ => rfl⟩, ?_, ?_,
    ?_, ?_⟩
  · change Located _ (s.move id .cancelling).phases _ _ _ _ _
    rw [phases_move]
    exact inv.located.cancel member
  · change Told _ (s.move id .cancelling).phases (s.move id .cancelling).outcomes _ _ _
    rw [phases_move, outcomes_move]
    exact inv.told.move (by rw [here]; decide) (by decide)
  · change Recorded _ _ _ _ (s.move id .cancelling).outcomes
    rw [outcomes_move]
    exact inv.recorded
  · exact { inv.ended with
      queue := fun failed => by
        change s.queue.erase id = []
        rw [inv.ended.queue failed]
        rfl }

/-- A request is resolved and its charge refunded, and the worker goes on. -/
theorem Inv.conclude (inv : s.Inv) {outcome : TicketOutcome W X} (within : id < s.made)
    (holds : (s.requests id).phase.holds = true)
    (truthful : Truthful s.published s.executed s.failure id outcome)
    {new : SessionWorker W X}
    (located : Located s.made (Function.update s.phases id .resolved) s.queue new.remaining
      s.accepted s.executed new.active)
    (recorded : Recorded new s.current s.published s.executed
      (Function.update s.outcomes id (s.outcomes id ++ [outcome])))
    (ended : Ended new s.failure s.closing s.queue (sub64 s.count 1)) :
    (((s.resolve id outcome).unreserve (s.requests id).charge).goto new).Inv := by
  have unresolved : s.phases id ≠ .resolved := by
    intro resolved
    change (s.phases id).holds = true at holds
    rw [resolved] at holds
    cases holds
  refine ⟨inv.accounts.release within holds rfl rfl ?_ ?_ rfl rfl, ?_, ?_, ?_, ended⟩
  · simp [Session.goto, unreserve, Session.resolve, onRequest, RequestPhase.holds]
  · intro other elsewhere
    simp [Session.goto, unreserve, Session.resolve, onRequest, elsewhere]
  · change Located _ (s.resolve id outcome).phases _ _ _ _ _
    rw [phases_resolve]
    exact located
  · change Told _ (s.resolve id outcome).phases (s.resolve id outcome).outcomes _ _ _
    rw [phases_resolve, outcomes_resolve]
    exact inv.told.resolve within unresolved truthful
  · change Recorded _ _ _ _ (s.resolve id outcome).outcomes
    rw [outcomes_resolve]
    exact recorded

/-! ## Steps of the worker -/

/-- The worker goes on with its request. -/
theorem Inv.goto (inv : s.Inv) {new : SessionWorker W X} (before : s.worker.running = true)
    (after : new.running = true) (quiet : s.worker.quiet = true) (quiet' : new.quiet = true)
    (active : new.active = s.worker.active) : (s.goto new).Inv := by
  have located : Located s.made s.phases s.queue new.remaining s.accepted s.executed new.active := by
    rw [SessionWorker.remaining_running after, active,
      ← SessionWorker.remaining_running before]
    exact inv.located
  exact ⟨inv.accounts.same (.goto new), located, inv.told,
    inv.recorded.goto (SessionWorker.not_settles quiet) (SessionWorker.not_settles quiet')
      fun id is_active => by rwa [← active],
    inv.ended.goto before after _ _⟩

/-- A session which is closed and empty ends. -/
theorem Inv.finish (inv : s.Inv) (idle : s.worker.active = none) (quiet : s.worker.quiet = true)
    (nothing : s.worker.remaining = []) (closed : s.closing = true) (empty : s.count = 0) :
    (s.goto .finished).Inv := by
  have located : Located s.made s.phases s.queue [] s.accepted s.executed none := by
    rw [← nothing, ← idle]
    exact inv.located
  refine ⟨inv.accounts.same (.goto _), located, inv.told,
    inv.recorded.goto (SessionWorker.not_settles quiet) (SessionWorker.not_settles rfl)
      (fun id is_active => by cases is_active), ?_⟩
  exact ⟨fun _ => closed, inv.ended.queue, fun _ => .inl rfl, nofun, fun _ => empty⟩

theorem Inv.decide (inv : s.Inv) {pending : Bool} (ready : Except X Bool)
    (here : s.worker = .deciding pending) : (s.decide pending ready).Inv := by
  have goto : ∀ {new : SessionWorker W X}, new.running = true → new.quiet = true →
      new.active = none → (s.goto new).Inv := fun running quiet idle =>
    inv.goto (by rw [here]; rfl) running (by rw [here]; rfl) quiet (by rw [here, idle]; rfl)
  unfold Session.decide
  cases ready with
  | error error => exact goto rfl rfl rfl
  | ok ready =>
      dsimp only
      split_ifs
      · exact goto rfl rfl rfl
      · exact goto rfl rfl rfl

/-- The worker takes the oldest request from the queue. -/
theorem Inv.take (inv : s.Inv) {pending ready : Bool} {rest : List Nat}
    (here : s.worker = .waiting pending ready) (front : s.queue = id :: rest) :
    ({ s.move id .claimed with
        queue := rest
        executed := s.executed ++ [id]
        worker := .executing id } : Session W X).Inv := by
  obtain ⟨accounts, located, told, recorded, ended⟩ := inv
  rw [here, front] at located
  rw [here] at recorded ended
  obtain ⟨within, queued⟩ := (located.queued id).mp List.mem_cons_self
  have same : SameAccounts s (s.move id .claimed) := .move (by
    change _ = (s.phases id).holds
    rw [queued]; rfl)
  refine ⟨(accounts.same same).same ⟨rfl, rfl, rfl, rfl, fun _ => rfl, fun _ => rfl⟩, ?_, ?_, ?_,
    ended.goto rfl rfl _ _⟩
  · change Located _ (s.move id .claimed).phases _ _ _ _ _
    rw [phases_move]
    exact located.claim
  · change Told _ (s.move id .claimed).phases (s.move id .claimed).outcomes _ _ _
    rw [phases_move, outcomes_move]
    exact told.claim queued
  · change Recorded _ _ _ _ (s.move id .claimed).outcomes
    rw [outcomes_move]
    exact recorded.claim (SessionWorker.not_settles rfl) id

theorem Inv.claim (inv : s.Inv) {pending ready : Bool} (here : s.worker = .waiting pending ready) :
    (s.claim ready).Inv := by
  unfold Session.claim
  split
  · next front => exact inv.take here front
  · split_ifs with drained
    · exact inv.finish (by rw [here]; rfl) (by rw [here]; rfl) (by rw [here]; rfl) drained.1 drained.2
    · exact inv.goto (by rw [here]; rfl) rfl (by rw [here]; rfl) rfl (by rw [here]; rfl)

theorem Inv.contribute (inv : s.Inv) (result : Except X W) (certified : Bool)
    (here : s.worker = .executing id) : (s.contribute id result certified).Inv := by
  have goto : ∀ {new : SessionWorker W X}, new.running = true → new.quiet = true →
      new.active = some id → (s.goto new).Inv := fun running quiet active =>
    inv.goto (by rw [here]; rfl) running (by rw [here]; rfl) quiet (by rw [here, active]; rfl)
  unfold Session.contribute
  cases result with
  | ok world => exact goto rfl rfl rfl
  | error error =>
      dsimp only
      split_ifs
      · exact goto rfl rfl rfl
      · exact goto rfl rfl rfl

/-- The publication after the current one. -/
theorem next_ok {world : W} {contribution : Bool} {candidate : SessionPublication W}
    (result : s.next world contribution = .ok candidate) :
    candidate.revision = s.current.revision + 1 ∧
    candidate.generation = s.current.generation + contribution.toNat ∧
    candidate.logical = s.current.logical + contribution.toNat := by
  unfold next at result
  split at result
  · cases result
  · cases result
    cases contribution <;> simp

theorem Inv.produce (inv : s.Inv) {world : W} (pending : Except X Bool)
    (here : s.worker = .producing id world) : (s.produce id world pending).Inv := by
  have failing : ∀ error, (s.goto (.failing (some id) error)).Inv := fun error =>
    inv.goto (by rw [here]; rfl) rfl (by rw [here]; rfl) rfl (by rw [here]; rfl)
  unfold Session.produce
  cases candidate_eq : s.next world true with
  | error error => exact failing error
  | ok candidate =>
      cases pending with
      | error error => exact failing _
      | ok pending =>
          obtain ⟨revision, generation, logical⟩ := next_ok candidate_eq
          obtain ⟨accounts, located, told, recorded, ended⟩ := inv
          rw [here] at located recorded ended
          exact ⟨accounts.same ⟨rfl, rfl, rfl, rfl, fun _ => rfl, fun _ => rfl⟩, located,
            told.store _, recorded.produce revision generation logical pending,
            ended.goto rfl rfl _ _⟩

theorem Inv.settle (inv : s.Inv) {publication : SessionPublication W} {pending : Bool}
    (here : s.worker = .settling id publication pending) :
    (s.settle id publication pending).Inv := by
  have located := inv.located
  have recorded := inv.recorded
  have ended := inv.ended
  rw [here] at located recorded ended
  obtain ⟨within, claimed⟩ := (located.claimed id).mp rfl
  have holds : (s.phases id).holds = true := by rw [claimed]; rfl
  have stored : Truthful s.published s.executed s.failure id (.world publication) :=
    recorded.settling id publication ⟨pending, rfl⟩
  exact inv.conclude within holds stored located.resolve recorded.settle (ended.goto rfl rfl _ _)

theorem Inv.decline (inv : s.Inv) {error : SessionError X} (pending : Except X Bool)
    (here : s.worker = .declining id error) : (s.decline id error pending).Inv := by
  have goto : ∀ {new : SessionWorker W X}, new.running = true → new.quiet = true →
      new.active = some id → (s.goto new).Inv := fun running quiet active =>
    inv.goto (by rw [here]; rfl) running (by rw [here]; rfl) quiet (by rw [here, active]; rfl)
  cases pending with
  | error error => exact goto rfl rfl rfl
  | ok pending => exact goto rfl rfl rfl

theorem Inv.reject (inv : s.Inv) {error : SessionError X} {pending : Bool}
    (here : s.worker = .rejecting id error pending) : (s.reject id error pending).Inv := by
  have located := inv.located
  have recorded := inv.recorded
  have ended := inv.ended
  rw [here] at located recorded ended
  obtain ⟨within, claimed⟩ := (located.claimed id).mp rfl
  have holds : (s.phases id).holds = true := by rw [claimed]; rfl
  obtain ⟨front, split, -⟩ := recorded.last id rfl
  have executed : Truthful s.published s.executed s.failure id (.rejected error) := by
    change id ∈ s.executed
    rw [split]
    exact List.mem_append_right _ List.mem_cons_self
  have goto : Recorded (.deciding pending) s.current s.published s.executed s.outcomes :=
    recorded.goto (SessionWorker.not_settles rfl) (SessionWorker.not_settles rfl)
      fun id is_active => by cases is_active
  exact inv.conclude within holds executed located.resolve
    (goto.tell_one id _)
    (ended.goto rfl rfl _ _)

theorem Inv.advance (inv : s.Inv) (result : Except X (Option W))
    (here : s.worker = .maintaining) : (s.advance result).Inv := by
  have goto : ∀ {new : SessionWorker W X}, new.running = true → new.quiet = true →
      new.active = none → (s.goto new).Inv := fun running quiet idle =>
    inv.goto (by rw [here]; rfl) running (by rw [here]; rfl) quiet (by rw [here, idle]; rfl)
  have maintained : (s.goto .maintained).Inv := goto rfl rfl rfl
  match result with
  | .error error =>
      have failing : (s.goto (.failing none (.engine error))).Inv := goto rfl rfl rfl
      exact failing
  | .ok none => exact maintained
  | .ok (some world) =>
      cases candidate_eq : s.next world false with
      | error error =>
          have result_eq : s.advance (.ok (some world)) = s.goto (.failing none error) := by
            simp only [Session.advance, candidate_eq]
          rw [result_eq]
          exact goto rfl rfl rfl
      | ok candidate =>
          have result_eq : s.advance (.ok (some world)) =
              (s.store none candidate).goto .maintained := by
            simp only [Session.advance, candidate_eq]
          rw [result_eq]
          obtain ⟨revision, generation, logical⟩ := next_ok candidate_eq
          obtain ⟨accounts, located, told, recorded, ended⟩ := inv
          rw [here] at located recorded ended
          have stored := recorded.maintain (SessionWorker.not_settles rfl) rfl revision generation
            logical
          have goto : Recorded (.maintained : SessionWorker W X) candidate
              ((none, candidate) :: s.published) s.executed s.outcomes :=
            stored.goto (SessionWorker.not_settles rfl) (SessionWorker.not_settles rfl)
              fun id is_active => by cases is_active
          exact ⟨accounts.same ⟨rfl, rfl, rfl, rfl, fun _ => rfl, fun _ => rfl⟩, located,
            told.store _, goto, ended.goto rfl rfl _ _⟩

theorem Inv.maintain (inv : s.Inv) (pending : Except X Bool) (here : s.worker = .maintained) :
    (s.maintain pending).Inv := by
  have goto : ∀ {new : SessionWorker W X}, new.running = true → new.quiet = true →
      new.active = none → (s.goto new).Inv := fun running quiet idle =>
    inv.goto (by rw [here]; rfl) running (by rw [here]; rfl) quiet (by rw [here, idle]; rfl)
  cases pending with
  | error error => exact goto rfl rfl rfl
  | ok pending => exact goto rfl rfl rfl

theorem Inv.fail (inv : s.Inv) {active : Option Nat} {error : SessionError X}
    (here : s.worker = .failing active error) : (s.fail active error).Inv := by
  obtain ⟨accounts, located, told, recorded, ended⟩ := inv
  rw [here] at located recorded ended
  have alive : s.failure = none := ended.alive rfl
  have affected : ∀ id ∈ active.toList ++ s.queue,
      s.phases id = .queued ∨ s.phases id = .claimed := by
    intro id member
    rcases List.mem_append.mp member with is_active | queued
    · exact .inr ((located.claimed id).mp (Option.mem_toList.mp is_active)).2
    · exact .inl ((located.queued id).mp queued).2
  refine ⟨accounts.same ⟨rfl, rfl, rfl, rfl, fun id => ?_, fun id => ?_⟩, ?_, ?_, ?_, ?_⟩
  · simp only [Session.fail]
    split_ifs <;> rfl
  · change ((s.fail active error).phases id).holds = (s.phases id).holds
    rw [phases_fail]
    dsimp only
    split_ifs with member
    · rcases affected id member with h | h <;> rw [h] <;> rfl
    · rfl
  · rw [phases_fail]
    exact located.fail
  · rw [phases_fail, outcomes_fail]
    rw [alive] at told
    refine told.fail (fun id member => ?_) error
    rcases affected id member with h | h <;> rw [h] <;> decide
  · rw [outcomes_fail]
    exact recorded.goto (SessionWorker.not_settles rfl) (SessionWorker.not_settles rfl)
      fun id is_active => by cases is_active
  · exact ⟨fun _ => rfl, fun _ => rfl, fun _ => .inr ⟨_, _, rfl⟩, fun _ _ same => by
      cases same; rfl, nofun⟩

theorem Inv.abandon (inv : s.Inv) {rest : List Nat} {error : SessionError X}
    (here : s.worker = .abandoning (id :: rest) error) : (s.abandon id rest error).Inv := by
  have located := inv.located
  have recorded := inv.recorded
  have ended := inv.ended
  rw [here] at located recorded ended
  obtain ⟨within, abandoned⟩ := (located.abandoned id).mp List.mem_cons_self
  have holds : (s.phases id).holds = true := by rw [abandoned]; rfl
  have failed := ended.abandoning _ _ rfl
  have truthful : Truthful s.published s.executed s.failure id (.failed error) := failed
  have goto : Recorded (.abandoning rest error) s.current s.published s.executed s.outcomes :=
    recorded.goto (SessionWorker.not_settles rfl) (SessionWorker.not_settles rfl)
      fun id is_active => by cases is_active
  refine inv.conclude within holds truthful located.abandon (goto.tell_one id _) ?_
  exact ⟨fun _ => ended.closing (.inl (by rw [failed]; rfl)), ended.queue,
    fun _ => .inr ⟨_, _, rfl⟩, fun _ _ same => by cases same; exact failed, nofun⟩

theorem Inv.cancelled (inv : s.Inv) (within : id < s.made)
    (here : (s.requests id).phase = .cancelling) : (s.cancelled id).Inv := by
  have cancelling : s.phases id = .cancelling := here
  have holds : (s.requests id).phase.holds = true := by rw [here]; rfl
  have truthful : Truthful s.published s.executed s.failure id .cancelled := by
    intro executed
    rcases inv.located.executed_phase id executed with h | h | h <;> rw [cancelling] at h <;> cases h
  exact inv.conclude within holds truthful (inv.located.cancelled here)
    (inv.recorded.tell_one id _) ⟨inv.ended.closing, inv.ended.queue, inv.ended.failing,
      inv.ended.abandoning, fun finished => absurd finished (inv.unfinished within holds)⟩

/-! ## Runs -/

theorem Inv.start (limits : SessionLimits) (world : W) (pending : Bool) :
    (Session.start limits world pending : Session W X).Inv := by
  refine ⟨⟨rfl, rfl, rfl, Nat.zero_le _, Nat.zero_le _, Nat.zero_le _⟩, ?_, ?_, ?_, ?_⟩
  · constructor <;> simp [Session.start, phases, SessionWorker.remaining, SessionWorker.active,
      RequestPhase.accepted]
  · constructor <;> simp [Session.start]
  · refine ⟨⟨rfl, rfl, rfl⟩, rfl, ?_, ?_, List.Sublist.refl _, ?_⟩
    · rintro id publication ⟨_, impossible⟩
      cases impossible
    · intro id publication member
      cases List.mem_singleton.mp member
    · rintro id is_active
      cases is_active
  · constructor <;> simp [Session.start]

theorem Inv.client (inv : s.Inv) (step : ClientStep s t) : t.Inv := by
  cases step with
  | submit charge wait => exact inv.reserve charge wait
  | cancel id => exact inv.cancel id
  | close =>
      exact ⟨inv.accounts.same ⟨rfl, rfl, rfl, rfl, fun _ => rfl, fun _ => rfl⟩, inv.located,
        inv.told, inv.recorded, ⟨fun _ => rfl, inv.ended.queue, inv.ended.failing,
          inv.ended.abandoning, inv.ended.finished⟩⟩

theorem Inv.service (inv : s.Inv) (step : ServiceStep s t) : t.Inv := by
  cases step with
  | construct throws here =>
      have constructing : s.phases _ = .constructing := here.2
      cases throws
      · exact inv.move (.inl here.2) (.inr (.inl rfl)) (by rw [constructing]; rfl)
      · exact inv.move (.inl here.2) (.inr (.inr (.inl rfl))) (by rw [constructing]; rfl)
  | push here => exact inv.push here.1 here.2
  | unqueued here =>
      have constructed : s.phases _ = .constructed := here.2
      exact inv.move (.inr (.inl here.2)) (.inr (.inr (.inl rfl))) (by rw [constructed]; rfl)
  | refund here => exact inv.refund here.1 here.2
  | cancelled here => exact inv.cancelled here.1 here.2
  | decide ready here => exact inv.decide ready here
  | claim here wakes => exact inv.claim here
  | contribute result certified here => exact inv.contribute result certified here
  | produce pending here => exact inv.produce pending here
  | settle here => exact inv.settle here
  | decline pending here => exact inv.decline pending here
  | reject here => exact inv.reject here
  | advance result here => exact inv.advance result here
  | maintain pending here => exact inv.maintain pending here
  | fail here => exact inv.fail here
  | abandon here => exact inv.abandon here
  | drained here settled =>
      have failed := inv.ended.abandoning _ _ here
      exact inv.finish (by rw [here]; rfl) (by rw [here]; rfl) (by rw [here]; rfl)
        (inv.ended.closing (.inl (by rw [failed]; rfl))) settled

/-- The invariant holds after every run. -/
theorem Reachable.inv {limits : SessionLimits} (reachable : Reachable limits s) : s.Inv := by
  obtain ⟨world, pending, run⟩ := reachable
  induction run with
  | refl => exact .start limits world pending
  | tail _ step induction => exact step.elim induction.client induction.service

end Session

end Everett

import Everett.Catalog.Promise
import Everett.Catalog.ExactlyOnce

/-!
# Hints of completed merges

The first acknowledged completion of a merge decides its output.  Later completions report it, and a
successful acquisition leaves a pin of its own on it.
-/

namespace Everett.Catalog

open Outcome Tables

variable {C : Context} {t u : Tables} {disk : Disk}

/-! ## What a hint promises -/

theorem nativeMergeOutput_eq (t : Tables) (domain : List UInt8) (older newer : ObjectId) :
    t.nativeMergeOutput domain older newer =
      ((t.nativeMerges.getD []).find? fun row =>
        row.domain = domain ∧ row.older = older ∧ row.newer = newer).map MergeRow.output := by
  unfold Tables.nativeMergeOutput
  cases t.nativeMerges with
  | none => rfl
  | some rows =>
      change (rows.find? _ >>= _) = (rows.find? _).map _
      cases rows.find? fun row => row.domain = domain ∧ row.older = older ∧ row.newer = newer <;> rfl

/-- A hint never changes. -/
theorem Grows.nativeMergeOutput {domain : List UInt8} {older newer output : ObjectId}
    (grows : Grows t u) (hint : t.nativeMergeOutput domain older newer = some output) :
    u.nativeMergeOutput domain older newer = some output := by
  rw [nativeMergeOutput_eq] at hint ⊢
  obtain ⟨row, found, rfl⟩ := Option.map_eq_some_iff.mp hint
  rw [find?_longer grows.nativeMerges found, Option.map_some]

/-- A pin of a reader on an object. -/
def Tables.Pinned (t : Tables) (owner : Text) (object : ObjectId) : Prop :=
  (OwnerKind.reader, owner) ∈ t.owners ∧ (OwnerKind.reader, owner, object) ∈ t.liveOwnerObjects

theorem mem_liveOwnerObjects {kind : OwnerKind} {owner : Text} {object : ObjectId}
    (permanent : kind ≠ .attempt) (member : (kind, owner, object) ∈ t.ownerObjects) :
    (kind, owner, object) ∈ t.liveOwnerObjects :=
  List.mem_filter.mpr ⟨member, decide_eq_true (.inl permanent)⟩

/-- The pins of readers are kept. -/
theorem Grows.pinned {owner : Text} {object : ObjectId} (grows : Grows t u)
    (pinned : t.Pinned owner object) : u.Pinned owner object := by
  refine ⟨grows.owners.subset pinned.1, ?_⟩
  apply mem_liveOwnerObjects (by decide)
  exact grows.ownerObjects.subset (List.mem_of_mem_filter pinned.2)

/-- What the outcome of a completion or an acquisition says for good. -/
def HintKept (t : Tables) (action : Action) (outcome : List UInt8) : Prop :=
  match action with
  | .rememberNativeMerge domain older newer _ _ =>
      ∃ output, outcome = identity output ∧
        t.nativeMergeOutput domain.items older newer = some output
  | .acquireNativeMerge domain older newer owner =>
      ∃ output, outcome = identity output ∧
        t.nativeMergeOutput domain.items older newer = some output ∧ t.Pinned owner output
  | _ => True

theorem Grows.hintKept {action : Action} {outcome : List UInt8} (grows : Grows t u)
    (kept : HintKept t action outcome) : HintKept u action outcome := by
  cases action with
  | rememberNativeMerge domain older newer receipt owner =>
      obtain ⟨output, encoded, hint⟩ := kept
      exact ⟨output, encoded, grows.nativeMergeOutput hint⟩
  | acquireNativeMerge domain older newer owner =>
      obtain ⟨output, encoded, hint, pinned⟩ := kept
      exact ⟨output, encoded, grows.nativeMergeOutput hint, grows.pinned pinned⟩
  | _ => trivial

/-- The key of a hint which a call makes or finds. -/
def Action.hintKey : Action → Option (Text × ObjectId × ObjectId)
  | .rememberNativeMerge domain older newer _ _ => some (domain, older, newer)
  | .acquireNativeMerge domain older newer _ => some (domain, older, newer)
  | _ => none

/-- An outcome which is kept is the hint of its key. -/
theorem HintKept.output {action : Action} {outcome : List UInt8} {domain : Text}
    {older newer : ObjectId} (kept : HintKept t action outcome)
    (key : action.hintKey = some (domain, older, newer)) :
    ∃ output, outcome = identity output ∧
      t.nativeMergeOutput domain.items older newer = some output := by
  cases action with
  | rememberNativeMerge =>
      cases key
      exact kept
  | acquireNativeMerge =>
      cases key
      obtain ⟨output, encoded, hint, -⟩ := kept
      exact ⟨output, encoded, hint⟩
  | _ => cases key

/-! ## Making the promise -/

theorem addNativePin_eq_ok {owner : Text} {native : ObjectId}
    (result : t.addNativePin owner native = .ok u) :
    u.Pinned owner native ∧ u.nativeMerges = t.nativeMerges := by
  obtain ⟨middle, owned, rest⟩ := bind_eq_ok.mp result
  obtain ⟨-, rfl⟩ := addOwner_eq_ok.mp owned
  obtain ⟨-, ⟨there, -⟩, rfl⟩ := addObject_eq_ok.mp rest
  refine ⟨⟨there, ?_⟩, rfl⟩
  exact mem_liveOwnerObjects (by decide) (List.mem_append_right _ (List.mem_singleton_self _))

/-- A completion reports the hint which it found or made. -/
theorem applyRememberMerge_hint {domain : Text} {older newer : ObjectId} {receipt : Receipt}
    {owner : Text} {output : ObjectId}
    (result : applyRememberMerge C disk t domain older newer receipt owner = .ok (u, output)) :
    u.nativeMergeOutput domain.items older newer = some output := by
  obtain ⟨_, -, rest⟩ := bind_eq_ok.mp result
  obtain ⟨_, -, rest⟩ := bind_eq_ok.mp rest
  obtain ⟨_, -, rest⟩ := bind_eq_ok.mp rest
  dsimp only at rest
  split at rest
  · rename_i old found
    obtain ⟨_, -, rest⟩ := bind_eq_ok.mp rest
    cases rest
    exact found
  · rename_i absent
    obtain ⟨pinned, added, rest⟩ := bind_eq_ok.mp rest
    obtain ⟨last, inserted, rest⟩ := bind_eq_ok.mp rest
    cases rest
    obtain ⟨-, -, -, rfl⟩ := insertMerge_eq_ok.mp inserted
    rw [nativeMergeOutput_eq] at absent ⊢
    have none : (t.nativeMerges.getD []).find? (fun row =>
        row.domain = domain.items ∧ row.older = older ∧ row.newer = newer) = none :=
      Option.map_eq_none_iff.mp absent
    change Option.map _ (List.find? _ (_ ++ _)) = _
    rw [List.find?_append, none, Option.none_or, List.find?_singleton,
      if_pos (decide_eq_true ⟨rfl, rfl, rfl⟩)]
    rfl

/-- An acquisition pins the hint which it selected. -/
theorem applyAcquireMerge_hint {domain : Text} {older newer : ObjectId} {owner : Text}
    {output : ObjectId}
    (result : applyAcquireMerge C disk t domain older newer owner = .ok (u, output)) :
    u.nativeMergeOutput domain.items older newer = some output ∧ u.Pinned owner output := by
  obtain ⟨found, hint, rest⟩ := bind_eq_ok.mp result
  obtain ⟨_, -, rest⟩ := bind_eq_ok.mp rest
  obtain ⟨pinned, added, rest⟩ := bind_eq_ok.mp rest
  cases rest
  obtain ⟨kept, rows⟩ := addNativePin_eq_ok added
  refine ⟨?_, kept⟩
  have before := demand_eq_ok.mp hint
  rw [nativeMergeOutput_eq] at before ⊢
  rwa [rows]

theorem apply_hintKept {work : Work} {outcome : List UInt8}
    (applied : work.apply C disk t = .ok (u, outcome)) : HintKept u work.action outcome := by
  obtain ⟨action, pinned⟩ := work
  cases action with
  | rememberNativeMerge domain older newer receipt owner =>
      obtain ⟨⟨v, output⟩, done, rest⟩ := bind_eq_ok.mp applied
      cases rest
      exact ⟨output, rfl, applyRememberMerge_hint done⟩
  | acquireNativeMerge domain older newer owner =>
      obtain ⟨⟨v, output⟩, done, rest⟩ := bind_eq_ok.mp applied
      cases rest
      obtain ⟨hint, kept⟩ := applyAcquireMerge_hint done
      exact ⟨output, rfl, hint, kept⟩
  | _ => trivial

theorem Performed.hintKept {c : Database} (performed : Performed C c) : Keeps HintKept c :=
  (performed.promise (fun _ => True) HintKept trivial (fun _ _ => trivial)
    (fun _ applied => apply_hintKept applied) (fun grows kept => grows.hintKept kept)).2

/-! ## Returning -/

/-- What a returned acquisition says for good. -/
def HintReturned (t : Tables) (action : Action) (value : Value) : Prop :=
  match action with
  | .acquireNativeMerge domain older newer owner =>
      ∃ receipt, value = .receipt receipt ∧
        t.nativeMergeOutput domain.items older newer = some receipt.object ∧
        t.Pinned owner receipt.object
  | _ => True

theorem sealedReceipt_object {id : ObjectId} {kind : FileKind} {receipt : Receipt}
    (result : sealedReceipt C disk t id kind = .ok receipt) : receipt.object = id := by
  obtain ⟨row, -, rest⟩ := bind_eq_ok.mp result
  obtain ⟨found, -, rest⟩ := bind_eq_ok.mp rest
  obtain ⟨_, -, rest⟩ := bind_eq_ok.mp rest
  obtain ⟨_, -, rest⟩ := bind_eq_ok.mp rest
  cases rest
  rfl

/-- A call which returns has read the output which its transaction selected. -/
theorem finish_hintReturned {action : Action} {outcome : List UInt8} {value : Value}
    (kept : HintKept t action outcome) (finished : finish C disk t outcome action = .ok value) :
    HintReturned t action value := by
  cases action with
  | acquireNativeMerge domain older newer owner =>
      obtain ⟨output, rfl, hint, pinned⟩ := kept
      obtain ⟨read, decoded, rest⟩ := bind_eq_ok.mp finished
      obtain ⟨receipt, sealed, rest⟩ := bind_eq_ok.mp rest
      cases rest
      cases decoded.symm.trans (readAll_eq (readIdentity_append output []))
      refine ⟨receipt, rfl, ?_⟩
      rw [sealedReceipt_object sealed]
      exact ⟨hint, pinned⟩
  | _ => trivial

theorem Grows.hintReturned {action : Action} {value : Value} (grows : Grows t u)
    (returned : HintReturned t action value) : HintReturned u action value := by
  cases action with
  | acquireNativeMerge domain older newer owner =>
      obtain ⟨receipt, same, hint, pinned⟩ := returned
      exact ⟨receipt, same, grows.nativeMergeOutput hint, grows.pinned pinned⟩
  | _ => trivial

/-! ## Domains -/

theorem kernel_injective : Function.Injective kernel := by
  intro a b same
  cases a <;> cases b <;> first | rfl | exact absurd same (by decide)

/-- The domain tells the kernels and schemas of merges apart. -/
theorem nativeMergeDomain_injective {first second : NativeMerge} {domain : Text}
    (one : nativeMergeDomain C first = .ok domain)
    (two : nativeMergeDomain C second = .ok domain) :
    first.kind = second.kind ∧ first.schema = second.schema := by
  have bytes : ∀ {key : NativeMerge}, nativeMergeDomain C key = .ok domain →
      domain.items = domainBytes C key := by
    intro key made
    obtain ⟨_, -, rest⟩ := bind_eq_ok.mp made
    unfold Tables.sized at rest
    split at rest
    · cases rest
      rfl
    · cases rest
  have same := (bytes one).symm.trans (bytes two)
  obtain ⟨kernels, later⟩ := framed_field _ _ _ _ same
  exact ⟨kernel_injective kernels, (framed_field _ _ _ _ later).1⟩

/-- The request of an acquisition determines its key and its owner. -/
theorem acquire_request_injective {first second : NativeMerge} {one two owner reader : Text}
    (first_domain : nativeMergeDomain C first = .ok one)
    (second_domain : nativeMergeDomain C second = .ok two)
    (same : (Action.acquireNativeMerge one first.older first.newer owner).request =
      (Action.acquireNativeMerge two second.older second.newer reader).request) :
    first = second ∧ owner = reader := by
  have named : (Action.acquireNativeMerge one first.older first.newer owner).kind =
      (Action.acquireNativeMerge two second.older second.newer reader).kind := rfl
  injection Action.request_injective named same with domains olders newers owners
  subst domains
  obtain ⟨kinds, schemas⟩ := nativeMergeDomain_injective first_domain second_domain
  obtain ⟨schema, older, newer, kind⟩ := first
  obtain ⟨schema', older', newer', kind'⟩ := second
  cases kinds
  cases schemas
  cases olders
  cases newers
  exact ⟨rfl, owners⟩

/-! ## Misses -/

variable {c : Database} {scope : Option ObjectId} {id : Text}

/-- An acquisition which goes on to its transaction asks for its own arguments. -/
theorem prepare_acquire {key : NativeMerge} {owner : Text} {work : Work}
    (prepared : prepare C disk c scope id (.acquireNativeMerge key owner) = .ok (some work)) :
    ∃ domain, nativeMergeDomain C key = .ok domain ∧
      work.action = .acquireNativeMerge domain key.older key.newer owner := by
  obtain ⟨_, -, rest⟩ := bind_eq_ok.mp prepared
  obtain ⟨_, -, rest⟩ := bind_eq_ok.mp rest
  obtain ⟨_, -, rest⟩ := bind_eq_ok.mp rest
  obtain ⟨domain, made, rest⟩ := bind_eq_ok.mp rest
  split at rest
  · cases rest
    exact ⟨domain, made, rfl⟩
  · cases rest

/-- Only an acquisition misses: its identity is new and its key has no hint. -/
theorem prepare_missed {operation : Operation}
    (missed : prepare C disk c scope id operation = .ok none) :
    ∃ key owner domain, operation = .acquireNativeMerge key owner ∧
      nativeMergeDomain C key = .ok domain ∧ c.lookupOperation id = none ∧
      c.tables.nativeMergeOutput domain.items key.older key.newer = none := by
  cases operation with
  | acquireNativeMerge key owner =>
      obtain ⟨_, -, rest⟩ := bind_eq_ok.mp missed
      obtain ⟨_, -, rest⟩ := bind_eq_ok.mp rest
      obtain ⟨_, -, rest⟩ := bind_eq_ok.mp rest
      obtain ⟨domain, made, rest⟩ := bind_eq_ok.mp rest
      split at rest
      · cases rest
      · rename_i unhinted
        obtain ⟨new, absent⟩ := not_or.mp (mt (Bool.or_eq_true _ _).mpr unhinted)
        refine ⟨key, owner, domain, rfl, made, ?_, ?_⟩
        · exact Option.not_isSome_iff_eq_none.mp new
        · exact Option.not_isSome_iff_eq_none.mp absent
  | _ =>
      -- Every other call ends in its work.
      simp only [prepare, plain, bind_eq_ok, Except.ok.injEq, reduceCtorEq, and_false,
        exists_false] at missed

/-! ## The catalog as a whole -/

namespace System

variable {s : System}

theorem grows_run (events : List Event) :
    Grows s.catalog.tables (s.run C events).1.catalog.tables :=
  run_invariant (fun next => Grows s.catalog.tables next.catalog.tables)
    (fun _ _ grown => grown.trans grows_step) Grows.refl events

/-- An acknowledged completion or acquisition keeps its promise in every later state. -/
theorem hintKept_run {call : Call} {outcome : List UInt8} {events : List Event}
    (member : .acknowledged call outcome ∈ (System.created.run C events).2) (more : List Event) :
    HintKept ((System.created.run C events).1.run C more).1.catalog.tables call.work.action
      outcome := by
  apply (grows_run more).hintKept
  exact Performed.hintKept (performed_run events) (call.entry outcome)
    (acknowledged_run events member) call.work.action rfl rfl

/-- What a missing start says, and what a starting acquisition leads to. -/
theorem step_missed {event : Event} (missed : (s.step C event).2 = .missed) :
    ∃ handle id disk key owner domain,
      event = .start handle id (.acquireNativeMerge key owner) disk none ∧
      (s.step C event).1 = s ∧ nativeMergeDomain C key = .ok domain ∧
      s.catalog.lookupOperation id = none ∧
      s.catalog.tables.nativeMergeOutput domain.items key.older key.newer = none := by
  have cases := step_cases C s event
  generalize s.step C event = result at cases missed ⊢
  cases cases with
  | missed handle id operation disk prepared =>
      obtain ⟨key, owner, domain, rfl, made, new, absent⟩ := prepare_missed prepared
      exact ⟨handle, id, disk, key, owner, domain, rfl, rfl, made, new, absent⟩
  | transacted handle disk answers call ready =>
      unfold settle at missed
      split at missed <;> cases missed
  | _ => cases missed

theorem step_acquiring {handle : Nat} {id : Text} {key : NativeMerge} {owner : Text}
    {failure : Option Nat} {call : Call}
    (started : (s.step C (.start handle id (.acquireNativeMerge key owner) disk failure)).2 =
      .prepared call) :
    call.id = id ∧ ∃ domain, nativeMergeDomain C key = .ok domain ∧
      call.work.action = .acquireNativeMerge domain key.older key.newer owner := by
  have cases := step_cases C s (.start handle id (.acquireNativeMerge key owner) disk failure)
  generalize s.step C _ = result at cases started
  cases cases with
  | started handle id operation disk work active prepared =>
      cases started
      exact ⟨rfl, prepare_acquire prepared⟩
  | _ => cases started

end System

/-- Over every run: what a completion or an acquisition acknowledged stays the hint of its key, and
all acknowledgements of one key agree; a returned acquisition names that output, with a pin of its
own; a miss changes nothing; and a recorded identity never misses, so that its other arguments are
rejected. -/
theorem native_merge_hints (C : Context) (events : List Event) :
    let s := (System.created.run C events).1
    let responses := (System.created.run C events).2
    (∀ call outcome, .acknowledged call outcome ∈ responses → ∀ more,
      HintKept (s.run C more).1.catalog.tables call.work.action outcome) ∧
    (∀ one two first second key, .acknowledged one first ∈ responses →
      .acknowledged two second ∈ responses → one.work.action.hintKey = some key →
      two.work.action.hintKey = some key → first = second) ∧
    (∀ action value, .returned action value ∈ responses → ∀ more,
      HintReturned (s.run C more).1.catalog.tables action value) ∧
    (∀ event, (s.step C event).2 = .missed → (s.step C event).1 = s ∧
      ∃ handle id disk key owner domain,
        event = .start handle id (.acquireNativeMerge key owner) disk none ∧
        nativeMergeDomain C key = .ok domain ∧ s.catalog.lookupOperation id = none ∧
        s.catalog.tables.nativeMergeOutput domain.items key.older key.newer = none) ∧
    (∀ old ∈ s.catalog.journal, ∀ handle key owner disk failure,
      let next := s.step C (.start handle old.id (.acquireNativeMerge key owner) disk failure)
      next.2 ≠ .missed ∧ ∀ call, next.2 = .prepared call → call.id = old.id ∧
        ∃ domain, nativeMergeDomain C key = .ok domain ∧
          call.work.action = .acquireNativeMerge domain key.older key.newer owner) ∧
    (∀ handle call, s.Ready handle call → ∀ old ∈ s.catalog.journal, old.id = call.id →
      ¬ (old.kind = call.work.action.kind ∧ old.request = call.work.action.request) →
      ∀ disk answers, let next := s.step C (.transact handle disk answers)
        next.1.catalog = s.catalog ∧ ∃ failure, next.2 = .refused failure ∧
          (answers = .clean → failure = .exception reusedText)) ∧
    ∀ (first second : NativeMerge) (one two owner reader : Text),
      nativeMergeDomain C first = .ok one → nativeMergeDomain C second = .ok two →
      (Action.acquireNativeMerge one first.older first.newer owner).request =
        (Action.acquireNativeMerge two second.older second.newer reader).request →
      first = second ∧ owner = reader := by
  intro s responses
  have performed : Performed C s.catalog := System.performed_run events
  refine ⟨?_, ?_, ?_, ?_, ?_, ?_, ?_⟩
  · intro call outcome member more
    exact System.hintKept_run member more
  · intro one two first second ⟨domain, older, newer⟩ acked acknowledged one_key two_key
    obtain ⟨output, rfl, hint⟩ := (System.hintKept_run acked []).output one_key
    obtain ⟨other, rfl, same⟩ := (System.hintKept_run acknowledged []).output two_key
    rw [Option.some.inj (hint.symm.trans same)]
  · intro action value member more
    apply (System.grows_run more).hintReturned
    exact System.returned_run HintKept HintReturned Performed.hintKept finish_hintReturned
      Grows.hintReturned events member
  · intro event missed
    obtain ⟨handle, id, disk, key, owner, domain, starts, same, rest⟩ := System.step_missed missed
    exact ⟨same, handle, id, disk, key, owner, domain, starts, rest⟩
  · intro old member handle key owner disk failure next
    refine ⟨?_, fun call => System.step_acquiring⟩
    intro missed
    obtain ⟨_, id, _, _, _, _, starts, -, -, new, -⟩ := System.step_missed missed
    injection starts with _ ids
    rw [← ids, performed.lookup member] at new
    cases new
  · intro handle call ready old member id differs disk answers
    obtain ⟨same, -, reused⟩ := transact_recorded performed ready member id
    refine ⟨same, reused ?_⟩
    intro recorded
    apply differs
    rw [recorded]
    exact ⟨rfl, rfl⟩
  · intro first second one two owner reader
    exact acquire_request_injective

/-! An acquisition from a new catalog misses. -/

set_option maxRecDepth 4000 in
theorem native_merge_hints_missed :
    let event := Event.start 0 (Text.letter 97)
      (.acquireNativeMerge ⟨Text.letter 98, .ones, .ones, .replacement⟩ (Text.letter 99)) [] none
    (System.created.step .small event).2 = .missed ∧
      (System.created.step .small event).1 = System.created := by
  intro event
  have missed : (System.created.step .small event).2 = .missed := rfl
  exact ⟨missed, ((native_merge_hints .small []).2.2.2.1 event missed).1⟩

end Everett.Catalog

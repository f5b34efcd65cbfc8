import Everett.Durability.Turns

/-!
# Runs of a publication

What an observer of every call of a run learns from its arguments and answers, and how the fields
of the publication account for it.
-/

namespace Everett.Durability

open Methods MergePublication

/-- One call of a run, with its answer and the publication on both sides. -/
structure Turn where
  before : MergePublication
  request : Call
  answer : Except Fault Reply
  after : MergePublication

/-- The turn of a call from a publication. -/
def turn (publication : MergePublication) (request : Call) : Turn where
  before := publication
  request := request
  answer := (call (perform request) publication).1
  after := (call (perform request) publication).2

/-- The turns of a sequence of calls. -/
def turns : MergePublication → List Call → List Turn
  | _, [] => []
  | publication, request :: rest =>
      turn publication request :: turns (turn publication request).after rest

/-- The publication after a sequence of calls. -/
def final (publication : MergePublication) (requests : List Call) : MergePublication :=
  requests.foldl (fun reached request => (turn reached request).after) publication

namespace Turn

/-- Generation of a successful resumption. -/
def resumption (turn : Turn) : Option Bytes :=
  match turn.request, turn.answer with
  | .resume fresh _ _ _, .ok _ => some fresh
  | _, _ => none

/-- Manifest of a successful preparation. -/
def preparation (turn : Turn) : Option Bytes :=
  match turn.request, turn.answer with
  | .prepareManifest exactId, .ok _ => some exactId
  | _, _ => none

/-- Checkpoint which a successful call made durable. -/
def acceptance (turn : Turn) : Option MergeCheckpoint :=
  match turn.request, turn.answer with
  | .completeCheckpoint candidate .durableVerified, .ok _ => some candidate
  | _, _ => none

/-- Pending manifest which a successful call acknowledged as durable or recovered. -/
def settlement (turn : Turn) : Option Bytes :=
  match turn.request, turn.answer with
  | .completeManifest .durableVerified, .ok _ => some turn.before.pendingManifest
  | .acceptRecoveredPublication .durableStateVerified, .ok _ => some turn.before.pendingManifest
  | _, _ => none

/-- The call released the old pins. -/
def release (turn : Turn) : Option Unit :=
  match turn.answer with
  | .ok (.released true) => some ()
  | _ => none

section Thrown

variable (publication after : MergePublication) (request : Call) (fault : Fault)

@[simp]
theorem resumption_error : resumption ⟨publication, request, .error fault, after⟩ = none := by
  unfold resumption
  split <;> simp_all

@[simp]
theorem preparation_error : preparation ⟨publication, request, .error fault, after⟩ = none := by
  unfold preparation
  split <;> simp_all

@[simp]
theorem acceptance_error : acceptance ⟨publication, request, .error fault, after⟩ = none := by
  unfold acceptance
  split <;> simp_all

@[simp]
theorem settlement_error : settlement ⟨publication, request, .error fault, after⟩ = none := by
  unfold settlement
  split <;> simp_all

@[simp]
theorem release_error : release ⟨publication, request, .error fault, after⟩ = none := rfl

end Thrown

end Turn

/-- One more turn adds at most one entry to a log of the run. -/
theorem filterMap_concat {α : Type} (log : Turn → Option α) (history : List Turn) (one : Turn) :
    (history ++ [one]).filterMap log = history.filterMap log ++ (log one).toList := by
  rw [List.filterMap_append]
  cases entry : log one <;> simp [entry]

@[simp]
theorem turns_concat (publication : MergePublication) (requests : List Call) (request : Call) :
    turns publication (requests ++ [request]) =
      turns publication requests ++ [turn (final publication requests) request] := by
  induction requests generalizing publication with
  | nil => rfl
  | cons first requests induction =>
      rw [List.cons_append, turns, turns, induction, List.cons_append]
      rfl

@[simp]
theorem final_concat (publication : MergePublication) (requests : List Call) (request : Call) :
    final publication (requests ++ [request]) =
      (turn (final publication requests) request).after := by
  unfold final
  rw [List.foldl_append]
  rfl

/-- Every turn of a run starts from a publication which an earlier part of the run reaches. -/
theorem mem_turns {publication : MergePublication} {requests : List Call} {one : Turn}
    (member : one ∈ turns publication requests) :
    ∃ earlier request, earlier ++ [request] <+: requests ∧
      one = turn (final publication earlier) request := by
  induction requests using List.reverseRecOn with
  | nil => cases member
  | append_singleton requests request induction =>
      rw [turns_concat, List.mem_append, List.mem_singleton] at member
      rcases member with inside | rfl
      · obtain ⟨earlier, other, starts, same⟩ := induction inside
        exact ⟨earlier, other, starts.trans (List.prefix_append _ _), same⟩
      · exact ⟨requests, request, List.prefix_rfl, rfl⟩

/-- A turn throws and changes nothing, or has one of the effects. -/
theorem turn_cases (publication : MergePublication) (request : Call) :
    (∃ fault, turn publication request = ⟨publication, request, .error fault, publication⟩) ∨
      ∃ reply after, turn publication request = ⟨publication, request, .ok reply, after⟩ ∧
        Effect publication request reply after := by
  unfold turn
  have atomic := perform_atomic request publication
  rcases outcome : call (perform request) publication with ⟨answer, after⟩
  rw [outcome] at atomic
  cases answer with
  | error fault => exact .inl ⟨fault, by rw [atomic fault rfl]⟩
  | ok reply => exact .inr ⟨reply, after, rfl, perform_effect outcome⟩

/-- Identities used so far, given the resumptions and preparations of the run. -/
structure Identities (identity : MergeIdentity) (generation : Bytes) (resumed prepared : List Bytes)
    (publication : MergePublication) : Prop where
  identity_eq : publication.identity = identity
  generations_eq : publication.generations = generation :: resumed
  generations_nodup : publication.generations.Nodup
  current : publication.generations.getLast? = some publication.generation
  manifests_eq : publication.manifests = prepared
  manifests_nodup : publication.manifests.Nodup
  named : [] ∉ publication.manifests

/-- Which manifest is durable and which one is pending, given the settlements of the run. -/
structure Decision (old : Bytes) (settled : List Bytes) (publication : MergePublication) :
    Prop where
  old_fresh : old ∉ publication.manifests
  undecided : publication.stage ≠ .published → settled = [] ∧ publication.durableManifest = old
  decided : publication.stage = .published → settled = [publication.durableManifest] ∧
    publication.manifests.getLast? = some publication.durableManifest
  pending : publication.pendingManifest ≠ [] →
    publication.manifests.getLast? = some publication.pendingManifest
  waiting : publication.stage = .manifestPending → publication.pendingManifest ≠ []

/-- The pins of the old inputs go once, after the publication. -/
def Retention (released : List Unit) (publication : MergePublication) : Prop :=
  if publication.oldPinsRetained then released = []
  else publication.stage = .published ∧ released = [()]

/-- Durable checkpoints of one output generation. -/
def ofGeneration (generation : Bytes) (accepted : List MergeCheckpoint) : List MergeCheckpoint :=
  accepted.filter fun checkpoint => checkpoint.outputGeneration = generation

/-- The checkpoints which became durable, and the one which the publication holds. -/
structure Progress (accepted : List MergeCheckpoint) (publication : MergePublication) : Prop where
  belongs : ∀ checkpoint ∈ accepted, Belongs publication.identity checkpoint ∧
    checkpoint.outputGeneration ∈ publication.generations
  held : ∀ checkpoint, publication.checkpoint = some checkpoint → checkpoint ∈ accepted
  latest : ∀ checkpoint,
    (ofGeneration publication.generation accepted).getLast? = some checkpoint →
      publication.checkpoint = some checkpoint
  chain : ∀ generation, (ofGeneration generation accepted).IsChain Advances

section Steps

variable {identity : MergeIdentity} {old generation : Bytes} {resumed prepared settled : List Bytes}
  {released : List Unit} {accepted : List MergeCheckpoint} {publication after : MergePublication}
  {request : Call} {reply : Reply}

theorem Identities.step (account : Identities identity generation resumed prepared publication)
    (effect : Effect publication request reply after) :
    Identities identity generation
      (resumed ++ (Turn.resumption ⟨publication, request, .ok reply, after⟩).toList)
      (prepared ++ (Turn.preparation ⟨publication, request, .ok reply, after⟩).toList) after := by
  obtain ⟨identity_eq, generations_eq, generations_nodup, current, manifests_eq, manifests_nodup,
    named⟩ := account
  cases effect with
  | prepared exactId durable present other fresh =>
      exact
        { identity_eq := identity_eq
          generations_eq := by simpa [Turn.resumption] using generations_eq
          generations_nodup := generations_nodup
          current := current
          manifests_eq := by simp [Turn.preparation, manifests_eq]
          manifests_nodup := List.concat_eq_append ▸ List.Nodup.concat fresh manifests_nodup
          named := by simp [named, Ne.symm present] }
  | resumed fresh retained selector lost reconciled present unused recognized =>
      exact
        { identity_eq := identity_eq
          generations_eq := by simp [Turn.resumption, generations_eq]
          generations_nodup := List.concat_eq_append ▸ List.Nodup.concat unused generations_nodup
          current := List.getLast?_concat
          manifests_eq := by simpa [Turn.preparation] using manifests_eq
          manifests_nodup := manifests_nodup
          named := named }
  | _ => constructor <;> simp_all [Turn.resumption, Turn.preparation]

theorem Decision.step (account : Decision old settled publication)
    (effect : Effect publication request reply after) :
    Decision old (settled ++ (Turn.settlement ⟨publication, request, .ok reply, after⟩).toList)
      after := by
  obtain ⟨old_fresh, undecided, decided, pending, waiting⟩ := account
  cases effect with
  | prepared exactId durable present other fresh =>
      constructor <;> simp_all [Turn.settlement, eq_comm]
  | _ => constructor <;> simp_all [Turn.settlement]

theorem Retention.step (account : Retention released publication)
    (effect : Effect publication request reply after) :
    Retention (released ++ (Turn.release ⟨publication, request, .ok reply, after⟩).toList)
      after := by
  unfold Retention at *
  cases effect with
  | _ => cases retained : publication.oldPinsRetained <;> simp_all [Turn.release]

/-- Other fields of the publication do not matter to its checkpoints. -/
theorem Progress.congr (account : Progress accepted publication)
    (identity_eq : after.identity = publication.identity)
    (generation_eq : after.generation = publication.generation)
    (generations_eq : after.generations = publication.generations)
    (checkpoint_eq : after.checkpoint = publication.checkpoint) : Progress accepted after where
  belongs := by rw [identity_eq, generations_eq]; exact account.belongs
  held := by rw [checkpoint_eq]; exact account.held
  latest := by rw [checkpoint_eq, generation_eq]; exact account.latest
  chain := account.chain

/-- A durable checkpoint extends the chain of its generation. -/
theorem Progress.accept (account : Progress accepted publication) {candidate : MergeCheckpoint}
    (listed : publication.generation ∈ publication.generations)
    (belongs : Belongs publication.identity candidate)
    (current : candidate.outputGeneration = publication.generation)
    (advances : ∀ checkpoint, publication.checkpoint = some checkpoint →
      checkpoint.inputs.map MergeInputCursor.inputVersion =
        publication.identity.inputVersions → Advances checkpoint candidate) :
    Progress (accepted ++ [candidate]) { publication with checkpoint := some candidate } where
  belongs := by
    intro checkpoint member
    rcases List.mem_append.mp member with earlier | last
    · exact account.belongs checkpoint earlier
    · cases List.mem_singleton.mp last
      exact ⟨belongs, current ▸ listed⟩
  held := by
    rintro checkpoint ⟨⟩
    exact List.mem_append_right _ (List.mem_singleton_self _)
  latest := by
    intro checkpoint last
    have ends : ofGeneration publication.generation (accepted ++ [candidate]) =
        ofGeneration publication.generation accepted ++ [candidate] := by
      simp [ofGeneration, current]
    rw [ends, List.getLast?_concat] at last
    exact last
  chain := by
    intro generation
    by_cases own : candidate.outputGeneration = generation
    · have ends : ofGeneration generation (accepted ++ [candidate]) =
          ofGeneration generation accepted ++ [candidate] := by
        simp [ofGeneration, own]
      rw [ends, List.isChain_append]
      refine ⟨account.chain generation, List.isChain_singleton _, fun last isLast next isNext => ?_⟩
      rw [List.head?_cons, Option.mem_some_iff] at isNext
      cases isNext
      rw [← own, current] at isLast
      have prior := account.latest last isLast
      exact advances last prior (account.belongs last (account.held last prior)).1.inputs_eq
    · have ends : ofGeneration generation (accepted ++ [candidate]) =
          ofGeneration generation accepted := by
        simp [ofGeneration, own]
      rw [ends]
      exact account.chain generation

/-- A fresh generation starts its own chain, after a checkpoint which may be kept. -/
theorem Progress.resume (account : Progress accepted publication) {fresh : Bytes}
    {retained : Option MergeCheckpoint} (unused : fresh ∉ publication.generations)
    (recognized : retained = none ∨ retained = publication.checkpoint) :
    Progress accepted
      { publication with
        generations := publication.generations ++ [fresh]
        generation := fresh
        checkpoint := retained
        pendingManifest := []
        stage := .building } where
  belongs := fun checkpoint member =>
    ⟨(account.belongs checkpoint member).1,
      List.mem_append_left _ (account.belongs checkpoint member).2⟩
  held := by
    rintro checkpoint kept
    rcases recognized with rfl | rfl
    · cases kept
    · exact account.held checkpoint kept
  latest := by
    intro checkpoint last
    have none_yet : ofGeneration fresh accepted = [] := by
      rw [ofGeneration, List.filter_eq_nil_iff]
      intro checkpoint member same
      exact unused (of_decide_eq_true same ▸ (account.belongs checkpoint member).2)
    rw [none_yet] at last
    cases last
  chain := account.chain

theorem Progress.step (account : Progress accepted publication)
    (listed : publication.generation ∈ publication.generations)
    (effect : Effect publication request reply after) :
    Progress (accepted ++ (Turn.acceptance ⟨publication, request, .ok reply, after⟩).toList)
      after := by
  cases effect with
  | checkpointed candidate building belongs current advances =>
      exact account.accept listed belongs current advances
  | resumed fresh retained selector lost reconciled present unused recognized =>
      rw [show (Turn.acceptance _).toList = [] from rfl, List.append_nil]
      exact account.resume unused recognized
  | _ =>
      rw [show (Turn.acceptance _).toList = [] from rfl, List.append_nil]
      exact account.congr rfl rfl rfl rfl

end Steps

/-- The fields of a publication account for the turns of its run. -/
structure Account (identity : MergeIdentity) (old generation : Bytes) (history : List Turn)
    (publication : MergePublication) : Prop where
  identities : Identities identity generation (history.filterMap Turn.resumption)
    (history.filterMap Turn.preparation) publication
  decision : Decision old (history.filterMap Turn.settlement) publication
  retention : Retention (history.filterMap Turn.release) publication
  progress : Progress (history.filterMap Turn.acceptance) publication

/-- The current generation is one of those listed. -/
theorem Identities.listed {identity : MergeIdentity} {generation : Bytes}
    {resumed prepared : List Bytes} {publication : MergePublication}
    (account : Identities identity generation resumed prepared publication) :
    publication.generation ∈ publication.generations :=
  List.mem_of_getLast? account.current

theorem Account.start {identity : MergeIdentity} {old generation : Bytes}
    {publication : MergePublication} (made : make identity old generation = .ok publication) :
    Account identity old generation [] publication := by
  unfold make at made
  split at made
  · cases made
  · rcases outcome : distinctLoop id (fun version => !version.isEmpty)
        (.invalidArgument "missing merge input identity")
        (.invalidArgument "duplicate merge input identity") [] identity.inputVersions with
      fault | passed
    · rw [outcome] at made
      cases made
    · rw [outcome] at made
      cases made
      constructor
      · constructor <;> simp
      · constructor <;> simp
      · exact (if_pos rfl).mpr rfl
      · constructor <;> simp [ofGeneration]

theorem Account.step {identity : MergeIdentity} {old generation : Bytes} {history : List Turn}
    {publication : MergePublication} (account : Account identity old generation history publication)
    (request : Call) :
    Account identity old generation (history ++ [turn publication request])
      (turn publication request).after := by
  obtain ⟨identities, decision, retention, progress⟩ := account
  rcases turn_cases publication request with ⟨fault, same⟩ | ⟨reply, after, same, effect⟩
  · rw [same]
    constructor
    all_goals simp only [filterMap_concat, Turn.resumption_error, Turn.preparation_error,
      Turn.settlement_error, Turn.release_error, Turn.acceptance_error, Option.toList_none,
      List.append_nil]
    all_goals assumption
  · rw [same]
    constructor
    all_goals simp only [filterMap_concat]
    · exact identities.step effect
    · exact decision.step effect
    · exact retention.step effect
    · exact progress.step identities.listed effect

theorem Account.run {identity : MergeIdentity} {old generation : Bytes}
    {publication : MergePublication} (made : make identity old generation = .ok publication)
    (requests : List Call) :
    Account identity old generation (turns publication requests) (final publication requests) := by
  induction requests using List.reverseRecOn with
  | nil => exact Account.start made
  | append_singleton requests request induction =>
      rw [turns_concat, final_concat]
      exact induction.step request

/-- What one call of a run may do. -/
structure OrderlyTurn (identity : MergeIdentity) (one : Turn) : Prop where
  /-- A call which throws changes nothing. -/
  atomic : ∀ fault, one.answer = .error fault → one.after = one.before
  /-- The durable manifest changes by a settlement only, before the publication. -/
  settles : one.after.durableManifest ≠ one.before.durableManifest →
    one.before.stage ≠ .published ∧ one.settlement = some one.after.durableManifest
  /-- Publication is final. -/
  stays : one.before.stage = .published →
    one.after.stage = .published ∧ one.after.durableManifest = one.before.durableManifest
  /-- Pins are released in the published stage only. -/
  releases : ∀ retained, one.answer = .ok (.released retained) → one.before.stage = .published
  /-- A durable checkpoint belongs to the merge and its current generation, and advances. -/
  accepts : ∀ candidate, one.acceptance = some candidate →
    one.after.checkpoint = some candidate ∧ Belongs identity candidate ∧
      candidate.outputGeneration = one.before.generation ∧
      ∀ checkpoint, one.before.checkpoint = some checkpoint → Advances checkpoint candidate
  /-- Building resumes after an uncertain manifest with the old root selected only. -/
  resumes : one.before.stage = .uncertain → one.after.stage = .building →
    ∃ fresh retained selector,
      one.request = .resume fresh .durableStateVerified retained selector ∧
      one.answer = .ok .done ∧
      (retained = none ∨ retained = one.before.checkpoint) ∧
      (one.before.pendingManifest ≠ [] → selector = .oldRootSelected)

/-- What holds after a run with its turns. -/
structure OrderlyRun (old generation : Bytes) (history : List Turn) (last : MergePublication) :
    Prop where
  /-- The durable manifest is the old one until one fresh prepared manifest is settled. -/
  durable : (last.stage ≠ .published ∧ history.filterMap Turn.settlement = [] ∧
      last.durableManifest = old) ∨
    (last.stage = .published ∧
      history.filterMap Turn.settlement = [last.durableManifest] ∧ last.durableManifest ≠ old ∧
      (history.filterMap Turn.preparation).getLast? = some last.durableManifest)
  /-- No output generation is used twice. -/
  generations : (generation :: history.filterMap Turn.resumption).Nodup
  current : (generation :: history.filterMap Turn.resumption).getLast? = some last.generation
  /-- No manifest is used twice. -/
  manifests : (old :: history.filterMap Turn.preparation).Nodup
  pending : last.pendingManifest ≠ [] →
    (history.filterMap Turn.preparation).getLast? = some last.pendingManifest
  /-- Old pins may go in the published stage, and they go once. -/
  releasable : last.canReleaseOldPins = true ↔ last.stage = .published
  released : (history.filterMap Turn.release).length ≤ 1
  retained : last.oldPinsRetained = true ↔ history.filterMap Turn.release = []
  /-- The held checkpoint became durable in the run. -/
  held : ∀ checkpoint, last.checkpoint = some checkpoint →
    checkpoint ∈ history.filterMap Turn.acceptance
  /-- Durable checkpoints of one generation advance from each to the next. -/
  chain : ∀ output, (ofGeneration output (history.filterMap Turn.acceptance)).IsChain Advances

theorem Account.orderly {identity : MergeIdentity} {old generation : Bytes} {history : List Turn}
    {last : MergePublication} (account : Account identity old generation history last) :
    OrderlyRun old generation history last where
  durable := by
    by_cases published : last.stage = .published
    · obtain ⟨settled, listed⟩ := account.decision.decided published
      refine .inr ⟨published, settled, fun same => ?_, account.identities.manifests_eq ▸ listed⟩
      exact account.decision.old_fresh (same ▸ List.mem_of_getLast? listed)
    · exact .inl ⟨published, account.decision.undecided published⟩
  generations := account.identities.generations_eq ▸ account.identities.generations_nodup
  current := account.identities.generations_eq ▸ account.identities.current
  manifests := by
    rw [← account.identities.manifests_eq]
    exact List.nodup_cons.mpr ⟨account.decision.old_fresh, account.identities.manifests_nodup⟩
  pending := account.identities.manifests_eq ▸ account.decision.pending
  releasable := by simp [canReleaseOldPins]
  released := by
    have retention := account.retention
    unfold Retention at retention
    split at retention
    · simp [retention]
    · simp [retention.2]
  retained := by
    have retention := account.retention
    unfold Retention at retention
    split at retention <;> simp_all
  held := account.progress.held
  chain := account.progress.chain

/-- Every call from a publication which accounts for its run is orderly. -/
theorem Account.turn_orderly {identity : MergeIdentity} {old generation : Bytes}
    {history : List Turn} {publication : MergePublication}
    (account : Account identity old generation history publication) (request : Call) :
    OrderlyTurn identity (turn publication request) := by
  rcases turn_cases publication request with ⟨fault, same⟩ | ⟨reply, after, same, effect⟩
  · rw [same]
    constructor <;> simp_all
  · rw [same]
    have identity_eq := account.identities.identity_eq
    cases effect with
    | checkpointed candidate building belongs current advances =>
        constructor <;> try simp_all [Turn.settlement]
        rintro _ ⟨⟩
        refine ⟨rfl, identity_eq ▸ belongs, current, fun checkpoint held => ?_⟩
        have prior := account.progress.belongs checkpoint (account.progress.held checkpoint held)
        exact advances checkpoint held (identity_eq ▸ prior.1.inputs_eq)
    | resumed fresh retained selector lost reconciled present unused recognized =>
        constructor <;> simp_all [Turn.settlement, Turn.acceptance]
    | _ => constructor <;> simp_all [Turn.settlement, Turn.acceptance]

/-- Every run of calls on a new publication is orderly, call by call and as a whole. -/
theorem publication_protocol {identity : MergeIdentity} {old generation : Bytes}
    {first : MergePublication} (made : make identity old generation = .ok first)
    (requests : List Call) :
    OrderlyRun old generation (turns first requests) (final first requests) ∧
      ∀ one ∈ turns first requests, OrderlyTurn identity one := by
  refine ⟨(Account.run made requests).orderly, fun one member => ?_⟩
  obtain ⟨earlier, request, -, rfl⟩ := mem_turns member
  exact (Account.run made earlier).turn_orderly request

/-- A merge whose first manifest was lost and recovered. -/
theorem publication_protocol_recovered :
    ∃ first, make ⟨[1], [[2], [3]]⟩ [4] [5] = .ok first ∧
      OrderlyRun [4] [5]
        (turns first [.completeOutput .durableVerified, .prepareManifest [6],
          .completeManifest .failure, .acceptRecoveredPublication .durableStateVerified,
          .releaseOldPins])
        (final first [.completeOutput .durableVerified, .prepareManifest [6],
          .completeManifest .failure, .acceptRecoveredPublication .durableStateVerified,
          .releaseOldPins]) :=
  ⟨_, rfl, (@publication_protocol ⟨[1], [[2], [3]]⟩ [4] [5] _ rfl _).1⟩

end Everett.Durability

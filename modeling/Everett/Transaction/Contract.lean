import Everett.Transaction.Branches

/-!
# What transactions say

In every system of transactions which a session can reach, each transaction and each snapshot says
what its own edits make of the world which it began with.
-/

namespace Everett

variable {S : Type} {Key State Arrow : S → Type} {R C E B X : Type} [LinearOrder E]
  [DecidableEq ((s : S) × Key s)]

section
variable {env : TransactionEnv S R C E B X Key State Arrow} {sound : TypedWorld R → Prop}
  {tx tx' : Transaction R C E B Key Arrow} {t t' : NurseryTree E (NurseryValue B)}
  {h : NurseryHeap E (NurseryValue B)}

namespace Transaction.Consistent

theorem start {world : StoredWorld R} (is_sound : sound world.world) :
    (Transaction.start world : Transaction R C E B Key Arrow).Consistent env sound .nil :=
  ⟨is_sound, ⟨⟨rfl, rfl⟩, nofun⟩, .nil fun _ _ _ _ => rfl⟩

theorem branch {saved : TransactionSnapshot R E B Key Arrow}
    (consistent : saved.Consistent env sound t) : saved.branch.Consistent (C := C) env sound t :=
  ⟨consistent.sound, ⟨consistent.staged, nofun⟩, consistent.buffered⟩

theorem edit (consistent : tx.Consistent env sound t) {m : NurseryMap} {s : S} {key : Key s}
    {arrow : Arrow s} (buffered : Buffered env tx.stage.world
      (applyEdit env.semantics (editedStates env tx.origin tx.edits) ⟨s, key, arrow⟩)
      t'.bindings) : Consistent env sound { tx with
        nursery := m
        edits := tx.edits ++ [⟨s, key, arrow⟩] } t' := by
  refine ⟨consistent.sound, ⟨consistent.held.staged, consistent.held.core⟩, ?_⟩
  rw [editedStates_append]
  exact buffered

theorem fail (consistent : tx.Consistent env sound t) (core : Option C) :
    Consistent env sound { tx with
      core := core
      failed := true } t :=
  ⟨consistent.sound, ⟨consistent.held.staged, nofun⟩, consistent.buffered⟩

theorem release (consistent : tx.Consistent env sound t) : tx.release.Consistent env sound t :=
  ⟨consistent.sound, ⟨consistent.held.staged, nofun⟩, consistent.buffered⟩

end Transaction.Consistent

end

namespace TransactionSystem

/-- Systems of transactions which a session can reach. -/
inductive Reachable [∀ s, DecidableEq (State s)] (env : TransactionEnv S R C E B X Key State Arrow)
    (published : StoredWorld R → Prop) : TransactionSystem R C E B Key Arrow → Prop
  | initial : Reachable env published .initial
  | step {sys sys' : TransactionSystem R C E B Key Arrow} {i : Nat}
      (before : Reachable env published sys) (step : TransactionStep env published i sys sys') :
      Reachable env published sys'

section
variable {env : TransactionEnv S R C E B X Key State Arrow} {published : StoredWorld R → Prop}
  {sys sys' : TransactionSystem R C E B Key Arrow} {i j : Nat}
  {tx tx' : Transaction R C E B Key Arrow} {saved : TransactionSnapshot R E B Key Arrow}
  {trees rigid : Nat → NurseryTree E (NurseryValue B)}
  {apply : Applies (List (E × B)) ((p : (s : S) × Key s) → State p.1)} {schema : List UInt8}
  {valid : C → Prop} {sound : TypedWorld R → Prop}

/-- A transaction goes on with what a flush made of it. -/
theorem Inv.flush (inv : Inv env sound sys trees rigid)
    (laws : SortLaws env.semantics env.transport)
    (contract : CoreContract env.ops env.values apply schema valid sound)
    (applies : RecordsApply env apply) (here : sys.transactions i = some tx) {turns : Nat}
    (staged : tx.stageBatch env sys.heap turns = some (.ok (), tx')) :
    tx.requireActive (X := X) = .ok () ∧ tx'.requireActive (X := X) = .ok () ∧
      tx'.origin = tx.origin ∧ tx'.edits = tx.edits ∧
      ∃ t, Inv env sound (sys.update i tx' sys.heap) (Function.update trees i t) rigid ∧
        t.bindings = [] := by
  have consistent := inv.consistent i tx here
  have stored := inv.stored here
  obtain ⟨active, flushed⟩ := Transaction.stageBatch_ok laws contract applies consistent.sound
    stored consistent.buffered consistent.held staged
  refine ⟨active, ?_⟩
  cases flushed with
  | nothing empty =>
      refine ⟨active, rfl, rfl, trees i, ?_, empty⟩
      rw [Function.update_eq_self]
      exact inv.keep here rfl consistent
  | @staged core updated candidate world buffered =>
      refine ⟨active, rfl, rfl, .nil, inv.update here (inv.versions.put .nil fun _ _ _ _ => ?_) ?_,
        rfl⟩
      · exact fun _ _ _ => trivial
      · refine ⟨consistent.sound, ⟨⟨core, candidate, world⟩, fun c _ own => ?_⟩, buffered⟩
        cases own
        exact ⟨rfl, candidate⟩

/-- Other transactions, and snapshots which were taken, are not touched. -/
structure Untouched (i : Nat) (sys sys' : TransactionSystem R C E B Key Arrow) : Prop where
  transactions : ∀ i' tx, i' ≠ i → sys.transactions i' = some tx → sys'.transactions i' = some tx
  snapshots : ∀ j saved, sys.snapshots j = some saved → sys'.snapshots j = some saved

omit [LinearOrder E] [DecidableEq ((s : S) × Key s)] in
theorem untouched_update (h : NurseryHeap E (NurseryValue B)) :
    Untouched i sys (sys.update i tx h) :=
  ⟨fun _ _ other there => (Function.update_of_ne other _ _).trans there, fun _ _ there => there⟩

omit [LinearOrder E] [DecidableEq ((s : S) × Key s)] in
theorem untouched_take (fresh : sys.snapshots sys.taken = none) :
    Untouched i sys (sys.take i tx) := by
  refine ⟨fun _ _ other there => (Function.update_of_ne other _ _).trans there,
    fun j saved there => (Function.update_of_ne ?_ _ _).trans there⟩
  rintro rfl
  rw [fresh] at there
  cases there

omit [LinearOrder E] [DecidableEq ((s : S) × Key s)] in
theorem Untouched.trans {sys'' : TransactionSystem R C E B Key Arrow}
    (first : Untouched i sys sys') (second : Untouched i sys' sys'') : Untouched i sys sys'' :=
  ⟨fun i' tx other there => second.transactions i' tx other (first.transactions i' tx other there),
    fun j saved there => second.snapshots j saved (first.snapshots j saved there)⟩

variable [∀ s, DecidableEq (State s)]

/-- Every call keeps the invariant, and touches one transaction. -/
theorem Inv.step (inv : Inv env sound sys trees rigid)
    (laws : SortLaws env.semantics env.transport)
    (contract : CoreContract env.ops env.values apply schema valid sound)
    (applies : RecordsApply env apply) (all_sound : ∀ world, published world → sound world.world)
    (step : TransactionStep env published i sys sys') :
    (∃ trees' rigid', Inv env sound sys' trees' rigid') ∧ Untouched i sys sys' := by
  have last := inv.fresh_saved sys.taken (Nat.le_refl _)
  cases step with
  | start current =>
      have empty : ∀ i' m, sys.maps i' = some m → sys.heap.Exclusive m.edit .nil :=
        fun _ _ _ _ _ _ => trivial
      exact ⟨⟨_, _, inv.enter rfl .nil empty (.start (all_sound _ current))⟩,
        fun _ _ other there => (Function.update_of_ne other _ _).trans there,
        fun _ _ there => there⟩
  | @branch _ j saved here =>
      exact ⟨⟨_, _, inv.enter rfl (inv.stored_saved here)
        (fun i' m there => inv.versions.exclusive_frozen i' m there j _ (frozen_eq here))
        (.branch (inv.consistent_saved j saved here))⟩,
        fun _ _ other there => (Function.update_of_ne other _ _).trans there,
        fun _ _ there => there⟩
  | @change _ _ tx tx' heap here s key arrow accepted =>
      have consistent := inv.consistent i tx here
      obtain ⟨-, e, m', t', -, rfl, edited, buffered, -⟩ := Transaction.change_ok laws
        (inv.stored here) (inv.versions.issued i _ (maps_eq here)) consistent.buffered accepted
      exact ⟨⟨_, _, inv.update here (inv.versions.edit (maps_eq here) edited)
        (consistent.edit buffered)⟩, untouched_update heap⟩
  | snapshot here active => exact ⟨⟨_, _, inv.take here⟩, untouched_take last⟩
  | flush here turns staged =>
      obtain ⟨-, -, -, -, t, after, -⟩ := inv.flush laws contract applies here staged
      rw [take_eq]
      exact ⟨⟨_, _, after.take (Function.update_self ..)⟩,
        (untouched_update _).trans (untouched_take last)⟩
  | @flushFailed _ _ tx tx' here turns error thrown =>
      refine ⟨?_, untouched_update _⟩
      have consistent := inv.consistent i tx here
      rcases Transaction.stageBatch_error thrown with rfl | ⟨core, rfl⟩
      · exact ⟨_, _, inv.keep here rfl consistent⟩
      · exact ⟨_, _, inv.keep here rfl (consistent.fail core)⟩
  | @commit _ _ tx tx' here turns staged prepared submitted =>
      obtain ⟨-, -, -, -, t, after, -⟩ := inv.flush laws contract applies here staged
      have taken := after.take (Function.update_self ..)
      rw [← take_eq] at taken
      have present : (sys.take i tx').transactions i = some tx' := Function.update_self ..
      refine ⟨⟨_, _, taken.keep present rfl (taken.consistent i tx' present).release⟩, ?_⟩
      rw [take_eq]
      exact ((untouched_update _).trans (untouched_take last)).trans (untouched_update _)
  | @abort _ _ tx here =>
      exact ⟨⟨_, _, inv.keep here rfl (inv.consistent i tx here).release⟩, untouched_update _⟩

theorem Reachable.inv (reachable : Reachable env published sys)
    (laws : SortLaws env.semantics env.transport)
    (contract : CoreContract env.ops env.values apply schema valid sound)
    (applies : RecordsApply env apply)
    (all_sound : ∀ world, published world → sound world.world) :
    ∃ trees rigid, Inv env sound sys trees rigid := by
  induction reachable with
  | initial => exact ⟨_, _, .initial⟩
  | step _ step induction =>
      obtain ⟨trees, rigid, inv⟩ := induction
      exact (inv.step laws contract applies all_sound step).1

omit [∀ s, DecidableEq (State s)] in
/-- A transaction with the base and the edits of another says the same, and so does its snapshot. -/
theorem Inv.take_same (inv : Inv env sound sys trees rigid)
    (laws : SortLaws env.semantics env.transport) (here : sys.transactions i = some tx)
    {trees' rigid' : Nat → NurseryTree E (NurseryValue B)}
    (after : Inv env sound (sys.take i tx') trees' rigid')
    (active : tx.requireActive (X := X) = .ok ()) (active' : tx'.requireActive (X := X) = .ok ())
    (origin : tx'.origin = tx.origin) (edits : tx'.edits = tx.edits) : ∃ saved,
    (sys.take i tx').transactions i = some tx' ∧ (sys.take i tx').snapshots sys.taken = some saved ∧
    ∀ s key, tx'.get env (sys.take i tx').heap s key = tx.get env sys.heap s key ∧
      saved.get env (sys.take i tx').heap s key = tx.get env sys.heap s key := by
  have present : (sys.take i tx').transactions i = some tx' := Function.update_self ..
  have taken : (sys.take i tx').snapshots sys.taken = some (tx'.snapshot sys.heap).1 :=
    Function.update_self ..
  refine ⟨_, present, taken, fun s key => ?_⟩
  rw [after.get_eq laws present, after.get_saved_eq laws taken, inv.get_eq laws here, active,
    active', origin, edits]
  refine ⟨rfl, ?_⟩
  change env.reading (editedStates env tx'.origin tx'.edits) s key = _
  rw [origin, edits]
  rfl

end

end TransactionSystem

open TransactionSystem

variable [∀ s, DecidableEq (State s)]

/-- What the transactions and snapshots of a system say, and what calls on them do. -/
structure TransactionSemantics (env : TransactionEnv S R C E B X Key State Arrow)
    (published : StoredWorld R → Prop) (sys : TransactionSystem R C E B Key Arrow) : Prop where
  /-- Each transaction says what its edits, one after the other, make of its base. -/
  get : ∀ i tx, sys.transactions i = some tx → ∀ s key, tx.get env sys.heap s key =
    (tx.requireActive >>= fun _ => env.reading (editedStates env tx.origin tx.edits) s key)
  get_saved : ∀ j saved, sys.snapshots j = some saved → ∀ s key, saved.get env sys.heap s key =
    env.reading (editedStates env saved.origin saved.edits) s key
  /-- An accepted change is one more edit. -/
  change : ∀ i tx, sys.transactions i = some tx → ∀ s key arrow tx' heap,
    tx.change env sys.heap s key arrow = .ok (tx', heap) →
    tx'.origin = tx.origin ∧ tx'.edits = tx.edits ++ [⟨s, key, arrow⟩]
  /-- A replacement which restores the staged state leaves nothing buffered for its key. -/
  restored : ∀ i tx, sys.transactions i = some tx → ∀ s key arrow tx' heap,
    tx.change env sys.heap s key arrow = .ok (tx', heap) → env.semantics.replacement s = true →
    env.semantics.apply s key (editedStates env tx.origin tx.edits ⟨s, key⟩) arrow =
      env.values tx.stage.world.runtime ⟨s, key⟩ →
    ∀ e, env.transport.encode s key = .ok e → NurseryMap.find heap tx'.nursery.root e = some none
  /-- A change of an absent key which leaves it absent is refused; so is a deletion. -/
  absent : ∀ i tx, sys.transactions i = some tx → tx.requireActive (X := X) = .ok () →
    ∀ s key e, env.transport.encode s key = .ok e → env.semantics.replacement s = true →
    env.semantics.present s key (editedStates env tx.origin tx.edits ⟨s, key⟩) = false →
    (∀ arrow, env.semantics.present s key
      (env.semantics.apply s key (editedStates env tx.origin tx.edits ⟨s, key⟩) arrow) = false →
      tx.change env sys.heap s key arrow = .error .absent) ∧
    tx.erase env sys.heap s key = .error .absent
  /-- A flushed transaction says what it said before, and so does the snapshot of the flush. -/
  flush : ∀ i tx, sys.transactions i = some tx → ∀ turns tx',
    tx.stageBatch env sys.heap turns = some (.ok (), tx') → ∃ saved,
    (sys.take i tx').transactions i = some tx' ∧ (sys.take i tx').snapshots sys.taken = some saved ∧
    ∀ s key, tx'.get env (sys.take i tx').heap s key = tx.get env sys.heap s key ∧
      saved.get env (sys.take i tx').heap s key = tx.get env sys.heap s key
  /-- So does the snapshot of an active transaction. -/
  snapshot : ∀ i tx, sys.transactions i = some tx → tx.requireActive (X := X) = .ok () → ∃ saved,
    (sys.take i tx).transactions i = some tx ∧ (sys.take i tx).snapshots sys.taken = some saved ∧
    ∀ s key, tx.get env (sys.take i tx).heap s key = tx.get env sys.heap s key ∧
      saved.get env (sys.take i tx).heap s key = tx.get env sys.heap s key
  /-- A branch begins with what its snapshot says. -/
  branch : ∀ j saved, sys.snapshots j = some saved →
    (sys.enter saved.branch).transactions sys.begun = some saved.branch ∧
    ∀ s key, saved.branch.get env (sys.enter saved.branch).heap s key =
      saved.get env sys.heap s key
  /-- A call of one transaction changes nothing of what others and earlier snapshots say. -/
  others : ∀ i sys', TransactionStep env published i sys sys' →
    (∀ i' tx, i' ≠ i → sys.transactions i' = some tx → sys'.transactions i' = some tx ∧
      ∀ s key, tx.get env sys'.heap s key = tx.get env sys.heap s key) ∧
    (∀ j saved, sys.snapshots j = some saved → sys'.snapshots j = some saved ∧
      ∀ s key, saved.get env sys'.heap s key = saved.get env sys.heap s key)
  /-- The world which a commit submits has the states of its branch. -/
  commit : ∀ i tx, sys.transactions i = some tx → ∀ turns tx' prepared,
    tx.stageBatch env sys.heap turns = some (.ok (), tx') → tx'.prepare env = .ok prepared →
    prepared.Prepared env.ops ∧ prepared.base = tx.origin ∧
    ∀ s key e, env.transport.encode s key = .ok e →
      env.values (prepared.core.elim tx.origin.world env.ops.snapshot).runtime ⟨s, key⟩ =
        editedStates env tx.origin tx.edits ⟨s, key⟩

theorem transaction_semantics {env : TransactionEnv S R C E B X Key State Arrow}
    {published : StoredWorld R → Prop}
    {apply : Applies (List (E × B)) ((p : (s : S) × Key s) → State p.1)} {schema : List UInt8}
    {valid : C → Prop} {sound : TypedWorld R → Prop}
    (laws : SortLaws env.semantics env.transport)
    (contract : CoreContract env.ops env.values apply schema valid sound)
    (applies : RecordsApply env apply) (all_sound : ∀ world, published world → sound world.world)
    {sys : TransactionSystem R C E B Key Arrow} (reachable : sys.Reachable env published) :
    TransactionSemantics env published sys := by
  obtain ⟨trees, rigid, inv⟩ := reachable.inv laws contract applies all_sound
  constructor
  case get => exact fun i tx here s key => inv.get_eq laws here s key
  case get_saved => exact fun j saved here s key => inv.get_saved_eq laws here s key
  case change =>
    intro i tx here s key arrow tx' heap accepted
    obtain ⟨-, e, m', t', -, rfl, -⟩ := Transaction.change_ok laws (inv.stored here)
      (inv.versions.issued i _ (maps_eq here)) (inv.consistent i tx here).buffered accepted
    exact ⟨rfl, rfl⟩
  case restored =>
    intro i tx here s key arrow tx' heap accepted replaces back e encoded
    obtain ⟨-, e', m', t', encoded', rfl, edited, -, gone⟩ := Transaction.change_ok laws
      (inv.stored here) (inv.versions.issued i _ (maps_eq here))
      (inv.consistent i tx here).buffered accepted
    rw [encoded] at encoded'
    cases encoded'
    exact (NurseryMap.find_ok edited.stored e).trans (congrArg some (gone replaces back))
  case absent =>
    intro i tx here active s key e encoded replaces was
    have refused : ∀ arrow, env.semantics.present s key (env.semantics.apply s key
        (editedStates env tx.origin tx.edits ⟨s, key⟩) arrow) = false →
        tx.change env sys.heap s key arrow = .error .absent := fun arrow =>
      Transaction.change_absent laws (inv.stored here) (inv.consistent i tx here).buffered encoded
        active replaces was
    exact ⟨refused, refused _ (laws.present_erase s key _ replaces)⟩
  case flush =>
    intro i tx here turns tx' staged
    obtain ⟨active, active', origin, edits, t, after, -⟩ :=
      inv.flush laws contract applies here staged
    have taken := after.take (Function.update_self ..)
    rw [← take_eq] at taken
    exact inv.take_same laws here taken active active' origin edits
  case snapshot =>
    intro i tx here active
    exact inv.take_same laws here (inv.take here) active active rfl rfl
  case branch =>
    intro j saved here
    refine ⟨Function.update_self .., fun s key => ?_⟩
    unfold Transaction.get TransactionSnapshot.get
    rfl
  case others =>
    intro i sys' step
    obtain ⟨⟨trees', rigid', after⟩, untouched⟩ :=
      inv.step laws contract applies all_sound step
    refine ⟨fun i' tx other here => ?_, fun j saved here => ?_⟩
    · have there := untouched.transactions i' tx other here
      refine ⟨there, fun s key => ?_⟩
      rw [after.get_eq laws there, inv.get_eq laws here]
    · have there := untouched.snapshots j saved here
      refine ⟨there, fun s key => ?_⟩
      rw [after.get_saved_eq laws there, inv.get_saved_eq laws here]
  case commit =>
    intro i tx here turns tx' prepared staged submitted
    obtain ⟨-, active, origin, edits, t, after, nothing⟩ :=
      inv.flush laws contract applies here staged
    have consistent := after.consistent i tx' (Function.update_self ..)
    rw [Function.update_self] at consistent
    obtain ⟨is_prepared, base, -, submits⟩ := tx'.prepare_ok contract consistent.sound consistent.held
      (Transaction.requireActive_eq_ok.mp active).2 submitted
    refine ⟨is_prepared, base.trans origin, fun s key e encoded => ?_⟩
    have unbuffered := consistent.buffered.unbuffered s key e encoded (by rw [nothing]; rfl)
    rw [← origin, ← edits, submits, unbuffered]

/-- One sort of replaced values, whose records a core keeps in a list, newest first. -/
def replacementEnv : TransactionEnv Unit (List (Nat × Option Nat))
    (TypedWorld (List (Nat × Option Nat))) Nat (Option Nat) Unit (fun _ => Nat)
    (fun _ => Option Nat) (fun _ => Option Nat) where
  semantics := {
    initial _ _ := none
    apply _ _ _ arrow := arrow
    compose _ _ _ newer := newer
    present _ _ state := state.isSome
    erase _ _ := none
    replacement _ := true
    stateIsArrow _ := true
    quote _ state := state }
  transport := {
    encode _ key := .ok key
    dispatch e := .ok ⟨(), e⟩
    value _ arrow := .ok arrow
    arrow _ b := .ok b }
  ops := {
    snapshot := id
    pending _ := false
    failed _ := false
    contribute core records :=
      (.ok ⟨records ++ core.runtime, core.metadata⟩, ⟨records ++ core.runtime, core.metadata⟩)
    advance core _ := (.ok none, core)
    rebase _ world := .ok world
    fromSnapshot world := .ok world
    poison := id
    isEmpty := List.isEmpty
    sameLayout a b := a = b
    admissions := List.length
    mapped := id }
  values runtime p := (valueAt p.2 runtime).join
  ready _ := true
  budget := 1
  persist _ := .ok ()

/-- What the records of a batch do. -/
def replacementApply :
    Applies (List (Nat × Option Nat)) ((p : (_ : Unit) × Nat) → Option Nat) :=
  fun records state => some { state with
    values := fun p => (valueAt p.2 records).getD (state.values p) }

theorem replacementLaws : SortLaws replacementEnv.semantics replacementEnv.transport where
  apply_compose _ _ _ _ _ composes := by cases composes
  apply_replacement _ _ _ _ _ _ := rfl
  present_erase _ _ _ _ := rfl
  apply_quote _ _ _ _ _ := rfl
  dispatch_encode same := by
    cases same
    rfl
  arrow_value same := by
    cases same
    rfl

theorem replacementContract : CoreContract replacementEnv.ops replacementEnv.values
    replacementApply [1] (fun core => core.metadata.schemaId = [1] ∧ core.metadata.liveCount = 0)
    (fun world => world.metadata.schemaId = [1] ∧ world.metadata.liveCount = 0) where
  sound_snapshot is_valid := is_valid
  sound_stored is_sound := is_sound
  schema_eq is_sound := is_sound.1
  counted is_sound := by
    rw [is_sound.2]
    exact Nat.zero_le _
  mapped_values _ := rfl
  contribute_ok := by
    rintro core _ records _ is_valid - same
    cases same
    refine ⟨is_valid, rfl, rfl, ?_⟩
    simp only [replacementApply, TypedWorld.logicalState, replacementEnv, id]
    congr 2
    funext p
    rw [valueAt_append]
    cases valueAt p.2 records <;> rfl
  contribute_error := by
    rintro core _ records _ _ - same
    cases same
  empty := by
    intro records none_given state
    cases List.isEmpty_iff.mp none_given
    rfl
  advance_none := by
    rintro core _ _ is_valid - same
    cases same
    exact ⟨is_valid, rfl, rfl⟩
  advance_some := by
    rintro core _ _ _ - - same
    cases same
  rebase_ok is_valid _ _ := ⟨_, rfl, is_valid, rfl, rfl⟩
  fromSnapshot_ok := by
    rintro world _ is_sound same
    cases same
    exact ⟨is_sound, rfl, rfl⟩

theorem replacementRecords : RecordsApply replacementEnv replacementApply where
  unrecorded := by
    intro records before after s key e _ applied encoded absent
    cases applied
    cases encoded
    change (valueAt key records).getD _ = _
    rw [absent, Option.getD_none]
  recorded := by
    intro records before after s key e b arrow _ applied encoded found decoded
    cases applied
    cases encoded
    cases decoded
    change (valueAt key records).getD _ = _
    rw [found, Option.getD_some]
    rfl

/-- A key is put, and a branch begins from the snapshot after it. -/
theorem transaction_semantics_branch : ∃ sys, sys.begun = 2 ∧ sys.taken = 1 ∧
    TransactionSemantics replacementEnv
      (fun world => world.world.metadata.schemaId = [1] ∧ world.world.metadata.liveCount = 0)
      sys := by
  have started : Reachable replacementEnv
      (fun world => world.world.metadata.schemaId = [1] ∧ world.world.metadata.liveCount = 0)
      (initial.enter (.start ⟨⟨[], 0, 0, [1]⟩, ⟨7, [], []⟩, 0⟩)) :=
    .step .initial (.start ⟨rfl, rfl⟩)
  have changed := started.step (.change (i := 0) rfl () 3 (some 4) rfl)
  have saved := changed.step (.snapshot (i := 0) rfl rfl)
  refine ⟨_, ?_, ?_, transaction_semantics replacementLaws replacementContract replacementRecords
    (fun _ current => current) (saved.step (.branch (j := 0) rfl))⟩
  · rfl
  · rfl

end Everett

import Everett.Transaction.Flush

/-!
# Trees of transactions and snapshots

Every transaction and every snapshot says what its own history says, whatever the others do: their
nurseries are versions of each other in one memory, and no call changes a stage.
-/

namespace Everett

variable {S : Type} {Key State Arrow : S → Type} {R C E B X : Type} [LinearOrder E]
  [DecidableEq ((s : S) × Key s)]

/-- A transaction whose nursery leads from its stage to the states of its history. -/
structure Transaction.Consistent (env : TransactionEnv S R C E B X Key State Arrow)
    (sound : TypedWorld R → Prop) (tx : Transaction R C E B Key Arrow)
    (t : NurseryTree E (NurseryValue B)) : Prop where
  sound : sound tx.origin.world
  held : tx.Held env
  buffered : Buffered env tx.stage.world (editedStates env tx.origin tx.edits) t.bindings

/-- A snapshot whose nursery leads from its stage to the states of its history. -/
structure TransactionSnapshot.Consistent (env : TransactionEnv S R C E B X Key State Arrow)
    (sound : TypedWorld R → Prop) (saved : TransactionSnapshot R E B Key Arrow)
    (t : NurseryTree E (NurseryValue B)) : Prop where
  sound : sound saved.origin.world
  staged : Staged env saved.origin saved.stage saved.flushed
  buffered : Buffered env saved.stage.world (editedStates env saved.origin saved.edits) t.bindings

/-- The reading of a key in some states: all keys which can be encoded have one. -/
def TransactionEnv.reading (env : TransactionEnv S R C E B X Key State Arrow)
    (states : (p : (s : S) × Key s) → State p.1) (s : S) (key : Key s) :
    Except (TransactionError X) (State s) := do
  let _ ← raise (env.transport.encode s key)
  .ok (states ⟨s, key⟩)

namespace TransactionSystem

variable {env : TransactionEnv S R C E B X Key State Arrow} {published : StoredWorld R → Prop}
  {sys sys' : TransactionSystem R C E B Key Arrow} {i j : Nat}
  {tx tx' : Transaction R C E B Key Arrow} {saved : TransactionSnapshot R E B Key Arrow}
  {trees rigid : Nat → NurseryTree E (NurseryValue B)} {t : NurseryTree E (NurseryValue B)}
  {h : NurseryHeap E (NurseryValue B)} {sound : TypedWorld R → Prop}

/-- The nurseries of all transactions. -/
def maps (sys : TransactionSystem R C E B Key Arrow) (i : Nat) : Option NurseryMap :=
  (sys.transactions i).map Transaction.nursery

/-- The nurseries of all snapshots. -/
def frozen (sys : TransactionSystem R C E B Key Arrow) (j : Nat) : Option NurserySnapshot :=
  (sys.snapshots j).map TransactionSnapshot.nursery

omit [LinearOrder E] [DecidableEq ((s : S) × Key s)] in
theorem maps_eq (here : sys.transactions i = some tx) : sys.maps i = some tx.nursery := by
  rw [maps, here, Option.map_some]

omit [LinearOrder E] [DecidableEq ((s : S) × Key s)] in
theorem frozen_eq (here : sys.snapshots j = some saved) : sys.frozen j = some saved.nursery := by
  rw [frozen, here, Option.map_some]

omit [LinearOrder E] [DecidableEq ((s : S) × Key s)] in
@[simp] theorem maps_update (h : NurseryHeap E (NurseryValue B)) :
    (sys.update i tx h).maps = Function.update sys.maps i (some tx.nursery) := by
  funext i'
  by_cases same : i' = i
  · subst same
    simp [maps, update]
  · simp [maps, update, Function.update_of_ne same]

omit [LinearOrder E] [DecidableEq ((s : S) × Key s)] in
@[simp] theorem maps_enter :
    (sys.enter tx).maps = Function.update sys.maps sys.begun (some tx.nursery) := by
  funext i'
  by_cases same : i' = sys.begun
  · subst same
    simp [maps, enter]
  · simp [maps, enter, Function.update_of_ne same]

omit [LinearOrder E] [DecidableEq ((s : S) × Key s)] in
@[simp] theorem frozen_take : (sys.take i tx).frozen =
    Function.update sys.frozen sys.taken (some (tx.nursery.freeze sys.heap).1) := by
  funext j'
  by_cases same : j' = sys.taken
  · subst same
    simp [frozen, take, Transaction.snapshot]
  · simp [frozen, take, Function.update_of_ne same]

omit [LinearOrder E] [DecidableEq ((s : S) × Key s)] in
/-- A call which takes a snapshot first brings its transaction to where it is. -/
theorem take_eq : sys.take i tx = (sys.update i tx sys.heap).take i tx := by
  simp only [take, update, Function.update_idem]

/-- All nurseries are versions in one memory, and each leads to the states of its history. -/
structure Inv (env : TransactionEnv S R C E B X Key State Arrow) (sound : TypedWorld R → Prop)
    (sys : TransactionSystem R C E B Key Arrow) (trees rigid : Nat → NurseryTree E (NurseryValue B)) :
    Prop where
  versions : Versions sys.heap sys.maps sys.frozen trees rigid
  consistent : ∀ i tx, sys.transactions i = some tx → tx.Consistent env sound (trees i)
  consistent_saved : ∀ j saved, sys.snapshots j = some saved →
    saved.Consistent env sound (rigid j)
  fresh : ∀ i, sys.begun ≤ i → sys.transactions i = none
  fresh_saved : ∀ j, sys.taken ≤ j → sys.snapshots j = none

namespace Inv

theorem initial : Inv env sound (.initial : TransactionSystem R C E B Key Arrow) (fun _ => .nil)
    (fun _ => .nil) := by
  refine ⟨⟨?_, ?_, ?_, ?_, ?_, ?_⟩, ?_, ?_, fun _ _ => rfl, fun _ _ => rfl⟩ <;> nofun

theorem stored (inv : Inv env sound sys trees rigid) (here : sys.transactions i = some tx) :
    sys.heap.Stored tx.nursery.root tx.nursery.size (trees i) :=
  inv.versions.stored i _ (maps_eq here)

theorem stored_saved (inv : Inv env sound sys trees rigid) (here : sys.snapshots j = some saved) :
    sys.heap.Stored saved.nursery.root saved.nursery.size (rigid j) :=
  inv.versions.stored_frozen j _ (frozen_eq here)

/-- A transaction begins. -/
theorem enter (inv : Inv env sound sys trees rigid) {root : Option Nat} {size : Nat}
    (nursery : tx.nursery = ⟨root, none, size⟩) (stored : sys.heap.Stored root size t)
    (exclusive : ∀ i' m, sys.maps i' = some m → sys.heap.Exclusive m.edit t)
    (consistent : tx.Consistent env sound t) :
    Inv env sound (sys.enter tx) (Function.update trees sys.begun t) rigid := by
  obtain ⟨versions, each, each_saved, fresh, fresh_saved⟩ := inv
  refine ⟨?_, ?_, each_saved, ?_, fresh_saved⟩
  · rw [maps_enter, nursery]
    exact versions.put stored fun i' m _ there => exclusive i' m there
  · intro i' tx' there
    change Function.update sys.transactions sys.begun (some tx) i' = some tx' at there
    by_cases same : i' = sys.begun
    · subst same
      rw [Function.update_self] at there ⊢
      cases there
      exact consistent
    · rw [Function.update_of_ne same] at there ⊢
      exact each i' tx' there
  · intro i' later
    change Function.update sys.transactions sys.begun (some tx) i' = none
    change sys.begun + 1 ≤ i' at later
    rw [Function.update_of_ne (by omega)]
    exact fresh i' (by omega)

/-- A transaction goes on. -/
theorem update (inv : Inv env sound sys trees rigid) (here : sys.transactions i = some tx)
    (versions : Versions h (Function.update sys.maps i (some tx'.nursery)) sys.frozen
      (Function.update trees i t) rigid) (consistent : tx'.Consistent env sound t) :
    Inv env sound (sys.update i tx' h) (Function.update trees i t) rigid := by
  obtain ⟨-, each, each_saved, fresh, fresh_saved⟩ := inv
  refine ⟨?_, ?_, each_saved, ?_, fresh_saved⟩
  · rw [maps_update]
    exact versions
  · intro i' other there
    change Function.update sys.transactions i (some tx') i' = some other at there
    by_cases same : i' = i
    · subst same
      rw [Function.update_self] at there ⊢
      cases there
      exact consistent
    · rw [Function.update_of_ne same] at there ⊢
      exact each i' other there
  · intro i' later
    have elsewhere : i' ≠ i := by
      rintro rfl
      rw [fresh i' later] at here
      cases here
    change Function.update sys.transactions i (some tx') i' = none
    rw [Function.update_of_ne elsewhere]
    exact fresh i' later

/-- A transaction goes on with its nursery. -/
theorem keep (inv : Inv env sound sys trees rigid) (here : sys.transactions i = some tx)
    (nursery : tx'.nursery = tx.nursery) (consistent : tx'.Consistent env sound (trees i)) :
    Inv env sound (sys.update i tx' sys.heap) trees rigid := by
  have updated := inv.update (h := sys.heap) (t := trees i) here ?_ consistent
  · rwa [Function.update_eq_self] at updated
  · rw [nursery, ← maps_eq here, Function.update_eq_self, Function.update_eq_self]
    exact inv.versions

/-- A snapshot is taken. -/
theorem take (inv : Inv env sound sys trees rigid) (here : sys.transactions i = some tx) :
    Inv env sound (sys.take i tx) trees (Function.update rigid sys.taken (trees i)) := by
  have same_maps : (sys.take i tx).maps = sys.maps := by
    change (sys.update i tx sys.heap).maps = sys.maps
    rw [maps_update, ← maps_eq here, Function.update_eq_self]
  have same_transactions : (sys.take i tx).transactions = sys.transactions := by
    change Function.update sys.transactions i (some tx) = _
    rw [← here, Function.update_eq_self]
  obtain ⟨versions, each, each_saved, fresh, fresh_saved⟩ := inv
  refine ⟨?_, ?_, ?_, ?_, ?_⟩
  · rw [frozen_take, same_maps]
    exact versions.freeze (maps_eq here)
  · rw [same_transactions]
    exact each
  · intro j saved there
    change Function.update sys.snapshots sys.taken (some _) j = some saved at there
    by_cases same : j = sys.taken
    · subst same
      rw [Function.update_self] at there ⊢
      cases there
      have consistent := each i tx here
      exact ⟨consistent.sound, consistent.held.staged, consistent.buffered⟩
    · rw [Function.update_of_ne same] at there ⊢
      exact each_saved j saved there
  · rw [same_transactions]
    exact fresh
  · intro j later
    change Function.update sys.snapshots sys.taken (some _) j = none
    change sys.taken + 1 ≤ j at later
    rw [Function.update_of_ne (by omega)]
    exact fresh_saved j (by omega)

/-- What a transaction says. -/
theorem get_eq (inv : Inv env sound sys trees rigid) (laws : SortLaws env.semantics env.transport)
    (here : sys.transactions i = some tx) (s : S) (key : Key s) :
    tx.get env sys.heap s key =
      (tx.requireActive >>= fun _ => env.reading (editedStates env tx.origin tx.edits) s key) := by
  unfold Transaction.get
  refine congrArg (tx.requireActive >>= ·) (funext fun _ => ?_)
  cases encoded : env.transport.encode s key with
  | error error =>
      rw [TransactionEnv.read, TransactionEnv.reading, encoded]
      rfl
  | ok e =>
      rw [(inv.consistent i tx here).buffered.read laws (inv.stored here) rfl encoded,
        TransactionEnv.reading, encoded]
      rfl

/-- What a snapshot says. -/
theorem get_saved_eq (inv : Inv env sound sys trees rigid)
    (laws : SortLaws env.semantics env.transport) (here : sys.snapshots j = some saved) (s : S)
    (key : Key s) : saved.get env sys.heap s key =
      env.reading (editedStates env saved.origin saved.edits) s key := by
  unfold TransactionSnapshot.get
  cases encoded : env.transport.encode s key with
  | error error =>
      rw [TransactionEnv.read, TransactionEnv.reading, encoded]
      rfl
  | ok e =>
      rw [(inv.consistent_saved j saved here).buffered.read laws (inv.stored_saved here) rfl
        encoded, TransactionEnv.reading, encoded]
      rfl

end Inv

end TransactionSystem

end Everett

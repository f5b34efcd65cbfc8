import Everett.Nursery.Version

/-!
# Persistence of nursery maps

Any number of transient maps and snapshots in one memory.  Every one of them is the table of its own
edits in a balanced search tree, and a snapshot reads the same forever.
-/

namespace Everett

variable {K V : Type}

/-- Transient maps and snapshots which share their nodes. -/
structure NurseryWorld (K V : Type) where
  heap : NurseryHeap K V
  maps : List NurseryMap
  snapshots : List NurserySnapshot

/-- Calls on maps and snapshots, which are named in the order of their making. -/
inductive NurseryAction (K V : Type)
  | create
  | insertOrAssign (map : Nat) (key : K) (value : V)
  | erase (map : Nat) (key : K)
  | freeze (map : Nat)
  | thaw (snapshot : Nat)

/-- The tables which maps and snapshots stand for. -/
structure NurseryTables (K V : Type) where
  maps : List (List (K × V))
  snapshots : List (List (K × V))

namespace NurseryTables

/-- Before the first map. -/
def initial : NurseryTables K V := ⟨[], []⟩

variable [LinearOrder K]

/-- A call, replayed on tables: an edit changes the table of its own map alone. -/
def step (tables : NurseryTables K V) : NurseryAction K V → NurseryTables K V
  | .create => { tables with maps := tables.maps ++ [[]] }
  | .insertOrAssign map key value =>
      { tables with maps := tables.maps.modify map (assign key value) }
  | .erase map key => { tables with maps := tables.maps.modify map (Everett.erase key) }
  | .freeze map => { tables with snapshots := tables.snapshots ++ tables.maps[map]?.toList }
  | .thaw snapshot => { tables with maps := tables.maps ++ tables.snapshots[snapshot]?.toList }

/-- All calls of a history. -/
def replay (tables : NurseryTables K V) (history : List (NurseryAction K V)) : NurseryTables K V :=
  history.foldl step tables

/-- The tables of snapshots stay. -/
theorem snapshots_replay (tables : NurseryTables K V) (history : List (NurseryAction K V)) :
    tables.snapshots <+: (tables.replay history).snapshots := by
  induction history generalizing tables with
  | nil => exact List.prefix_rfl
  | cons action history induction =>
      have one : tables.snapshots <+: (tables.step action).snapshots := by
        cases action with
        | freeze map => exact List.prefix_append _ _
        | _ => exact List.prefix_rfl
      exact one.trans (induction (tables.step action))

end NurseryTables

namespace NurseryWorld

/-- Before the first map. -/
def initial : NurseryWorld K V := ⟨.initial, [], []⟩

variable [LinearOrder K]

/-- A call; there is none on a map or snapshot which was not made. -/
def step (w : NurseryWorld K V) : NurseryAction K V → Option (NurseryWorld K V)
  | .create => some { w with maps := w.maps ++ [.empty] }
  | .insertOrAssign map key value =>
      match w.maps[map]? with
      | none => some w
      | some m => do
          let (m, heap) ← m.insertOrAssign w.heap key value
          some { w with heap, maps := w.maps.set map m }
  | .erase map key =>
      match w.maps[map]? with
      | none => some w
      | some m => do
          let (m, heap) ← m.erase w.heap key
          some { w with heap, maps := w.maps.set map m }
  | .freeze map =>
      match w.maps[map]? with
      | none => some w
      | some m =>
          let (snapshot, heap) := m.freeze w.heap
          some { w with heap, snapshots := w.snapshots ++ [snapshot] }
  | .thaw snapshot =>
      match w.snapshots[snapshot]? with
      | none => some w
      | some s => some { w with maps := w.maps ++ [.thaw s] }

/-- All calls of a history. -/
def run (w : NurseryWorld K V) (history : List (NurseryAction K V)) : Option (NurseryWorld K V) :=
  history.foldlM step w

/-- A handle reads as a table, which its nodes hold in a balanced search tree. -/
structure Behaves (h : NurseryHeap K V) (root : Option Nat) (size : Nat) (table : List (K × V)) :
    Prop where
  find : ∀ key, NurseryMap.find h root key = some (valueAt key table)
  size : size = table.length
  entries : NurseryMap.entries h root = some table
  ordered : Ordered table
  tree : ∃ t : NurseryTree K V, h.Held t ∧ t.root = root ∧ t.bindings = table ∧ t.shape.Balanced

/-- A list of handles stands for a list of tables. -/
def Tabled {α : Type} (handles : List α) (trees : Nat → NurseryTree K V)
    (tables : List (List (K × V))) : Prop :=
  ∀ i, tables[i]? = handles[i]?.map fun _ => (trees i).bindings

/-- What holds between memory and tables. -/
structure Reflects (w : NurseryWorld K V) (tables : NurseryTables K V)
    (trees rigid : Nat → NurseryTree K V) : Prop where
  versions : Versions w.heap (fun i => w.maps[i]?) (fun j => w.snapshots[j]?) trees rigid
  maps : Tabled w.maps trees tables.maps
  snapshots : Tabled w.snapshots rigid tables.snapshots
  balanced : ∀ i m, w.maps[i]? = some m → (trees i).shape.Balanced
  rigid_balanced : ∀ j s, w.snapshots[j]? = some s → (rigid j).shape.Balanced

variable {w : NurseryWorld K V} {tables : NurseryTables K V} {trees rigid : Nat → NurseryTree K V}

omit [LinearOrder K] in
theorem getElem?_concat {α : Type} (list : List α) (a : α) :
    (fun i => (list ++ [a])[i]?) = Function.update (fun i => list[i]?) list.length (some a) := by
  funext i
  rw [Function.update_apply]
  split
  · rename_i same
    rw [same, List.getElem?_concat_length]
  · rename_i other
    rcases lt_or_gt_of_ne other with less | more
    · rw [List.getElem?_append_left less]
    · rw [List.getElem?_eq_none (by simp; omega), List.getElem?_eq_none (by omega)]

omit [LinearOrder K] in
theorem getElem?_replace {α : Type} {list : List α} {i : Nat} {before : α}
    (there : list[i]? = some before) (a : α) :
    (fun j => (list.set i a)[j]?) = Function.update (fun j => list[j]?) i (some a) := by
  have within : i < list.length := (List.getElem?_eq_some_iff.mp there).1
  funext j
  rw [Function.update_apply, List.getElem?_set]
  by_cases same : j = i
  · subst same
    simp [within]
  · rw [if_neg same, if_neg fun equal => same equal.symm]

omit [LinearOrder K] in
theorem Tabled.length {α : Type} {handles : List α} {list : List (List (K × V))}
    (tabled : Tabled handles trees list) : list.length = handles.length := by
  refine le_antisymm (le_of_not_gt fun more => ?_) (le_of_not_gt fun more => ?_)
  · have none := tabled handles.length
    rw [List.getElem?_eq_none le_rfl, List.getElem?_eq_getElem more] at none
    cases none
  · have none := tabled list.length
    rw [List.getElem?_eq_none le_rfl, List.getElem?_eq_getElem more] at none
    cases none

omit [LinearOrder K] in
theorem Tabled.concat {α : Type} {handles : List α} {list : List (List (K × V))}
    (tabled : Tabled handles trees list) (a : α) (t : NurseryTree K V) :
    Tabled (handles ++ [a]) (Function.update trees handles.length t) (list ++ [t.bindings]) := by
  intro i
  have one := congrFun (getElem?_concat handles a) i
  have two := congrFun (getElem?_concat list t.bindings) i
  rw [one, two, tabled.length, Function.update_apply, Function.update_apply,
    Function.update_apply]
  split
  · rfl
  · exact tabled i

omit [LinearOrder K] in
theorem Tabled.modify {α : Type} {handles : List α} {list : List (List (K × V))}
    (tabled : Tabled handles trees list) {i : Nat} {before : α} (there : handles[i]? = some before)
    (a : α) {t : NurseryTree K V} {f : List (K × V) → List (K × V)}
    (changed : t.bindings = f (trees i).bindings) :
    Tabled (handles.set i a) (Function.update trees i t) (list.modify i f) := by
  intro j
  have one := congrFun (getElem?_replace there a) j
  rw [one, List.getElem?_modify, tabled j, Function.update_apply, Function.update_apply]
  by_cases same : j = i
  · subst same
    rw [if_pos rfl, if_pos rfl, there, changed]
    simp
  · rw [if_neg same, if_neg same]
    simp [Ne.symm same]

theorem reflects_initial : Reflects (K := K) (V := V) .initial .initial (fun _ => .nil)
    fun _ => .nil where
  versions := by constructor <;> intro i m there <;> simp [initial] at there
  maps := fun _ => rfl
  snapshots := fun _ => rfl
  balanced := fun _ _ _ => trivial
  rigid_balanced := fun _ _ _ => trivial

/-- An edit of one map. -/
theorem Reflects.edit (reflects : Reflects w tables trees rigid) {i : Nat} {m m' : NurseryMap}
    {heap : NurseryHeap K V} {t : NurseryTree K V} {f : List (K × V) → List (K × V)}
    (there : w.maps[i]? = some m) (edited : NurseryMap.Edited w.heap m (trees i) heap m' t)
    (changed : t.bindings = f (trees i).bindings) (balanced : t.shape.Balanced) :
    Reflects { w with heap, maps := w.maps.set i m' }
      { tables with maps := tables.maps.modify i f } (Function.update trees i t) rigid where
  versions := by
    rw [getElem?_replace there]
    exact reflects.versions.edit there edited
  maps := reflects.maps.modify there m' changed
  snapshots := reflects.snapshots
  balanced := by
    intro j n here
    rw [Function.update_apply]
    split
    · exact balanced
    · rename_i other
      rw [List.getElem?_set_ne (Ne.symm other)] at here
      exact reflects.balanced j n here
  rigid_balanced := reflects.rigid_balanced

/-- A map of its own is added. -/
theorem Reflects.put (reflects : Reflects w tables trees rigid) {root : Option Nat} {size : Nat}
    {t : NurseryTree K V} (stored : w.heap.Stored root size t)
    (exclusive : ∀ (i : Nat) (m : NurseryMap), w.maps[i]? = some m → w.heap.Exclusive m.edit t)
    (balanced : t.shape.Balanced) :
    Reflects { w with maps := w.maps ++ [⟨root, none, size⟩] }
      { tables with maps := tables.maps ++ [t.bindings] }
      (Function.update trees w.maps.length t) rigid where
  versions := by
    rw [getElem?_concat]
    exact reflects.versions.put stored fun i m _ here => exclusive i m here
  maps := reflects.maps.concat _ t
  snapshots := reflects.snapshots
  balanced := by
    intro i n here
    rw [Function.update_apply]
    split
    · exact balanced
    · rename_i other
      have before := congrFun (getElem?_concat w.maps ⟨root, none, size⟩) i
      rw [before, Function.update_of_ne other] at here
      exact reflects.balanced i n here
  rigid_balanced := reflects.rigid_balanced

/-- Every call is carried out on memory as it is on tables, and no snapshot is lost. -/
theorem Reflects.step (reflects : Reflects w tables trees rigid) (action : NurseryAction K V) :
    ∃ w' trees' rigid', w.step action = some w' ∧
      Reflects w' (tables.step action) trees' rigid' ∧ w.snapshots <+: w'.snapshots := by
  have versions := reflects.versions
  cases action with
  | create =>
      exact ⟨_, _, _, rfl, reflects.put (t := .nil) .nil (fun _ _ _ _ _ _ => trivial) trivial,
        List.prefix_rfl⟩
  | insertOrAssign map key value =>
      cases there : w.maps[map]? with
      | none =>
          refine ⟨w, trees, rigid, by rw [NurseryWorld.step, there], ?_, List.prefix_rfl⟩
          have missing : tables.maps[map]? = none := by rw [reflects.maps map, there, Option.map_none]
          have same : tables.step (.insertOrAssign map key value) = tables := by
            rw [NurseryTables.step, List.modify_eq_self (List.getElem?_eq_none_iff.mp missing)]
          rw [same]
          exact reflects
      | some m =>
          obtain ⟨m', heap, t, done, edited, changed, shape_eq⟩ :=
            NurseryMap.insertOrAssign_ok (versions.stored map m there) (versions.issued map m there)
              key value
          refine ⟨{ w with heap, maps := w.maps.set map m' }, _, rigid, ?_,
            reflects.edit there edited changed ?_, List.prefix_rfl⟩
          · simp only [NurseryWorld.step, there, done, Option.bind_eq_bind, Option.bind_some]
          · rw [shape_eq]
            exact (AvlTree.insert_spec (reflects.balanced map m there) key value).1
  | erase map key =>
      cases there : w.maps[map]? with
      | none =>
          refine ⟨w, trees, rigid, by rw [NurseryWorld.step, there], ?_, List.prefix_rfl⟩
          have missing : tables.maps[map]? = none := by rw [reflects.maps map, there, Option.map_none]
          have same : tables.step (.erase map key) = tables := by
            rw [NurseryTables.step, List.modify_eq_self (List.getElem?_eq_none_iff.mp missing)]
          rw [same]
          exact reflects
      | some m =>
          obtain ⟨m', heap, t, done, edited, changed, shape_eq⟩ :=
            NurseryMap.erase_ok (versions.stored map m there) (versions.issued map m there) key
          refine ⟨{ w with heap, maps := w.maps.set map m' }, _, rigid, ?_,
            reflects.edit there edited changed ?_, List.prefix_rfl⟩
          · simp only [NurseryWorld.step, there, done, Option.bind_eq_bind, Option.bind_some]
          · rw [shape_eq]
            exact (AvlTree.remove_spec (reflects.balanced map m there) key).1
  | freeze map =>
      cases there : w.maps[map]? with
      | none =>
          refine ⟨w, trees, rigid, by rw [NurseryWorld.step, there], ?_, List.prefix_rfl⟩
          have missing : tables.maps[map]? = none := by rw [reflects.maps map, there, Option.map_none]
          rw [NurseryTables.step, missing, Option.toList_none, List.append_nil]
          exact reflects
      | some m =>
          have present : tables.maps[map]? = some (trees map).bindings := by
            rw [reflects.maps map, there, Option.map_some]
          refine ⟨{ w with
            heap := (m.freeze w.heap).2
            snapshots := w.snapshots ++ [(m.freeze w.heap).1] }, trees,
            Function.update rigid w.snapshots.length (trees map), ?_, ?_, List.prefix_append _ _⟩
          · rw [NurseryWorld.step, there]
          · rw [NurseryTables.step, present, Option.toList_some]
            refine ⟨?_, reflects.maps, reflects.snapshots.concat _ (trees map), reflects.balanced,
              fun j s here => ?_⟩
            · rw [getElem?_concat]
              exact versions.freeze there
            · rw [Function.update_apply]
              split
              · exact reflects.balanced map m there
              · rename_i other
                have before := congrFun (getElem?_concat w.snapshots (m.freeze w.heap).1) j
                rw [before, Function.update_of_ne other] at here
                exact reflects.rigid_balanced j s here
  | thaw snapshot =>
      cases there : w.snapshots[snapshot]? with
      | none =>
          refine ⟨w, trees, rigid, by rw [NurseryWorld.step, there], ?_, List.prefix_rfl⟩
          have missing : tables.snapshots[snapshot]? = none := by
            rw [reflects.snapshots snapshot, there, Option.map_none]
          rw [NurseryTables.step, missing, Option.toList_none, List.append_nil]
          exact reflects
      | some s =>
          have present : tables.snapshots[snapshot]? = some (rigid snapshot).bindings := by
            rw [reflects.snapshots snapshot, there, Option.map_some]
          refine ⟨{ w with maps := w.maps ++ [.thaw s] },
            Function.update trees w.maps.length (rigid snapshot), rigid, by rw [NurseryWorld.step, there],
            ?_, List.prefix_rfl⟩
          rw [NurseryTables.step, present, Option.toList_some]
          exact reflects.put (versions.stored_frozen snapshot s there)
            (fun i m here => versions.exclusive_frozen i m here snapshot s there)
            (reflects.rigid_balanced snapshot s there)

/-- All calls of a history are carried out. -/
theorem Reflects.run (reflects : Reflects w tables trees rigid)
    (history : List (NurseryAction K V)) :
    ∃ w' trees' rigid', w.run history = some w' ∧
      Reflects w' (tables.replay history) trees' rigid' ∧ w.snapshots <+: w'.snapshots := by
  induction history generalizing w tables trees rigid with
  | nil => exact ⟨w, trees, rigid, rfl, reflects, List.prefix_rfl⟩
  | cons action history induction =>
      obtain ⟨middle, trees', rigid', one, after, kept⟩ := reflects.step action
      obtain ⟨last, trees'', rigid'', rest, holds, more⟩ := induction after
      refine ⟨last, trees'', rigid'', ?_, holds, kept.trans more⟩
      rw [NurseryWorld.run, List.foldlM_cons, one]
      exact rest

theorem behaves {h : NurseryHeap K V} {root : Option Nat} {size : Nat} {t : NurseryTree K V}
    (stored : h.Stored root size t) (balanced : t.shape.Balanced) :
    Behaves h root size t.bindings where
  find := NurseryMap.find_ok stored
  size := stored.size_eq
  entries := NurseryMap.entries_ok stored
  ordered := stored.ordered
  tree := ⟨t, stored.represents.held, stored.root_eq, rfl, balanced⟩

/-- Every history of calls is carried out; each map and each snapshot is the table of its own edits
in a balanced search tree, and whatever is called later, a snapshot reads the same. -/
theorem nursery_persistence (history later : List (NurseryAction K V)) :
    ∃ w last, initial.run history = some w ∧ w.run later = some last ∧
      (let tables := NurseryTables.initial.replay history
       w.maps.length = tables.maps.length ∧ w.snapshots.length = tables.snapshots.length ∧
       (∀ (i : Nat) (m : NurseryMap) table, w.maps[i]? = some m → tables.maps[i]? = some table →
         Behaves w.heap m.root m.size table) ∧
       ∀ (j : Nat) (s : NurserySnapshot) table, w.snapshots[j]? = some s → tables.snapshots[j]? = some table →
         last.snapshots[j]? = some s ∧ Behaves w.heap s.root s.size table ∧
         Behaves last.heap s.root s.size table) := by
  obtain ⟨w, trees, rigid, done, reflects, -⟩ := reflects_initial.run history
  obtain ⟨last, trees', rigid', more, holds, kept⟩ := reflects.run later
  refine ⟨w, last, done, more, reflects.maps.length.symm, reflects.snapshots.length.symm, ?_, ?_⟩
  · intro i m table here tabled
    rw [reflects.maps i, here, Option.map_some] at tabled
    cases tabled
    exact behaves (reflects.versions.stored i m here) (reflects.balanced i m here)
  · intro j s table here tabled
    have before := tabled
    rw [reflects.snapshots j, here, Option.map_some] at before
    cases before
    have there : last.snapshots[j]? = some s := by
      obtain ⟨tail, split⟩ := kept
      rw [← split, List.getElem?_append_left (List.getElem?_eq_some_iff.mp here).1, here]
    refine ⟨there, behaves (reflects.versions.stored_frozen j s here)
      (reflects.rigid_balanced j s here), ?_⟩
    have after := holds.snapshots j
    obtain ⟨more_tables, appended⟩ :=
      (NurseryTables.initial.replay history).snapshots_replay later
    rw [← appended, List.getElem?_append_left (List.getElem?_eq_some_iff.mp tabled).1, tabled, there,
      Option.map_some] at after
    rw [Option.some.inj after]
    exact behaves (holds.versions.stored_frozen j s there) (holds.rigid_balanced j s there)

end NurseryWorld

end Everett

import Everett.Transaction.Model

/-!
# What a nursery buffers

The nursery of a transaction holds, for every key which was changed since its world was staged, an
arrow from the staged state to the present one.
-/

namespace Everett

variable {S : Type} {Key State Arrow : S → Type} {R C E B X : Type}

section
variable [DecidableEq ((s : S) × Key s)]

/-- Apply an edit to the state of its key. -/
def applyEdit (semantics : SortSemantics Key State Arrow) (states : (p : (s : S) × Key s) → State p.1)
    (edit : TypedEdit Key Arrow) : (p : (s : S) × Key s) → State p.1 :=
  Function.update states ⟨edit.sort, edit.key⟩
    (semantics.apply edit.sort edit.key (states ⟨edit.sort, edit.key⟩) edit.arrow)

/-- The states of all keys after the edits of a history, one after the other. -/
def editedStates (env : TransactionEnv S R C E B X Key State Arrow) (origin : StoredWorld R)
    (edits : List (TypedEdit Key Arrow)) : (p : (s : S) × Key s) → State p.1 :=
  edits.foldl (applyEdit env.semantics) (env.values origin.world.runtime)

theorem editedStates_append (env : TransactionEnv S R C E B X Key State Arrow)
    (origin : StoredWorld R) (edits : List (TypedEdit Key Arrow)) (edit : TypedEdit Key Arrow) :
    editedStates env origin (edits ++ [edit]) =
      applyEdit env.semantics (editedStates env origin edits) edit := by
  rw [editedStates, List.foldl_append]
  rfl

end

section
variable [LinearOrder E]

/-- A nursery buffers what leads from the staged states to the present ones. -/
structure Buffered (env : TransactionEnv S R C E B X Key State Arrow) (world : TypedWorld R)
    (states : (p : (s : S) × Key s) → State p.1) (table : List (E × NurseryValue B)) : Prop where
  unbuffered : ∀ s key e, env.transport.encode s key = .ok e → valueAt e table = none →
    states ⟨s, key⟩ = env.values world.runtime ⟨s, key⟩
  buffered : ∀ e entry, valueAt e table = some entry → ∃ s key arrow,
    env.transport.encode s key = .ok e ∧ env.transport.value s arrow = .ok entry.arrow ∧
    states ⟨s, key⟩ = env.semantics.apply s key (env.values world.runtime ⟨s, key⟩) arrow ∧
    (env.semantics.stateIsArrow s = true → ∃ b, entry.original = some b ∧
      env.transport.value s (env.semantics.quote s (env.values world.runtime ⟨s, key⟩)) = .ok b)

variable {env : TransactionEnv S R C E B X Key State Arrow} {world : TypedWorld R}
  {states : (p : (s : S) × Key s) → State p.1} {table : List (E × NurseryValue B)}

theorem raise_eq_ok {α : Type} {x : Except X α} {a : α} : raise x = .ok a ↔ x = .ok a := by
  cases x <;> simp [raise]

@[simp] theorem raise_ok {α : Type} (a : α) : raise (.ok a : Except X α) = .ok a := rfl

omit [LinearOrder E] in
/-- Keys with one code are equal. -/
theorem SortLaws.encode_inj (laws : SortLaws env.semantics env.transport) {s s' : S} {key : Key s}
    {key' : Key s'} {e : E} (first : env.transport.encode s key = .ok e)
    (second : env.transport.encode s' key' = .ok e) :
    (⟨s, key⟩ : (s : S) × Key s) = ⟨s', key'⟩ := by
  have dispatched := laws.dispatch_encode first
  rw [laws.dispatch_encode second] at dispatched
  exact (Except.ok.inj dispatched).symm

/-- What is buffered for a key. -/
theorem Buffered.entry (buffered : Buffered env world states table)
    (laws : SortLaws env.semantics env.transport) {s : S} {key : Key s} {e : E}
    (encoded : env.transport.encode s key = .ok e) {entry : NurseryValue B}
    (found : valueAt e table = some entry) : ∃ arrow,
    env.transport.arrow s entry.arrow = .ok arrow ∧
    env.transport.value s arrow = .ok entry.arrow ∧
    states ⟨s, key⟩ = env.semantics.apply s key (env.values world.runtime ⟨s, key⟩) arrow ∧
    (env.semantics.stateIsArrow s = true → ∃ b, entry.original = some b ∧
      env.transport.value s (env.semantics.quote s (env.values world.runtime ⟨s, key⟩)) =
        .ok b) := by
  obtain ⟨s', key', arrow, encoded', value, state, original⟩ := buffered.buffered e entry found
  cases laws.encode_inj encoded encoded'
  exact ⟨arrow, laws.arrow_value value, value, state, original⟩

/-- Reading gives the present state. -/
theorem Buffered.read (buffered : Buffered env world states table)
    (laws : SortLaws env.semantics env.transport) {h : NurseryHeap E (NurseryValue B)}
    {root : Option Nat} {size : Nat} {t : NurseryTree E (NurseryValue B)}
    (stored : h.Stored root size t) (table_eq : t.bindings = table) {s : S} {key : Key s} {e : E}
    (encoded : env.transport.encode s key = .ok e) :
    env.read h root world s key = .ok (states ⟨s, key⟩) := by
  have found := NurseryMap.find_ok stored e
  rw [table_eq] at found
  unfold TransactionEnv.read
  rw [encoded, raise_ok, Outcome.ok_bind, found]
  cases held : valueAt e table with
  | none => exact congrArg Except.ok (buffered.unbuffered s key e encoded held).symm
  | some entry =>
      obtain ⟨arrow, decoded, -, state, -⟩ := buffered.entry laws encoded held
      dsimp only
      rw [decoded, raise_ok, Outcome.ok_bind, state]
      split_ifs with replaces
      · rw [laws.apply_replacement s key _ _ arrow replaces]
      · rfl

/-- Nothing is buffered over a world of the present states. -/
theorem Buffered.nil (same : ∀ s key e, env.transport.encode s key = .ok e →
    states ⟨s, key⟩ = env.values world.runtime ⟨s, key⟩) : Buffered env world states [] :=
  ⟨fun s key e encoded _ => same s key e encoded, nofun⟩

variable [DecidableEq ((s : S) × Key s)]

omit [LinearOrder E] in
theorem applyEdit_of_ne {s s' : S} {key : Key s} {key' : Key s'} (arrow : Arrow s)
    (ne : (⟨s', key'⟩ : (s : S) × Key s) ≠ ⟨s, key⟩) :
    applyEdit env.semantics states ⟨s, key, arrow⟩ ⟨s', key'⟩ = states ⟨s', key'⟩ :=
  Function.update_of_ne ne _ _

omit [LinearOrder E] in
theorem applyEdit_self {s : S} {key : Key s} (arrow : Arrow s) :
    applyEdit env.semantics states ⟨s, key, arrow⟩ ⟨s, key⟩ =
      env.semantics.apply s key (states ⟨s, key⟩) arrow :=
  Function.update_self ..

omit [LinearOrder E] [DecidableEq ((s : S) × Key s)] in
/-- Keys with other codes are other keys. -/
theorem other_key {s s' : S} {key : Key s} {key' : Key s'} {e e' : E}
    (first : env.transport.encode s key = .ok e) (second : env.transport.encode s' key' = .ok e')
    (ne : e' ≠ e) : (⟨s', key'⟩ : (s : S) × Key s) ≠ ⟨s, key⟩ := by
  intro same
  cases same
  rw [first] at second
  exact ne (Except.ok.inj second).symm

/-- A key is back at its staged state. -/
theorem Buffered.erase (buffered : Buffered env world states table) (ordered : Ordered table)
    (laws : SortLaws env.semantics env.transport) {s : S} {key : Key s} {e : E} {arrow : Arrow s}
    (encoded : env.transport.encode s key = .ok e)
    (back : env.semantics.apply s key (states ⟨s, key⟩) arrow =
      env.values world.runtime ⟨s, key⟩) :
    Buffered env world (applyEdit env.semantics states ⟨s, key, arrow⟩)
      (Everett.erase e table) := by
  constructor
  · intro s' key' e' encoded' absent
    rw [valueAt_erase ordered] at absent
    by_cases same : e' = e
    · subst same
      cases laws.encode_inj encoded encoded'
      rw [applyEdit_self, back]
    · rw [if_neg same] at absent
      rw [applyEdit_of_ne _ (other_key encoded encoded' same)]
      exact buffered.unbuffered s' key' e' encoded' absent
  · intro e' entry found
    rw [valueAt_erase ordered] at found
    split_ifs at found with same
    obtain ⟨s', key', arrow', encoded', value, state, original⟩ := buffered.buffered e' entry found
    refine ⟨s', key', arrow', encoded', value, ?_, original⟩
    rw [applyEdit_of_ne _ (other_key encoded encoded' same), state]

/-- A key gets an arrow from its staged state to its present one. -/
theorem Buffered.assign (buffered : Buffered env world states table)
    {s : S} {key : Key s} {e : E} {arrow combined : Arrow s} {b : B}
    {original : Option B} (encoded : env.transport.encode s key = .ok e)
    (value : env.transport.value s combined = .ok b)
    (leads : env.semantics.apply s key (env.values world.runtime ⟨s, key⟩) combined =
      env.semantics.apply s key (states ⟨s, key⟩) arrow)
    (remembers : env.semantics.stateIsArrow s = true → ∃ b, original = some b ∧
      env.transport.value s (env.semantics.quote s (env.values world.runtime ⟨s, key⟩)) = .ok b) :
    Buffered env world (applyEdit env.semantics states ⟨s, key, arrow⟩)
      (Everett.assign e ⟨b, original⟩ table) := by
  constructor
  · intro s' key' e' encoded' absent
    rw [valueAt_assign] at absent
    split_ifs at absent with same
    rw [applyEdit_of_ne _ (other_key encoded encoded' same)]
    exact buffered.unbuffered s' key' e' encoded' absent
  · intro e' entry found
    rw [valueAt_assign] at found
    by_cases same : e' = e
    · subst same
      rw [if_pos rfl] at found
      cases found
      exact ⟨s, key, combined, encoded, value, (applyEdit_self arrow).trans leads.symm, remembers⟩
    · rw [if_neg same] at found
      obtain ⟨s', key', arrow', encoded', value', state, original'⟩ :=
        buffered.buffered e' entry found
      refine ⟨s', key', arrow', encoded', value', ?_, original'⟩
      rw [applyEdit_of_ne _ (other_key encoded encoded' same), state]

end

end Everett

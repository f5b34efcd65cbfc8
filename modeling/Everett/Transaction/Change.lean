import Everett.Transaction.Buffer

/-!
# Changes and flushes

A change adds one edit to what a transaction buffers.  A flush brings what is buffered to the core,
whose world then has the present states.
-/

namespace Everett

variable {S : Type} {Key State Arrow : S → Type} {R C E B X : Type} [LinearOrder E]
  {env : TransactionEnv S R C E B X Key State Arrow} {tx tx' : Transaction R C E B Key Arrow}
  {h h' : NurseryHeap E (NurseryValue B)} {states : (p : (s : S) × Key s) → State p.1}
  {t : NurseryTree E (NurseryValue B)} {s : S} {key : Key s} {e : E}

namespace Transaction

omit [LinearOrder E] in
theorem requireActive_eq_ok :
    tx.requireActive (X := X) = .ok () ↔ tx.closed = false ∧ tx.failed = false := by
  unfold requireActive
  cases tx.closed <;> cases tx.failed <;> simp

theorem base_ok (laws : SortLaws env.semantics env.transport)
    (buffered : Buffered env tx.stage.world states t.bindings)
    (encoded : env.transport.encode s key = .ok e) :
    tx.base env s key (valueAt e t.bindings) =
      .ok (env.values tx.stage.world.runtime ⟨s, key⟩) := by
  unfold base
  split
  · next entry found arrows =>
      obtain ⟨arrow, -, -, -, remembered⟩ := buffered.entry laws encoded found
      obtain ⟨b, original, value⟩ := remembered arrows
      rw [original, Outcome.demand_some, Outcome.ok_bind, laws.arrow_value value, raise_ok,
        Outcome.ok_bind, laws.apply_quote s key _ _ arrows]
  · rfl

theorem before_ok (laws : SortLaws env.semantics env.transport)
    (buffered : Buffered env tx.stage.world states t.bindings)
    (encoded : env.transport.encode s key = .ok e) :
    before env s key (valueAt e t.bindings) (env.values tx.stage.world.runtime ⟨s, key⟩) =
      .ok (states ⟨s, key⟩) := by
  unfold before
  split
  · next absent => exact congrArg Except.ok (buffered.unbuffered s key e encoded absent).symm
  · next entry found =>
      obtain ⟨arrow, decoded, -, state, -⟩ := buffered.entry laws encoded found
      rw [decoded, raise_ok, Outcome.ok_bind, state]

/-- The combined arrow leads from the staged state to the state after the change. -/
theorem combine_ok (laws : SortLaws env.semantics env.transport)
    (buffered : Buffered env tx.stage.world states t.bindings)
    (encoded : env.transport.encode s key = .ok e) {arrow combined : Arrow s}
    (result : combine env s key (valueAt e t.bindings) arrow = .ok combined) :
    env.semantics.apply s key (env.values tx.stage.world.runtime ⟨s, key⟩) combined =
      env.semantics.apply s key (states ⟨s, key⟩) arrow := by
  unfold combine at result
  split_ifs at result with replaces
  · cases result
    exact laws.apply_replacement s key _ _ arrow replaces
  have composes := Bool.eq_false_of_not_eq_true replaces
  split at result
  · next absent =>
      cases result
      rw [buffered.unbuffered s key e encoded absent]
  · next entry found =>
      obtain ⟨older, decoded, -, state, -⟩ := buffered.entry laws encoded found
      rw [decoded, raise_ok, Outcome.ok_bind] at result
      cases result
      rw [state, laws.apply_compose s key _ older arrow composes]

omit [LinearOrder E] in
theorem original_ok {base : State s} {original : Option B}
    (result : Transaction.original env s base = .ok original)
    (arrows : env.semantics.stateIsArrow s = true) :
    ∃ b, original = some b ∧ env.transport.value s (env.semantics.quote s base) = .ok b := by
  unfold Transaction.original at result
  rw [if_pos arrows] at result
  obtain ⟨b, value, rest⟩ := Outcome.bind_eq_ok.mp result
  cases rest
  exact ⟨b, rfl, Iff.mp raise_eq_ok value⟩

variable [∀ s, DecidableEq (State s)]

/-- What an active transaction does with a change of a key which can be encoded. -/
theorem change_eq (laws : SortLaws env.semantics env.transport)
    (stored : h.Stored tx.nursery.root tx.nursery.size t)
    (buffered : Buffered env tx.stage.world states t.bindings)
    (encoded : env.transport.encode s key = .ok e) (active : tx.requireActive (X := X) = .ok ())
    (arrow : Arrow s) :
    tx.change env h s key arrow =
      if env.semantics.replacement s ∧ env.semantics.present s key (states ⟨s, key⟩) = false ∧
          env.semantics.present s key
            (env.semantics.apply s key (states ⟨s, key⟩) arrow) = false then .error .absent
      else tx.buffer env h s key arrow e (valueAt e t.bindings)
        (env.values tx.stage.world.runtime ⟨s, key⟩)
        (env.semantics.apply s key (states ⟨s, key⟩) arrow) := by
  unfold change
  rw [active, Outcome.ok_bind, encoded, raise_ok, Outcome.ok_bind, NurseryMap.find_ok stored e,
    Outcome.demand_some, Outcome.ok_bind, base_ok laws buffered encoded, Outcome.ok_bind,
    before_ok laws buffered encoded, Outcome.ok_bind]

/-- Deleting an absent key is refused. -/
theorem change_absent (laws : SortLaws env.semantics env.transport)
    (stored : h.Stored tx.nursery.root tx.nursery.size t)
    (buffered : Buffered env tx.stage.world states t.bindings)
    (encoded : env.transport.encode s key = .ok e) (active : tx.requireActive (X := X) = .ok ())
    {arrow : Arrow s} (replaces : env.semantics.replacement s = true)
    (was : env.semantics.present s key (states ⟨s, key⟩) = false)
    (is : env.semantics.present s key
      (env.semantics.apply s key (states ⟨s, key⟩) arrow) = false) :
    tx.change env h s key arrow = .error .absent := by
  rw [change_eq laws stored buffered encoded active arrow, if_pos ⟨replaces, was, is⟩]

variable [DecidableEq ((s : S) × Key s)]

/-- An accepted change. -/
theorem change_ok (laws : SortLaws env.semantics env.transport)
    (stored : h.Stored tx.nursery.root tx.nursery.size t) (issued : h.Issued tx.nursery.edit)
    (buffered : Buffered env tx.stage.world states t.bindings) {arrow : Arrow s}
    (accepted : tx.change env h s key arrow = .ok (tx', h')) :
    tx.requireActive (X := X) = .ok () ∧ ∃ e m' t', env.transport.encode s key = .ok e ∧
      tx' = { tx with
        nursery := m'
        edits := tx.edits ++ [⟨s, key, arrow⟩] } ∧
      NurseryMap.Edited h tx.nursery t h' m' t' ∧
      Buffered env tx.stage.world (applyEdit env.semantics states ⟨s, key, arrow⟩) t'.bindings ∧
      (env.semantics.replacement s = true →
        env.semantics.apply s key (states ⟨s, key⟩) arrow =
          env.values tx.stage.world.runtime ⟨s, key⟩ → valueAt e t'.bindings = none) := by
  have active : tx.requireActive (X := X) = .ok () := by
    obtain ⟨_, active, -⟩ := Outcome.bind_eq_ok.mp accepted
    exact active
  have encodes : ∃ e, env.transport.encode s key = .ok e := by
    obtain ⟨_, -, rest⟩ := Outcome.bind_eq_ok.mp accepted
    obtain ⟨e, encoded, -⟩ := Outcome.bind_eq_ok.mp rest
    exact ⟨e, Iff.mp raise_eq_ok encoded⟩
  obtain ⟨e, encoded⟩ := encodes
  refine ⟨active, e, ?_⟩
  rw [change_eq laws stored buffered encoded active arrow] at accepted
  split_ifs at accepted with absent
  unfold buffer at accepted
  obtain ⟨combined, combined_eq, rest⟩ := Outcome.bind_eq_ok.mp accepted
  obtain ⟨value, value_eq, rest⟩ := Outcome.bind_eq_ok.mp rest
  have leads := combine_ok laws buffered encoded combined_eq
  dsimp only at rest
  split_ifs at rest with back
  · obtain ⟨m', h₁, t', erased, edited, bindings_eq, -⟩ := NurseryMap.erase_ok stored issued e
    rw [erased, Outcome.demand_some, Outcome.ok_bind] at rest
    cases rest
    refine ⟨m', t', encoded, rfl, edited, ?_, fun _ _ => ?_⟩
    · rw [bindings_eq]
      exact buffered.erase stored.ordered laws encoded back.2
    · rw [bindings_eq, valueAt_erase stored.ordered, if_pos rfl]
  · obtain ⟨original, original_eq, rest⟩ := Outcome.bind_eq_ok.mp rest
    obtain ⟨m', h₁, t', inserted, edited, bindings_eq, -⟩ :=
      NurseryMap.insertOrAssign_ok stored issued e ⟨value, original⟩
    rw [inserted, Outcome.demand_some, Outcome.ok_bind] at rest
    cases rest
    refine ⟨m', t', encoded, rfl, edited, ?_, fun replaces same => absurd ⟨replaces, same⟩ back⟩
    rw [bindings_eq]
    exact buffered.assign encoded (Iff.mp raise_eq_ok value_eq) leads (original_ok original_eq)

end Transaction

end Everett

import Everett.Nursery.Edit

/-!
# Versions of nursery maps

A handle stands for a table.  An edit of one map leaves every version which has no node of its open
token as it was; a frozen token is never used again.
-/

namespace Everett

open NurseryTree

variable {K V : Type}

namespace NurseryHeap

/-- A handle stands for a tree with an ordered table. -/
structure Stored [LinearOrder K] (h : NurseryHeap K V) (root : Option Nat) (size : Nat)
    (t : NurseryTree K V) : Prop where
  represents : h.Represents t
  root_eq : t.root = root
  ordered : Ordered t.bindings
  size_eq : size = t.bindings.length

theorem Stored.nil [LinearOrder K] {h : NurseryHeap K V} : h.Stored none 0 .nil :=
  ⟨⟨trivial, List.nodup_nil⟩, rfl, ordered_nil, rfl⟩

/-- No other version has nodes of the open token of a map. -/
def Exclusive (h : NurseryHeap K V) (edit : Option Nat) (t : NurseryTree K V) : Prop :=
  ∀ token, edit = some token → h.opened token = true → t.Foreign token

/-- The token of a map was made. -/
def Issued (h : NurseryHeap K V) (edit : Option Nat) : Prop :=
  ∀ token, edit = some token → token < h.tokens

variable {h h' : NurseryHeap K V} {t t' u : NurseryTree K V} {token : Nat}

theorem Held.foreign (held : h.Held t) (unused : h.tokens ≤ token) : t.Foreign token := by
  induction t with
  | nil => trivial
  | node item edit height key value left right left_ih right_ih =>
      obtain ⟨-, -, issued, -, held_left, held_right⟩ := held
      exact ⟨by omega, left_ih held_left, right_ih held_right⟩

/-- Trees without nodes of a token are what they were after an edit with that token. -/
theorem Rewrites.kept (rewritten : Rewrites token h t h' t') (held : h.Held u)
    (foreign : u.Foreign token) : h'.Held u := by
  induction u with
  | nil => trivial
  | node item edit height key value left right left_ih right_ih =>
      obtain ⟨here, within, issued, positive, held_left, held_right⟩ := held
      obtain ⟨other, foreign_left, foreign_right⟩ := foreign
      exact ⟨rewritten.shared item within _ here other,
        Nat.lt_of_lt_of_le within rewritten.next_le, rewritten.tokens ▸ issued, positive,
        left_ih held_left foreign_left, right_ih held_right foreign_right⟩

theorem Held.depth_lt (represents : h.Represents t) : t.depth < h.next + 1 := by
  have inside : t.items ⊆ List.range h.next := fun item member =>
    List.mem_range.mpr (represents.held.item_lt item member)
  have short := (represents.nodup.subperm inside).length_le
  rw [List.length_range] at short
  exact Nat.lt_succ_of_le (t.depth_le.trans short)

/-- Closing and making tokens changes no tree. -/
theorem Held.tokens (held : h.Held t) (opened : Nat → Bool) {tokens : Nat}
    (more : h.tokens ≤ tokens) : ({ h with opened, tokens } : NurseryHeap K V).Held t :=
  held.frame (fun _ _ => rfl) (Nat.le_refl _) more

end NurseryHeap

open NurseryHeap

namespace NurseryMap

variable {h : NurseryHeap K V} {m : NurseryMap} {t u : NurseryTree K V}

/-- What beginning an edit does: the token is open, and foreign to every version which was foreign
to the map's own. -/
structure Begun (h : NurseryHeap K V) (m : NurseryMap) (token : Nat) (h' : NurseryHeap K V) :
    Prop where
  nodes : h'.nodes = h.nodes
  next : h'.next = h.next
  tokens_le : h.tokens ≤ h'.tokens
  token_lt : token < h'.tokens
  foreign : ∀ u : NurseryTree K V, h.Held u → h.Exclusive m.edit u → u.Foreign token
  others : ∀ other : Nat, other < h.tokens → h'.opened other = true → h.opened other = true

theorem beginEdit_ok (issued : h.Issued m.edit) :
    Begun h m (m.beginEdit h).1 (m.beginEdit h).2 := by
  unfold beginEdit
  split
  · next token own =>
      obtain ⟨mine, is_open⟩ := Option.filter_eq_some_iff.mp own
      exact ⟨rfl, rfl, Nat.le_refl _, issued token mine,
        fun u _ exclusive => exclusive token mine is_open, fun _ _ is_open => is_open⟩
  · refine ⟨rfl, rfl, Nat.le_succ _, Nat.lt_succ_self _,
      fun u held _ => held.foreign (Nat.le_refl _), fun other issued is_open => ?_⟩
    change Function.update h.opened h.tokens true other = true at is_open
    rwa [Function.update_of_ne issued.ne] at is_open

/-- What an edit of a map does. -/
structure Edited [LinearOrder K] (h : NurseryHeap K V) (m : NurseryMap) (t : NurseryTree K V)
    (h' : NurseryHeap K V) (m' : NurseryMap) (t' : NurseryTree K V) : Prop where
  stored : h'.Stored m'.root m'.size t'
  issued : h'.Issued m'.edit
  kept : ∀ u : NurseryTree K V, h.Held u → h.Exclusive m.edit u →
    h'.Held u ∧ h'.Exclusive m'.edit u
  tokens_le : h.tokens ≤ h'.tokens
  opened : ∀ other < h.tokens, h'.opened other = true → h.opened other = true
  token : ∀ other < h.tokens, m'.edit = some other → m.edit = some other ∧ h.opened other = true
  own : ∀ other < h.tokens, m.edit ≠ some other ∨ h.opened other = false → t.Foreign other →
    t'.Foreign other

theorem Edited.of_rewrites [LinearOrder K] {h' : NurseryHeap K V} {t' : NurseryTree K V}
    {root : Option Nat} {size : Nat} (issued : h.Issued m.edit)
    (rewritten : Rewrites (m.beginEdit h).1 (m.beginEdit h).2 t h' t')
    (stored : h'.Stored root size t') :
    Edited h m t h' ⟨root, some (m.beginEdit h).1, size⟩ t' := by
  have begun := beginEdit_ok issued
  have token_of_old : ∀ other < h.tokens, (m.beginEdit h).1 = other →
      m.edit = some other ∧ h.opened other = true := by
    intro other old same
    unfold beginEdit at same
    split at same
    · next token own =>
        cases same
        exact Option.filter_eq_some_iff.mp own
    · change h.tokens = other at same
      omega
  refine ⟨stored, fun token same => ?_, fun u held exclusive => ⟨?_, fun token same _ => ?_⟩,
    begun.tokens_le.trans rewritten.tokens.ge, fun other old is_open => ?_,
    fun other old same => token_of_old other old (Option.some.inj same),
    fun other old apart foreign => rewritten.own other ?_ foreign⟩
  · cases same
    exact rewritten.tokens ▸ begun.token_lt
  · have held' : (m.beginEdit h).2.Held u :=
      held.frame (fun _ _ => by rw [begun.nodes]) begun.next.ge begun.tokens_le
    exact rewritten.kept held' (begun.foreign u held exclusive)
  · cases same
    exact begun.foreign u held exclusive
  · rw [rewritten.opened] at is_open
    exact begun.others other old is_open
  · intro same
    obtain ⟨mine, is_open⟩ := token_of_old other old same.symm
    rcases apart with other_token | closed
    · exact other_token mine
    · rw [closed] at is_open
      cases is_open

theorem Begun.represents {token : Nat} {h' : NurseryHeap K V} (begun : Begun h m token h')
    (represents : h.Represents t) : h'.Represents t :=
  ⟨represents.held.frame (fun _ _ => by rw [begun.nodes]) begun.next.ge begun.tokens_le,
    represents.nodup⟩

variable [LinearOrder K] {key : K} {value : V}

theorem insertOrAssign_ok (stored : h.Stored m.root m.size t) (issued : h.Issued m.edit)
    (key : K) (value : V) :
    ∃ m' h' t', m.insertOrAssign h key value = some (m', h') ∧ Edited h m t h' m' t' ∧
      t'.bindings = assign key value t.bindings ∧ t'.shape = t.shape.insert key value := by
  have begun := beginEdit_ok issued
  have represents := begun.represents stored.represents
  have sorted : Ordered t.shape.bindings := bindings_shape t ▸ stored.ordered
  obtain ⟨item, h', done, height, k, v, left, right, rewritten, shape_eq⟩ :=
    @insert_ok _ _ _ _ key value _ _ _ represents (Held.depth_lt represents) begun.token_lt
  have same : (NurseryTree.node item (m.beginEdit h).1 height k v left right).bindings =
      assign key value t.bindings := by
    rw [← bindings_shape, shape_eq, AvlTree.bindings_insert sorted, bindings_shape]
  have fresh : (!t.shape.has key) = (valueAt key t.bindings).isNone := by
    rw [AvlTree.has_eq sorted, bindings_shape, Option.not_isSome]
  refine ⟨⟨some item, some (m.beginEdit h).1, m.size + (valueAt key t.bindings).isNone.toNat⟩, h',
    _, ?_, .of_rewrites issued rewritten ⟨rewritten.represents, rfl, ?_, ?_⟩, same, shape_eq⟩
  · rw [stored.root_eq, fresh] at done
    simp only [insertOrAssign, done, Option.bind_eq_bind, Option.bind_some]
  · rw [same]
    exact ordered_assign stored.ordered
  · rw [same, stored.size_eq, length_assign stored.ordered]

theorem erase_ok (stored : h.Stored m.root m.size t) (issued : h.Issued m.edit) (key : K) :
    ∃ m' h' t', m.erase h key = some (m', h') ∧ Edited h m t h' m' t' ∧
      t'.bindings = Everett.erase key t.bindings ∧ t'.shape = t.shape.remove key := by
  have begun := beginEdit_ok issued
  have represents := begun.represents stored.represents
  have sorted : Ordered t.shape.bindings := bindings_shape t ▸ stored.ordered
  obtain ⟨root, h', done, t', rewritten, root_eq, shape_eq⟩ :=
    @remove_ok _ _ _ _ key _ _ _ represents (Held.depth_lt represents) begun.token_lt
  have same : t'.bindings = Everett.erase key t.bindings := by
    rw [← bindings_shape, shape_eq, AvlTree.bindings_remove sorted, bindings_shape]
  refine ⟨⟨root, some (m.beginEdit h).1, m.size - (valueAt key t.bindings).isSome.toNat⟩, h', t',
    ?_, .of_rewrites issued rewritten ⟨rewritten.represents, root_eq, ?_, ?_⟩, same, shape_eq⟩
  · rw [stored.root_eq, AvlTree.has_eq sorted, bindings_shape] at done
    simp only [NurseryMap.erase, done, Option.bind_eq_bind, Option.bind_some]
  · rw [same]
    exact ordered_erase stored.ordered
  · rw [same, stored.size_eq, length_erase stored.ordered]

theorem find_ok {root : Option Nat} {size : Nat} (stored : h.Stored root size t) (key : K) :
    find h root key = some (valueAt key t.bindings) := by
  rw [find, ← stored.root_eq]
  exact findIn_ok stored.represents.held stored.ordered (Held.depth_lt stored.represents)

theorem entries_ok {root : Option Nat} {size : Nat} (stored : h.Stored root size t) :
    entries h root = some t.bindings := by
  rw [entries, ← stored.root_eq]
  exact visitIn_ok stored.represents.held (Held.depth_lt stored.represents)

end NurseryMap

/-! ## Maps and snapshots side by side -/

/-- Maps and snapshots in one memory, with the trees which they stand for: no version has nodes of
the open token of another map. -/
structure Versions [LinearOrder K] (h : NurseryHeap K V) (maps : Nat → Option NurseryMap)
    (frozen : Nat → Option NurserySnapshot) (trees rigid : Nat → NurseryTree K V) : Prop where
  stored : ∀ i m, maps i = some m → h.Stored m.root m.size (trees i)
  stored_frozen : ∀ j s, frozen j = some s → h.Stored s.root s.size (rigid j)
  issued : ∀ i m, maps i = some m → h.Issued m.edit
  exclusive : ∀ i m, maps i = some m → ∀ i' m', i' ≠ i → maps i' = some m' →
    h.Exclusive m.edit (trees i')
  exclusive_frozen : ∀ i m, maps i = some m → ∀ j s, frozen j = some s →
    h.Exclusive m.edit (rigid j)
  distinct : ∀ i m, maps i = some m → ∀ i' m', i' ≠ i → maps i' = some m' →
    ∀ token, m.edit = some token → h.opened token = true → m'.edit ≠ some token

namespace Versions

variable [LinearOrder K] {h h' : NurseryHeap K V} {maps : Nat → Option NurseryMap}
  {frozen : Nat → Option NurserySnapshot} {trees rigid : Nat → NurseryTree K V} {i j : Nat}
  {m m' : NurseryMap} {t' : NurseryTree K V}

/-- An edit of one map leaves all other versions as they were. -/
theorem edit (versions : Versions h maps frozen trees rigid) (here : maps i = some m)
    (edited : NurseryMap.Edited h m (trees i) h' m' t') :
    Versions h' (Function.update maps i (some m')) frozen (Function.update trees i t') rigid := by
  have apart : ∀ i' n, i' ≠ i → maps i' = some n → ∀ token, n.edit = some token →
      h'.opened token = true → token < h.tokens ∧ h.opened token = true ∧
        m'.edit ≠ some token ∧ (m.edit ≠ some token ∨ h.opened token = false) := by
    intro i' n elsewhere there token own is_open
    have old := versions.issued i' n there token own
    have was_open := edited.opened token old is_open
    have other := versions.distinct i' n there i m (Ne.symm elsewhere) here token own was_open
    exact ⟨old, was_open, fun same => other (edited.token token old same).1, .inl other⟩
  constructor
  · intro i' n there
    by_cases same : i' = i
    · subst same
      rw [Function.update_self] at there ⊢
      cases there
      exact edited.stored
    · rw [Function.update_of_ne same] at there ⊢
      have before := versions.stored i' n there
      have kept := edited.kept (trees i') before.represents.held
        (versions.exclusive i m here i' n same there)
      exact ⟨⟨kept.1, before.represents.nodup⟩, before.root_eq, before.ordered, before.size_eq⟩
  · intro j s there
    have before := versions.stored_frozen j s there
    have kept := edited.kept (rigid j) before.represents.held
      (versions.exclusive_frozen i m here j s there)
    exact ⟨⟨kept.1, before.represents.nodup⟩, before.root_eq, before.ordered, before.size_eq⟩
  · intro i' n there
    by_cases same : i' = i
    · subst same
      rw [Function.update_self] at there
      cases there
      exact edited.issued
    · rw [Function.update_of_ne same] at there
      exact fun token own =>
        Nat.lt_of_lt_of_le (versions.issued i' n there token own) edited.tokens_le
  · intro i₁ n₁ there₁ i₂ n₂ ne there₂
    by_cases first : i₁ = i
    · subst first
      rw [Function.update_self] at there₁
      cases there₁
      rw [Function.update_of_ne ne] at there₂ ⊢
      exact (edited.kept (trees i₂) (versions.stored i₂ n₂ there₂).represents.held
        (versions.exclusive i₁ m here i₂ n₂ ne there₂)).2
    · rw [Function.update_of_ne first] at there₁
      intro token own is_open
      obtain ⟨old, was_open, -, closed⟩ := apart i₁ n₁ first there₁ token own is_open
      by_cases second : i₂ = i
      · subst second
        rw [Function.update_self]
        exact edited.own token old closed
          (versions.exclusive i₁ n₁ there₁ i₂ m ne here token own was_open)
      · rw [Function.update_of_ne second] at there₂ ⊢
        exact versions.exclusive i₁ n₁ there₁ i₂ n₂ ne there₂ token own was_open
  · intro i₁ n₁ there₁ j s there
    by_cases first : i₁ = i
    · subst first
      rw [Function.update_self] at there₁
      cases there₁
      exact (edited.kept (rigid j) (versions.stored_frozen j s there).represents.held
        (versions.exclusive_frozen i₁ m here j s there)).2
    · rw [Function.update_of_ne first] at there₁
      intro token own is_open
      obtain ⟨-, was_open, -⟩ := apart i₁ n₁ first there₁ token own is_open
      exact versions.exclusive_frozen i₁ n₁ there₁ j s there token own was_open
  · intro i₁ n₁ there₁ i₂ n₂ ne there₂ token own is_open
    by_cases first : i₁ = i
    · subst first
      rw [Function.update_self] at there₁
      rw [Function.update_of_ne ne] at there₂
      cases there₁
      intro same
      have old := versions.issued i₂ n₂ there₂ token same
      obtain ⟨mine, was_open⟩ := edited.token token old own
      exact versions.distinct i₁ m here i₂ n₂ ne there₂ token mine was_open same
    · rw [Function.update_of_ne first] at there₁
      obtain ⟨old, was_open, unshared, -⟩ := apart i₁ n₁ first there₁ token own is_open
      by_cases second : i₂ = i
      · subst second
        rw [Function.update_self] at there₂
        cases there₂
        exact unshared
      · rw [Function.update_of_ne second] at there₂
        exact versions.distinct i₁ n₁ there₁ i₂ n₂ ne there₂ token own was_open

/-- A version whose map has no token can be added, or take the place of another map. -/
theorem put (versions : Versions h maps frozen trees rigid) {root : Option Nat} {size : Nat}
    {t : NurseryTree K V} (stored : h.Stored root size t)
    (exclusive : ∀ i' n, i' ≠ i → maps i' = some n → h.Exclusive n.edit t) :
    Versions h (Function.update maps i (some ⟨root, none, size⟩)) frozen
      (Function.update trees i t) rigid := by
  obtain ⟨stored_maps, stored_frozen, issued, apart, fixed, distinct⟩ := versions
  constructor
  case stored =>
    intro i' n there
    by_cases same : i' = i
    · subst same
      rw [Function.update_self] at there ⊢
      cases there
      exact stored
    · rw [Function.update_of_ne same] at there ⊢
      exact stored_maps i' n there
  case exclusive =>
    intro i₁ n₁ there₁ i₂ n₂ ne there₂ token own
    by_cases first : i₁ = i
    · subst first
      rw [Function.update_self] at there₁
      cases there₁
      cases own
    · rw [Function.update_of_ne first] at there₁
      by_cases second : i₂ = i
      · subst second
        rw [Function.update_self]
        exact exclusive i₁ n₁ first there₁ token own
      · rw [Function.update_of_ne second] at there₂ ⊢
        exact apart i₁ n₁ there₁ i₂ n₂ ne there₂ token own
  all_goals grind [Function.update_apply, Issued, Exclusive]

/-- A map is given up. -/
theorem drop (versions : Versions h maps frozen trees rigid) :
    Versions h (Function.update maps i none) frozen trees rigid := by
  obtain ⟨stored_maps, stored_frozen, issued, apart, fixed, distinct⟩ := versions
  constructor <;> grind [Function.update_apply]

/-- The snapshot of a frozen map stays what it is. -/
theorem freeze (versions : Versions h maps frozen trees rigid) (here : maps i = some m) :
    Versions (m.freeze h).2 maps (Function.update frozen j (some (m.freeze h).1)) trees
      (Function.update rigid j (trees i)) := by
  have closed : ∃ opened, (m.freeze h).2 = { h with opened } ∧
      (∀ token, opened token = true → h.opened token = true ∧ m.edit ≠ some token) := by
    unfold NurseryMap.freeze
    cases own : m.edit with
    | none => exact ⟨h.opened, rfl, fun _ is_open => ⟨is_open, nofun⟩⟩
    | some token =>
        refine ⟨_, rfl, fun other is_open => ?_⟩
        by_cases same : other = token
        · subst same
          rw [Function.update_self] at is_open
          cases is_open
        · rw [Function.update_of_ne same] at is_open
          exact ⟨is_open, fun equal => same (Option.some.inj equal).symm⟩
  obtain ⟨opened, memory, fewer⟩ := closed
  have kept : ∀ {root size} {t : NurseryTree K V}, h.Stored root size t →
      ({ h with opened } : NurseryHeap K V).Stored root size t := fun stored =>
    ⟨⟨stored.represents.held.tokens opened (Nat.le_refl _), stored.represents.nodup⟩,
      stored.root_eq, stored.ordered, stored.size_eq⟩
  rw [memory]
  constructor
  · exact fun i' n there => kept (versions.stored i' n there)
  · intro j' s there
    by_cases same : j' = j
    · subst same
      rw [Function.update_self] at there ⊢
      cases there
      exact kept (versions.stored i m here)
    · rw [Function.update_of_ne same] at there ⊢
      exact kept (versions.stored_frozen j' s there)
  · exact fun i' n there => versions.issued i' n there
  · exact fun i₁ n₁ there₁ i₂ n₂ ne there₂ token own is_open =>
      versions.exclusive i₁ n₁ there₁ i₂ n₂ ne there₂ token own (fewer token is_open).1
  · intro i' n there j' s there' token own is_open
    obtain ⟨was_open, other⟩ := fewer token is_open
    by_cases same : j' = j
    · subst same
      rw [Function.update_self]
      have elsewhere : i ≠ i' := by
        rintro rfl
        rw [here] at there
        cases there
        exact other own
      exact versions.exclusive i' n there i m elsewhere here token own was_open
    · rw [Function.update_of_ne same] at there' ⊢
      exact versions.exclusive_frozen i' n there j' s there' token own was_open
  · exact fun i₁ n₁ there₁ i₂ n₂ ne there₂ token own is_open =>
      versions.distinct i₁ n₁ there₁ i₂ n₂ ne there₂ token own (fewer token is_open).1

end Versions

end Everett

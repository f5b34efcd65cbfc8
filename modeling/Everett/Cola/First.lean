import Everett.Cola.Lookup

/-!
# First match of a lookup

A replacement read wants one value, so it descends a chain without a cursor and stops at the first
node which holds the key.  What it decodes is the first match which a cursor over the chain yields.
-/

namespace Everett

open Word Outcome Occurrences

variable {P : StoragePolicy} {α ι : Type}

/-- Inspect and decode a record of an array. -/
def decodeHit (inspect : NativeArray P → Nat → ι) (decode : BitString → Result α)
    (array : NativeArray P) (hit : Nat × BitString) : Result (ι × α) := do
  let value ← decode hit.2
  .ok (inspect array hit.1, value)

/-- Decode the match of the secondary array unless the native array had one. -/
def firstOf (inspect : NativeArray P → Nat → ι) (decode : BitString → Result α)
    (native : Option (ι × α)) (secondary : Option (Shared (NativeArray P)))
    (side : Option (Nat × BitString)) : Result (Option (ι × α)) :=
  match native, secondary, side with
  | none, some leaf, some hit => some <$> decodeHit inspect decode leaf.value hit
  | value, _, _ => .ok value

/-- The loop of `first_value` with an inspection of the record which it decodes. -/
def firstInspectedFrom (inspect : NativeArray P → Nat → ι) (decode : BitString → Result α) :
    MainPointer P → Nat → QueryContext → Result (Option (ι × α))
  | [], _, _ => .ok none
  | node :: main, group, context => do
      node.value.view
      let result ← node.value.searchWindow Prod.mk group context
      let native ← result.native.mapM (decodeHit inspect decode node.value.native.value)
      checkMainRoute main (result.predecessors .main)
      let side ← searchSide Prod.mk node.value.secondary (result.predecessors .secondary)
      let value ← firstOf inspect decode native node.value.secondary side
      match value with
      | some value => .ok (some value)
      | none =>
          match result.predecessors .main with
          | some next =>
              firstInspectedFrom inspect decode main (next.targetOrdinal / P.groupSize)
                next.comparison
          | none => .ok none

/-- `first_value` with an inspection of the record which it decodes. -/
def firstInspected (inspect : NativeArray P → Nat → ι) (root : MainPointer P) (query : BitString)
    (decode : BitString → Result α) : Result (Option (ι × α)) := do
  let context ← QueryContext.fromOwned P query
  require (root ≠ []) "COLA query root has no head"
  if root.virtualSize = 0 then .ok none else firstInspectedFrom inspect decode root 0 context

namespace QueryMatch

/-- The native array whose record matched. -/
def array? (hit : QueryMatch P) : Option (NativeArray P) :=
  match hit.source with
  | [] => none
  | node :: _ =>
      if hit.secondary then node.value.secondary.map Shared.value
      else some node.value.native.value

/-- What a read makes of a match. -/
def decodeWith (inspect : NativeArray P → Nat → ι) (decode : BitString → Result α)
    (hit : QueryMatch P) : Result (Option (ι × α)) :=
  match hit.array? with
  | some array => some <$> decodeHit inspect decode array (hit.ordinal, hit.value)
  | none => .ok none

end QueryMatch

/-- What a read makes of the first of some matches. -/
def decodeFirst (inspect : NativeArray P → Nat → ι) (decode : BitString → Result α)
    (matched : List (QueryMatch P)) : Result (Option (ι × α)) :=
  match matched with
  | [] => .ok none
  | hit :: _ => hit.decodeWith inspect decode

variable (inspect : NativeArray P → Nat → ι) (decode : BitString → Result α)

/-- A descent decodes the first match of a node, or goes on behind it. -/
theorem Enters.firstInspectedFrom_step {node : Shared (ColaIndex P)} {main : MainPointer P}
    {query : BitString} {group : Nat} {context : QueryContext}
    (enters : Enters node main query group context)
    (goes_on : ∀ below rest lower group, main = below :: rest →
      Enters below rest query group lower →
      firstInspectedFrom inspect decode main group lower =
        decodeFirst inspect decode (main.allMatches query)) :
    firstInspectedFrom inspect decode (node :: main) group context =
      decodeFirst inspect decode (MainPointer.allMatches query (node :: main)) := by
  obtain ⟨view, result, searched, native, main_route, side, next⟩ := enters.search_ok Prod.mk
  have further : (match result.predecessors .main with
      | some next => firstInspectedFrom inspect decode main
          (next.targetOrdinal / P.groupSize) next.comparison
      | none => Except.ok none) = decodeFirst inspect decode (main.allMatches query) := by
    cases following : result.predecessors .main with
    | none =>
        simp only [following] at next
        rw [next]
        rfl
    | some predecessor =>
        simp only [following] at next
        obtain ⟨below, rest, main_eq, entered⟩ := next
        exact goes_on below rest _ _ main_eq entered
  simp only [firstInspectedFrom, view, ok_bind, searched, native, main_route, side,
    MainPointer.allMatches]
  cases here : node.value.native.value.find? query with
  | some hit =>
      simp only [Option.map_some, Option.toList_some, List.cons_append, decodeFirst, QueryMatch.decodeWith, QueryMatch.array?]
      change ((some <$> decodeHit inspect decode node.value.native.value hit) >>= _) =
        some <$> decodeHit inspect decode node.value.native.value hit
      cases decodeHit inspect decode node.value.native.value hit <;> rfl
  | none =>
      have nothing : (none : Option (Nat × BitString)).mapM
          (decodeHit inspect decode node.value.native.value) = .ok none := rfl
      simp only [Option.map_none, Option.toList_none, List.nil_append, nothing, ok_bind]
      cases leaf_eq : node.value.secondary with
      | none =>
          simp only [Option.bind_none, Option.map_none, Option.toList_none, List.nil_append]
          exact further
      | some leaf =>
          simp only [Option.bind_some]
          cases there : leaf.value.find? query with
          | none =>
              simp only [Option.map_none, Option.toList_none, List.nil_append]
              exact further
          | some hit =>
              simp only [Option.map_some, Option.toList_some, List.singleton_append, decodeFirst,
                QueryMatch.decodeWith, QueryMatch.array?, leaf_eq]
              change ((some <$> decodeHit inspect decode leaf.value hit) >>= _) =
                some <$> decodeHit inspect decode leaf.value hit
              cases decodeHit inspect decode leaf.value hit <;> rfl

/-- A descent from an entered node decodes the first match of the chain. -/
theorem Enters.firstInspectedFrom_eq {node : Shared (ColaIndex P)} {main : MainPointer P}
    {query : BitString} {group : Nat} {context : QueryContext}
    (enters : Enters node main query group context) :
    firstInspectedFrom inspect decode (node :: main) group context =
      decodeFirst inspect decode (MainPointer.allMatches query (node :: main)) := by
  induction main generalizing node group context with
  | nil =>
      refine enters.firstInspectedFrom_step inspect decode ?_
      intro below rest lower group empty
      cases empty
  | cons below rest induction =>
      refine enters.firstInspectedFrom_step inspect decode ?_
      rintro _ _ lower group ⟨⟩ entered
      exact induction entered

/-- The first matches of a list and of its beginning agree. -/
theorem decodeFirst_of_initial {first whole : List (QueryMatch P)} (initial : first <+: whole)
    (some_found : first ≠ []) :
    decodeFirst inspect decode whole = decodeFirst inspect decode first := by
  obtain ⟨rest, rfl⟩ := initial
  cases first with
  | nil => exact absurd rfl some_found
  | cons hit more => rfl

/-- A read of the first value agrees with a cursor over the same root.  It decodes and inspects the
first match which the cursor yields, however the cursor is stepped, and finds nothing exactly when a
drained cursor has yielded nothing; a misaligned query is refused by both. -/
theorem first_value_exact {node : Shared (ColaIndex P)} {main : MainPointer P}
    (built : MainPointer.Built (node :: main))
    (bounded : node.value.virtualSize ≤ P.groupSize) (query : BitString) :
    (P.Aligned query → ∃ cursor, QueryCursor.start (node :: main) query = .ok cursor ∧
      ∀ budgets : List Nat, ∃ following found, cursor.drain budgets = .ok (following, found) ∧
        (main.length < budgets.countP (0 < ·) → following.done = true) ∧
        (∀ hit rest, found = hit :: rest →
          firstInspected inspect (node :: main) query decode =
            hit.decodeWith inspect decode ∧
          ∃ array, hit.array? = some array ∧ array.Holds hit.ordinal query hit.value) ∧
        (following.done = true → found = [] →
          firstInspected inspect (node :: main) query decode = .ok none)) ∧
    (¬P.Aligned query → ∃ e, QueryCursor.start (node :: main) query = .error e ∧
      firstInspected inspect (node :: main) query decode = .error e) := by
  refine ⟨fun aligned => ?_, fun misaligned => ?_⟩
  · obtain ⟨accepted, context, opened, enters, empty⟩ := built.open_ok bounded aligned
    have size : MainPointer.virtualSize (node :: main) = node.value.virtualSize := rfl
    have value : firstInspected inspect (node :: main) query decode =
        decodeFirst inspect decode (MainPointer.allMatches query (node :: main)) := by
      rw [firstInspected, opened, ok_bind, require_true (List.cons_ne_nil node main), ok_bind, size]
      by_cases nothing : node.value.virtualSize = 0
      · rw [if_pos nothing, empty nothing]
        rfl
      · rw [if_neg nothing]
        exact (enters nothing).firstInspectedFrom_eq inspect decode
    obtain ⟨root, cursor, adopted, started, drains⟩ := lookup_matches built bounded aligned
    rw [accepted, Except.ok.injEq] at adopted
    subst adopted
    refine ⟨cursor, started, fun budgets => ?_⟩
    obtain ⟨following, found, ran, initial, complete, enough⟩ := drains budgets
    refine ⟨following, found, ran, enough, fun hit rest found_eq => ⟨?_, ?_⟩, fun done none_found => ?_⟩
    · rw [value, decodeFirst_of_initial inspect decode initial (by rw [found_eq]; simp), found_eq]
      rfl
    · have member : hit ∈ MainPointer.allMatches query (node :: main) :=
        initial.subset (by rw [found_eq]; exact List.mem_cons_self)
      obtain ⟨other, below, source, -, held⟩ := MainPointer.mem_allMatches.mp member
      unfold QueryMatch.array?
      rw [source]
      dsimp only
      split_ifs at held ⊢
      · obtain ⟨leaf, leaf_eq, held⟩ := held
        exact ⟨leaf.value, by rw [leaf_eq, Option.map_some], held⟩
      · exact ⟨_, rfl, held⟩
    · rw [value, ← complete done, none_found]
      rfl
  · have refused : QueryContext.fromOwned P query = .error "query unit mismatch" := if_pos misaligned
    refine ⟨"query unit mismatch", ?_, ?_⟩
    · rw [QueryCursor.start, refused, error_bind]
    · rw [firstInspected, refused, error_bind]

/-- Any cursor over one record agrees with the read of its value. -/
theorem first_value_exact_singleton :
    let leaf : Shared (NativeArray .bytes3) := ⟨0, .singleton (List.replicate 8 true) [] (by decide)⟩
    ∃ node : ColaIndex .bytes3, adoptNative leaf [] none = .ok node ∧
      ∃ cursor, QueryCursor.start [⟨1, node⟩] (List.replicate 8 true) = .ok cursor ∧
        ∀ budgets : List Nat, ∃ following found, cursor.drain budgets = .ok (following, found) ∧
          (0 < budgets.countP (0 < ·) → following.done = true) ∧
          (∀ hit rest, found = hit :: rest →
            firstInspected (fun _ ordinal => ordinal) [⟨1, node⟩] (List.replicate 8 true) .ok =
              hit.decodeWith (fun _ ordinal => ordinal) .ok ∧
            ∃ array, hit.array? = some array ∧
              array.Holds hit.ordinal (List.replicate 8 true) hit.value) ∧
          (following.done = true → found = [] →
            firstInspected (fun _ ordinal => ordinal) [⟨1, node⟩] (List.replicate 8 true)
              (.ok : BitString → Result BitString) = .ok none) := by
  intro leaf
  obtain ⟨node, node_ok, built, -, -, count⟩ :=
    MainPointer.Built.null.adoptNative_ok 1 leaf none (by decide)
  have bounded : node.count ≤ 3 := by
    rw [count]
    decide
  exact ⟨node, node_ok, (first_value_exact _ _ built bounded _).1 (by decide)⟩

end Everett

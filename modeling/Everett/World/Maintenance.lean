import Everett.World.Dump
import Everett.World.PinChanges
import Everett.World.Round

/-!
# Maintenance of reference worlds

Whatever rounds and compactions led to a world, its look-ups, its size and its signature are those
of the table which it resolves to, and compaction, export and import keep that table.
-/

namespace Everett

variable {K V E : Type} [LinearOrder K] [DecidableEq V] [Ring E] [DecidableEq E]

/-- Two worlds with one table, one size and one signature, which answer every look-up alike. -/
structure World.SameTable (world other : World K V E) : Prop where
  resolved : other.resolved = world.resolved
  liveSize : other.liveSize = world.liveSize
  signature : other.signature = world.signature
  get : ∀ key, other.get key = world.get key

omit [DecidableEq V] [DecidableEq E] in
/-- Well formed worlds which answer alike agree in everything. -/
theorem World.WellFormed.sameTable {hash : TableHash K V E}
    {sequence later : Nat} {world other : World K V E} (formed : world.WellFormed hash sequence)
    (other_formed : other.WellFormed hash later) (same : ∀ key, other.get key = world.get key) :
    world.SameTable other := by
  have resolved : other.resolved = world.resolved :=
    World.resolved_eq other_formed.sorted formed.sorted same
  refine ⟨resolved, ?_, ?_, same⟩
  · rw [other_formed.live, formed.live, resolved]
  · rw [other_formed.signature_eq, formed.signature_eq, recomputeSignature_eq_total,
      recomputeSignature_eq_total, resolved]

/-- Maintenance of a reference world preserves its meaning: its caches are exact, compaction
succeeds, and a dump imports as the same table.  A change of a pin set which throws leaves the set as
it was, and a replacement conserves the sum of the contributions. -/
theorem reference_world_maintenance (spell : K ≃ List UInt8)
    (hash : TableHash K V E) :
    (∀ sequence world, World.Reachable hash sequence world →
      (∀ key, world.get key = valueAt key world.resolved) ∧
      world.liveSize = world.resolved.length ∧
      world.signature = world.owner.recomputeSignature ∧
      world.signature = world.recomputeSignature hash ∧
      (∃ next later, world.compact hash sequence = .ok (next, later) ∧ world.SameTable next) ∧
      ∀ (codec : WorldCodec V) (limits : WorldImportLimits) (rest : List UInt8), codec.Lawful →
        World.Within spell limits world.resolved →
        ∃ made later, World.importRc spell codec hash limits sequence
          (World.exportRc spell codec world ++ rest) = .ok (made, later) ∧ world.SameTable made) ∧
    (∀ (T : Type) (owner : PinSet T E), owner.Reachable →
      owner.signature = owner.recomputeSignature ∧
      (∀ what e after, owner.assign what = (.error e, after) → after = owner) ∧
      ∀ inputs replacements next, owner.change (.replace inputs replacements) = .ok next →
        next.signature = owner.signature ∧
        ((owner.entries.filter fun item => item.objectId ∈ inputs).map
          PinEntry.contribution).sum = (replacements.map PinItem.contribution).sum) := by
  refine ⟨fun sequence world reachable => ?_, fun T owner reachable => ?_⟩
  · have formed := reachable.wellFormed
    refine ⟨World.get_eq_valueAt formed.sorted, formed.live, formed.contributions,
      formed.signature_eq, ?_, fun codec limits rest lawful within => ?_⟩
    · obtain ⟨next, later, compacted, -, next_formed, same⟩ := formed.compact_ok
      exact ⟨next, later, compacted, formed.sameTable next_formed same⟩
    · obtain ⟨made, later, accepted, -, made_formed, same, -⟩ := formed.fromRecords_resolved
      rw [World.importRc_exportRc lawful formed within]
      exact ⟨made, later, accepted, formed.sameTable made_formed same⟩
  · have exact := reachable.exact
    refine ⟨exact.signature_eq, fun what e after failed => PinSet.assign_error failed,
      fun inputs replacements next replaced => ?_⟩
    obtain ⟨-, kept, conserved⟩ := exact.replace replaced
    exact ⟨kept, conserved⟩

end Everett

import Everett.Sampling.Cursor
import Everett.Sampling.Transport

/-!
# The transport of samples is faithful

A cursor yields every `group_size`-th key of a merge, and whatever is encoded from there on reaches
the decoder unchanged.
-/

namespace Everett

open Word Methods SampleEndpoint

variable {P : StoragePolicy}

/-- One more key is encoded, checked or with its known prefix. -/
theorem Transport.send {wire : SampleWire} (transport : Transport P wire) {key : BitString}
    (known : Bool) (counted : wire.encoder.count ≤ maximum64 / P.groupSize)
    (sorted : wire.encoder.key ≤ key) (aligned : P.Aligned key)
    (fits : key.length ≤ maximum64 - 7) :
    ∃ sample next, Transport P next ∧ next.sent = wire.sent ++ [key] ∧
      next.queue = wire.queue ++ [(sample, key)] ∧ next.received = wire.received := by
  obtain ⟨checked_ok, known_ok⟩ := transport.sound.continues.encodes (.external key) key rfl counted
    sorted aligned fits
  cases known with
  | false => exact ⟨_, _, transport.encoded checked_ok, rfl, rfl, rfl⟩
  | true => exact ⟨_, _, @Transport.known _ _ (.external key) _ _ _ _ transport sorted aligned
      counted known_ok, rfl, rfl, rfl⟩

/-- The next sample is accepted, coded or as a full key. -/
theorem Transport.receive {wire : SampleWire} (transport : Transport P wire) {key : BitString}
    {sample : CodedSample} {queue : List (CodedSample × BitString)} (full : Bool)
    (next : wire.queue = (sample, key) :: queue) :
    ∃ wire', Transport P wire' ∧ wire'.sent = wire.sent ∧ wire'.queue = queue ∧
      wire'.received.map Prod.fst = wire.received.map Prod.fst ++ [key] := by
  obtain ⟨coded_ok, full_ok⟩ := transport.sound.continues.accepts sample key queue next
  cases full with
  | false => exact ⟨_, transport.accepted next coded_ok, rfl, rfl, List.map_append⟩
  | true => exact ⟨_, transport.acceptedFull next full_ok, rfl, rfl, List.map_append⟩

/-- Every nondecreasing sequence of keys travels, each key encoded and accepted either way. -/
theorem Transport.exists_delivery (items : List (BitString × Bool × Bool))
    (sorted : (items.map Prod.fst).Pairwise (· ≤ ·))
    (each : ∀ item ∈ items, P.Aligned item.1 ∧ item.1.length ≤ maximum64 - 7)
    (counted : items.length ≤ maximum64 / P.groupSize + 1) :
    ∃ wire, Transport P wire ∧ wire.queue = [] ∧ wire.sent = items.map Prod.fst ∧
      wire.received = successive [] (items.map Prod.fst) := by
  induction items using List.reverseRecOn with
  | nil => exact ⟨_, .start, rfl, rfl, rfl⟩
  | append_singleton items item induction =>
      rw [List.map_append, List.map_singleton] at sorted ⊢
      rw [List.length_append, List.length_singleton] at counted
      obtain ⟨front_sorted, _, behind⟩ := List.pairwise_append.mp sorted
      obtain ⟨wire, transport, empty, sent, received⟩ := induction front_sorted
        (fun other member => each other (List.mem_append_left _ member)) (by omega)
      obtain ⟨aligned, fits⟩ := each item (by simp)
      have sound := transport.sound
      have count : wire.encoder.count = items.length := by
        rw [sound.encoder, sent, List.length_map]
      have last : wire.encoder.key ≤ item.1 := by
        rw [sound.encoder, sent, lastKey]
        cases final : (items.map Prod.fst).getLast? with
        | none => exact Word.nil_le _
        | some key => exact behind key (List.mem_of_getLast? final) item.1 (by simp)
      obtain ⟨sample, sending, transport', sent', queue', received'⟩ :=
        transport.send item.2.1 (by omega) last aligned fits
      rw [empty] at queue'
      obtain ⟨done, transport'', sent'', queue'', keys⟩ := transport'.receive item.2.2 queue'
      have all : done.received.map Prod.fst = items.map Prod.fst ++ [item.1] := by
        have sent_eq := sound.sent
        rw [empty, List.map_nil, List.append_nil, sent] at sent_eq
        rw [keys, received', ← sent_eq]
      refine ⟨done, transport'', queue'', ?_, ?_⟩
      · rw [sent'', sent', sent]
      · rw [transport''.sound.compared, all]

/-- Samples of a pair are the keys at every `group_size`-th position of its merge, and the transport
of samples delivers what was encoded, through any rejected calls. -/
theorem sample_transport_round_trip (P : StoragePolicy) :
    (∀ blob : ProfileBlob P, ∃ cursor occurrences, ProfileSampleCursor.start P blob = .ok cursor ∧
      StableMerge (pairSources blob.native.entries blob.borrowed.entries) occurrences ∧
      ∀ turns, occurrences.length < turns → cursor.samples P turns =
        .ok (sample P.groupSize (ProfileSampleCursor.views occurrences))) ∧
    (∀ wire, Transport P wire → wire.Sound P ∧ wire.Continues P) ∧
    (∀ items : List (BitString × Bool × Bool), (items.map Prod.fst).Pairwise (· ≤ ·) →
      (∀ item ∈ items, P.Aligned item.1 ∧ item.1.length ≤ maximum64 - 7) →
      items.length ≤ maximum64 / P.groupSize + 1 →
      ∃ wire, Transport P wire ∧ wire.queue = [] ∧ wire.sent = items.map Prod.fst ∧
        wire.received = successive [] (items.map Prod.fst)) ∧
    (∀ view ordinal common copied reserved, Atomic (encode P view ordinal copied reserved) ∧
      Atomic (encodeKnown P view ordinal common copied reserved)) ∧
    ∀ sample key ordinal reserved, Atomic (acceptCompared P sample reserved) ∧
      Atomic (acceptFull P key ordinal reserved) := by
  refine ⟨fun blob => ?_, fun wire transport => ⟨transport.sound, transport.sound.continues⟩,
    fun items sorted each counted => Transport.exists_delivery items sorted each counted,
    fun view ordinal common copied reserved => ⟨encode_atomic _ _ _ _, encodeKnown_atomic _ _ _ _ _⟩,
    fun sample key ordinal reserved => ⟨acceptCompared_atomic _ _, acceptFull_atomic _ _ _⟩⟩
  obtain ⟨cursor, occurrences, started, merge, stands, chosen⟩ := ProfileSampleCursor.start_ok blob
  refine ⟨cursor, occurrences, started, merge, fun turns enough => ?_⟩
  exact stands.samples_ok turns chosen (by omega)

end Everett

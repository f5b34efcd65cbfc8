import Everett.Sampling.Coding

/-!
# Transport of samples

An encoder runs ahead of a decoder.  Keys are encoded with or without a known common prefix, samples
are accepted in coded form or as full keys, and calls may be rejected in between.  The decoder
receives the keys in order, each compared exactly with the one before it.
-/

namespace Everett

open Word Methods SampleEndpoint SamplingDetail

variable (P : StoragePolicy)

/-- The sample which stands for a key after another one. -/
def CodedSample.of (previous key : BitString) (ordinal : Nat) : CodedSample :=
  let retained := lcp previous key / P.bitsPerUnit
  ⟨P.units previous - retained, key.drop (retained * P.bitsPerUnit), ordinal⟩

/-- An encoder, the samples under way with their keys, and a decoder. -/
structure SampleWire where
  sent : List BitString
  encoder : SampleEndpoint
  queue : List (CodedSample × BitString)
  decoder : SampleEndpoint
  received : List (BitString × BitComparison)

/-- Wires which calls of the endpoints reach. -/
inductive Transport : SampleWire → Prop
  | start : Transport ⟨[], .initial, [], .initial, []⟩
  | encoded {wire view ordinal copied reserved coded encoder} (transport : Transport wire)
      (done : call (encode P view ordinal copied reserved) wire.encoder = (.ok coded, encoder)) :
      Transport { wire with
        sent := wire.sent ++ [view.read wire.encoder.key]
        encoder
        queue := wire.queue ++ [(coded, view.read wire.encoder.key)] }
  /-- The index builder knows the common prefix of sorted keys with consecutive ordinals. -/
  | known {wire view copied reserved coded encoder} (transport : Transport wire)
      (sorted : wire.encoder.key ≤ view.read wire.encoder.key)
      (aligned : P.Aligned (view.read wire.encoder.key))
      (counted : wire.encoder.count ≤ maximum64 / P.groupSize)
      (done : call (encodeKnown P view (wire.encoder.count * P.groupSize)
        (lcp wire.encoder.key (view.read wire.encoder.key)) copied reserved) wire.encoder =
          (.ok coded, encoder)) :
      Transport { wire with
        sent := wire.sent ++ [view.read wire.encoder.key]
        encoder
        queue := wire.queue ++ [(coded, view.read wire.encoder.key)] }
  | accepted {wire sample queue reserved key comparison decoder} (transport : Transport wire)
      (next : wire.queue = sample :: queue)
      (done : call (acceptCompared P sample.1 reserved) wire.decoder =
        (.ok (key, comparison), decoder)) :
      Transport { wire with
        queue
        decoder
        received := wire.received ++ [(key, comparison)] }
  | acceptedFull {wire sample queue reserved comparison decoder} (transport : Transport wire)
      (next : wire.queue = sample :: queue)
      (done : call (acceptFull P sample.2 sample.1.targetOrdinal reserved) wire.decoder =
        (.ok comparison, decoder)) :
      Transport { wire with
        queue
        decoder
        received := wire.received ++ [(decoder.key, comparison)] }
  | rejectedEncode {wire view ordinal copied reserved e encoder} (transport : Transport wire)
      (failed : call (encode P view ordinal copied reserved) wire.encoder = (.error e, encoder)) :
      Transport { wire with encoder }
  | rejectedKnown {wire view ordinal common copied reserved e encoder} (transport : Transport wire)
      (failed : call (encodeKnown P view ordinal common copied reserved) wire.encoder =
        (.error e, encoder)) :
      Transport { wire with encoder }
  | rejectedAccept {wire sample reserved e decoder} (transport : Transport wire)
      (failed : call (acceptCompared P sample reserved) wire.decoder = (.error e, decoder)) :
      Transport { wire with decoder }
  | rejectedFull {wire key ordinal reserved e decoder} (transport : Transport wire)
      (failed : call (acceptFull P key ordinal reserved) wire.decoder = (.error e, decoder)) :
      Transport { wire with decoder }

/-- Keys with their comparison with the key before them. -/
def successive (previous : BitString) : List BitString → List (BitString × BitComparison)
  | [] => []
  | key :: keys => (key, compareCommonBits previous key) :: successive key keys

/-- The last key of a list, or the empty one. -/
def lastKey (keys : List BitString) : BitString := keys.getLast?.getD []

/-- Samples under way lead from the key of the decoder to the key of the encoder. -/
def UnderWay (last : SampleEndpoint) : SampleEndpoint → List (CodedSample × BitString) → Prop
  | endpoint, [] => endpoint = last
  | endpoint, (coded, key) :: queue =>
      coded = .of P endpoint.key key (endpoint.count * P.groupSize) ∧
        endpoint.count ≤ maximum64 / P.groupSize ∧ endpoint.key ≤ key ∧ P.Aligned key ∧
        key.length ≤ maximum64 - 7 ∧ UnderWay last ⟨key, endpoint.count + 1⟩ queue

/-- What a wire keeps. -/
structure SampleWire.Sound (wire : SampleWire) : Prop where
  underWay : UnderWay P wire.encoder wire.decoder wire.queue
  bounded : wire.decoder.key.length ≤ maximum64 - 7
  compared : wire.received = successive [] (wire.received.map Prod.fst)
  sent : wire.sent = wire.received.map Prod.fst ++ wire.queue.map Prod.snd
  ordered : wire.sent.Pairwise (· ≤ ·)
  encoder : wire.encoder = ⟨lastKey wire.sent, wire.sent.length⟩
  decoder : wire.decoder = ⟨lastKey (wire.received.map Prod.fst), wire.received.length⟩

variable {P}

/-! ## Single calls -/

/-- Retaining whole units of a common prefix and appending the rest gives the key. -/
theorem resize_append {previous key : BitString} {retained : Nat} (shared : retained ≤ lcp previous key) :
    resize previous retained ++ key.drop retained = key := by
  rw [resize_eq_take (shared.trans (lcp_le_left _ _)), take_eq_of_le_lcp shared,
    List.take_append_drop]

theorem whole_units_le (n unit : Nat) : n / unit * unit ≤ n := Nat.div_mul_le_self n unit

/-- Encoding with the exact common prefix of the context and the key. -/
theorem encodeKnown_eq (view : SampleKey) (ordinal : Nat) (endpoint : SampleEndpoint)
    {key : BitString} (same : view.read endpoint.key = key) (fits : key.length ≤ maximum64 - 7) :
    call (encodeKnown P view ordinal (lcp endpoint.key key) true true) endpoint =
      (.ok (.of P endpoint.key key ordinal), ⟨key, endpoint.count + 1⟩) := by
  have shared := whole_units_le (lcp endpoint.key key) P.bitsPerUnit
  have inside := shared.trans (lcp_le_right _ _)
  have product : lcp endpoint.key key / P.bitsPerUnit * P.bitsPerUnit ≤ maximum64 :=
    (inside.trans fits).trans (Nat.sub_le _ _)
  have room : lcp endpoint.key key / P.bitsPerUnit * P.bitsPerUnit +
      (key.drop (lcp endpoint.key key / P.bitsPerUnit * P.bitsPerUnit)).length ≤
        maximum64 - 7 := by
    rw [List.length_drop, Nat.add_sub_cancel' inside]
    exact fits
  unfold encodeKnown
  rw [call_get_bind, same]
  dsimp only
  rw [call_bind, call_evaluate, ProfileDetail.multiply, if_pos product]
  dsimp only
  rw [call_bind, call_require, if_pos inside]
  dsimp only
  rw [call_bind, call_require, if_pos rfl]
  dsimp only
  rw [call_bind, replaceSuffix_edit room]
  dsimp only
  rw [call_modify_bind, resize_append shared]
  rfl

/-- A key which was encoded is what the encoder holds then. -/
theorem encodeKnown_ok {view : SampleKey} {ordinal : Nat} {copied reserved : Bool}
    {endpoint after : SampleEndpoint} {coded : CodedSample} {key : BitString}
    (same : view.read endpoint.key = key)
    (done : call (encodeKnown P view ordinal (lcp endpoint.key key) copied reserved) endpoint =
      (.ok coded, after)) :
    coded = .of P endpoint.key key ordinal ∧ after = ⟨key, endpoint.count + 1⟩ ∧
      key.length ≤ maximum64 - 7 := by
  have shared := whole_units_le (lcp endpoint.key key) P.bitsPerUnit
  have inside := shared.trans (lcp_le_right _ _)
  unfold encodeKnown at done
  rw [call_get_bind, same] at done
  obtain ⟨bits, product, done⟩ := (reads_evaluate _).bind_eq_ok.mp done
  rw [call_evaluate] at product
  obtain ⟨_, done⟩ := require_bind_eq_ok.mp done
  obtain ⟨_, done⟩ := require_bind_eq_ok.mp done
  obtain ⟨_, later, replaced, done⟩ := Methods.bind_eq_ok.mp done
  have exact_bits : bits = lcp endpoint.key key / P.bitsPerUnit * P.bitsPerUnit := by
    have value := congrArg Prod.fst product
    dsimp only at value
    unfold ProfileDetail.multiply at value
    split_ifs at value
    cases value
    rfl
  obtain ⟨edited, room⟩ := replaceSuffix_ok replaced
  rw [exact_bits] at edited room
  rw [exact_bits, call_modify_bind] at done
  rw [edited, resize_append shared] at done
  rw [List.length_drop, Nat.add_sub_cancel' inside] at room
  cases done
  exact ⟨rfl, rfl, room⟩

theorem encode_ok {view : SampleKey} {ordinal : Nat} {copied reserved : Bool}
    {endpoint after : SampleEndpoint} {coded : CodedSample}
    (done : call (encode P view ordinal copied reserved) endpoint = (.ok coded, after)) :
    endpoint.count ≤ maximum64 / P.groupSize ∧ ordinal = endpoint.count * P.groupSize ∧
      P.Aligned (view.read endpoint.key) ∧ endpoint.key ≤ view.read endpoint.key ∧
      call (encodeKnown P view (endpoint.count * P.groupSize)
        (lcp endpoint.key (view.read endpoint.key)) copied reserved) endpoint =
          (.ok coded, after) := by
  unfold encode checkOrdinal at done
  rw [call_get_bind] at done
  obtain ⟨⟨counted, consecutive⟩, done⟩ := require_bind_eq_ok.mp done
  obtain ⟨aligned, done⟩ := require_bind_eq_ok.mp done
  obtain ⟨sorted, done⟩ := require_bind_eq_ok.mp done
  rw [consecutive] at done
  exact ⟨counted, consecutive, aligned, order_ne_gt.mp sorted, done⟩

theorem encode_eq {view : SampleKey} {endpoint : SampleEndpoint} (copied reserved : Bool)
    (counted : endpoint.count ≤ maximum64 / P.groupSize)
    (aligned : P.Aligned (view.read endpoint.key))
    (sorted : endpoint.key ≤ view.read endpoint.key) :
    call (encode P view (endpoint.count * P.groupSize) copied reserved) endpoint =
      call (encodeKnown P view (endpoint.count * P.groupSize)
        (lcp endpoint.key (view.read endpoint.key)) copied reserved) endpoint := by
  have in_order : (compareCommonBits endpoint.key (view.read endpoint.key)).order ≠ .gt :=
    order_ne_gt.mpr sorted
  unfold encode checkOrdinal
  rw [call_get_bind, call_bind, call_require, if_pos ⟨counted, rfl⟩]
  dsimp only
  rw [call_bind, call_require, if_pos aligned]
  dsimp only
  rw [call_bind, call_require, if_pos in_order]
  rfl

/-- A checked suffix is replaced when the reservation succeeds. -/
theorem replaceSuffix_finish {α : Type} {previous key : BitString} {retained count : Nat}
    (shared : retained ≤ lcp previous key) (fits : key.length ≤ maximum64 - 7) (reserved : Bool)
    (answer : SampleEndpoint → α) :
    call (do
        replaceSuffix retained (key.drop retained) reserved
        modify fun endpoint => { endpoint with count := endpoint.count + 1 }
        let endpoint ← get
        return answer endpoint) (⟨previous, count⟩ : SampleEndpoint) =
      if reserved then (.ok (answer ⟨key, count + 1⟩), ⟨key, count + 1⟩)
      else (.error "bad_alloc", ⟨previous, count⟩) := by
  have inside := shared.trans (lcp_le_right _ _)
  have room : retained + (key.drop retained).length ≤ maximum64 - 7 := by
    rw [List.length_drop, Nat.add_sub_cancel' inside]
    exact fits
  have summed : retained + (key.drop retained).length ≤ maximum64 := room.trans (Nat.sub_le _ _)
  cases reserved with
  | true =>
      rw [call_bind, replaceSuffix_edit room]
      dsimp only
      rw [call_modify_bind, call_get_bind, resize_append shared]
      rfl
  | false =>
      rw [call_bind]
      unfold replaceSuffix
      rw [call_bind, call_evaluate, ProfileDetail.add, if_pos summed]
      dsimp only
      rw [call_bind, call_require, if_pos room]
      dsimp only
      rw [call_bind, call_require, if_neg (by decide)]
      rfl

/-- A coded sample is accepted over the key it was coded after. -/
theorem acceptCompared_eq {endpoint : SampleEndpoint} {key : BitString} {sample : CodedSample}
    (coded : sample = .of P endpoint.key key (endpoint.count * P.groupSize)) (reserved : Bool)
    (counted : endpoint.count ≤ maximum64 / P.groupSize) (sorted : endpoint.key ≤ key)
    (aligned : P.Aligned key) (bounded : endpoint.key.length ≤ maximum64 - 7)
    (fits : key.length ≤ maximum64 - 7) :
    call (acceptCompared P sample reserved) endpoint =
      if reserved then
        (.ok (key, compareCommonBits endpoint.key key), ⟨key, endpoint.count + 1⟩)
      else (.error "bad_alloc", endpoint) := by
  obtain ⟨previous, count⟩ := endpoint
  obtain ⟨backspace, suffix, ordinal⟩ := sample
  obtain ⟨rfl, rfl, rfl⟩ := CodedSample.mk.inj coded
  dsimp only at counted sorted bounded ⊢
  have shared := whole_units_le (lcp previous key) P.bitsPerUnit
  have units : lcp previous key / P.bitsPerUnit ≤ P.units previous :=
    Nat.div_le_div_right (lcp_le_left _ _)
  have kept : P.units previous - (P.units previous - lcp previous key / P.bitsPerUnit) =
      lcp previous key / P.bitsPerUnit := Nat.sub_sub_self units
  have product : lcp previous key / P.bitsPerUnit * P.bitsPerUnit ≤ maximum64 :=
    ((shared.trans (lcp_le_left _ _)).trans bounded).trans (Nat.sub_le _ _)
  have suffix_aligned : P.Aligned (key.drop (lcp previous key / P.bitsPerUnit * P.bitsPerUnit)) := by
    unfold StoragePolicy.Aligned
    rw [List.length_drop]
    exact Nat.dvd_sub aligned (Dvd.intro_left _ rfl)
  have common := lcp_drop shared
  have ordered := order_drop shared
  have in_order : (compareCommonBits
      (previous.drop (lcp previous key / P.bitsPerUnit * P.bitsPerUnit))
      (key.drop (lcp previous key / P.bitsPerUnit * P.bitsPerUnit))).order ≠ .gt := by
    change order _ _ ≠ _
    rw [← ordered]
    exact order_ne_gt.mpr sorted
  unfold acceptCompared checkOrdinal
  rw [call_get_bind, call_bind, call_require, if_pos ⟨counted, rfl⟩]
  dsimp only
  rw [call_bind, call_require, if_pos suffix_aligned]
  dsimp only
  rw [call_bind, call_require, if_pos (by exact Nat.sub_le _ _)]
  dsimp only
  rw [call_bind, call_evaluate, kept, ProfileDetail.multiply, if_pos product]
  dsimp only
  rw [call_bind, call_require, if_pos in_order]
  dsimp only
  rw [replaceSuffix_finish shared fits, compareCommonBits, compareCommonBits, ← ordered,
    Nat.add_comm _ (lcp previous key / P.bitsPerUnit * P.bitsPerUnit), ← common]

/-- A full key is accepted after any key which is not behind it. -/
theorem acceptFull_eq {endpoint : SampleEndpoint} {key : BitString} (reserved : Bool)
    (counted : endpoint.count ≤ maximum64 / P.groupSize) (sorted : endpoint.key ≤ key)
    (aligned : P.Aligned key) (fits : key.length ≤ maximum64 - 7) :
    call (acceptFull P key (endpoint.count * P.groupSize) reserved) endpoint =
      if reserved then (.ok (compareCommonBits endpoint.key key), ⟨key, endpoint.count + 1⟩)
      else (.error "bad_alloc", endpoint) := by
  obtain ⟨previous, count⟩ := endpoint
  dsimp only at counted sorted ⊢
  have shared := whole_units_le (lcp previous key) 8
  have finish := @replaceSuffix_finish BitComparison previous key _ count shared fits reserved
    fun _ => compareCommonBits previous key
  have in_order : (compareCommonBits previous key).order ≠ .gt := order_ne_gt.mpr sorted
  unfold acceptFull checkOrdinal
  rw [call_get_bind, call_bind, call_require, if_pos ⟨counted, rfl⟩]
  dsimp only
  rw [call_bind, call_require, if_pos aligned]
  dsimp only
  rw [call_bind, call_require, if_pos in_order]
  exact finish

/-! ## Runs -/

theorem UnderWay.append {last endpoint : SampleEndpoint} {queue : List (CodedSample × BitString)}
    {sample : CodedSample} {key : BitString} (underWay : UnderWay P last endpoint queue)
    (coded : sample = .of P last.key key (last.count * P.groupSize))
    (counted : last.count ≤ maximum64 / P.groupSize) (sorted : last.key ≤ key)
    (aligned : P.Aligned key) (fits : key.length ≤ maximum64 - 7) :
    UnderWay P ⟨key, last.count + 1⟩ endpoint (queue ++ [(sample, key)]) := by
  induction queue generalizing endpoint with
  | nil =>
      obtain rfl := underWay
      exact ⟨coded, counted, sorted, aligned, fits, rfl⟩
  | cons first queue induction =>
      obtain ⟨same, first_counted, first_sorted, first_aligned, first_fits, later⟩ := underWay
      exact ⟨same, first_counted, first_sorted, first_aligned, first_fits, induction later⟩

theorem lastKey_append (keys : List BitString) (key : BitString) :
    lastKey (keys ++ [key]) = key := by
  rw [lastKey, List.getLast?_concat, Option.getD_some]

theorem le_lastKey {keys : List BitString} (ordered : keys.Pairwise (· ≤ ·)) {key : BitString}
    (member : key ∈ keys) : key ≤ lastKey keys := by
  induction keys using List.reverseRecOn with
  | nil => cases member
  | append_singleton keys last _ =>
      rw [lastKey_append]
      rcases List.mem_append.mp member with earlier | same
      · exact (List.pairwise_append.mp ordered).2.2 key earlier last (List.mem_singleton_self last)
      · exact (List.mem_singleton.mp same).le

theorem successive_append (previous : BitString) (keys : List BitString) (key : BitString) :
    successive previous (keys ++ [key]) =
      successive previous keys ++ [(key, compareCommonBits (keys.getLast?.getD previous) key)] := by
  induction keys generalizing previous with
  | nil => rfl
  | cons first keys induction =>
      rw [List.cons_append, successive, successive, induction, List.getLast?_cons, Option.getD_some,
        List.cons_append]

theorem SampleWire.Sound.send {wire : SampleWire} (sound : wire.Sound P) {key : BitString}
    {sample : CodedSample}
    (coded : sample = .of P wire.encoder.key key (wire.encoder.count * P.groupSize))
    (counted : wire.encoder.count ≤ maximum64 / P.groupSize) (sorted : wire.encoder.key ≤ key)
    (aligned : P.Aligned key) (fits : key.length ≤ maximum64 - 7) :
    SampleWire.Sound P { wire with
      sent := wire.sent ++ [key]
      encoder := ⟨key, wire.encoder.count + 1⟩
      queue := wire.queue ++ [(sample, key)] } where
  underWay := sound.underWay.append coded counted sorted aligned fits
  bounded := sound.bounded
  compared := sound.compared
  sent := by
    dsimp only
    rw [sound.sent, List.map_append, List.append_assoc]
    rfl
  ordered := by
    refine List.pairwise_append.mpr ⟨sound.ordered, List.pairwise_singleton _ _, ?_⟩
    intro earlier member last is_last
    rw [List.mem_singleton.mp is_last]
    rw [sound.encoder] at sorted
    exact (le_lastKey sound.ordered member).trans sorted
  encoder := by
    dsimp only
    rw [lastKey_append, List.length_append, List.length_singleton, sound.encoder]
  decoder := sound.decoder

theorem SampleWire.Sound.receive {wire : SampleWire} (sound : wire.Sound P) {sample : CodedSample}
    {key : BitString} {queue : List (CodedSample × BitString)}
    (next : wire.queue = (sample, key) :: queue) :
    SampleWire.Sound P { wire with
      queue
      decoder := ⟨key, wire.decoder.count + 1⟩
      received := wire.received ++ [(key, compareCommonBits wire.decoder.key key)] } where
  underWay := by
    have underWay := sound.underWay
    rw [next] at underWay
    exact underWay.2.2.2.2.2
  bounded := by
    have underWay := sound.underWay
    rw [next] at underWay
    exact underWay.2.2.2.2.1
  compared := by
    have previous : wire.decoder.key = (wire.received.map Prod.fst).getLast?.getD [] := by
      rw [sound.decoder]
      rfl
    dsimp only
    rw [List.map_append, List.map_singleton, successive_append, ← previous, ← sound.compared]
  sent := by
    have sent := sound.sent
    rw [next] at sent
    dsimp only
    rw [sent, List.map_append, List.append_assoc]
    rfl
  ordered := sound.ordered
  encoder := sound.encoder
  decoder := by
    dsimp only
    rw [List.map_append, List.map_singleton, lastKey_append, List.length_append,
      List.length_singleton, sound.decoder]

/-- Every wire which calls of the endpoints reach is sound. -/
theorem Transport.sound {wire : SampleWire} (transport : Transport P wire) : wire.Sound P := by
  induction transport with
  | start => exact ⟨rfl, Nat.zero_le _, rfl, rfl, .nil, rfl, rfl⟩
  | encoded _ done sound =>
      obtain ⟨counted, _, aligned, sorted, known⟩ := encode_ok done
      obtain ⟨coded, after, fits⟩ := encodeKnown_ok rfl known
      rw [after]
      exact sound.send coded counted sorted aligned fits
  | known _ sorted aligned counted done sound =>
      obtain ⟨coded, after, fits⟩ := encodeKnown_ok rfl done
      rw [after]
      exact sound.send coded counted sorted aligned fits
  | @accepted wire sample queue reserved key comparison decoder _ next done sound =>
      have underWay := sound.underWay
      rw [next] at underWay
      obtain ⟨coded, counted, sorted, aligned, fits, _⟩ := underWay
      rw [acceptCompared_eq coded reserved counted sorted aligned sound.bounded fits] at done
      split_ifs at done with succeeded
      · cases done
        exact sound.receive next
      · cases done
  | @acceptedFull wire sample queue reserved comparison decoder _ next done sound =>
      have underWay := sound.underWay
      rw [next] at underWay
      obtain ⟨coded, counted, sorted, aligned, fits, _⟩ := underWay
      have ordinal : sample.1.targetOrdinal = wire.decoder.count * P.groupSize := by rw [coded]; rfl
      rw [ordinal, acceptFull_eq reserved counted sorted aligned fits] at done
      split_ifs at done with succeeded
      · cases done
        exact sound.receive next
      · cases done
  | @rejectedEncode wire view ordinal copied reserved e encoder _ failed sound =>
      have kept := encode_atomic view ordinal copied reserved wire.encoder e (by rw [failed])
      rw [failed] at kept
      rw [show encoder = wire.encoder from kept]
      exact sound
  | @rejectedKnown wire view ordinal common copied reserved e encoder _ failed sound =>
      have kept := encodeKnown_atomic view ordinal common copied reserved wire.encoder e
        (by rw [failed])
      rw [failed] at kept
      rw [show encoder = wire.encoder from kept]
      exact sound
  | @rejectedAccept wire sample reserved e decoder _ failed sound =>
      have kept := acceptCompared_atomic sample reserved wire.decoder e (by rw [failed])
      rw [failed] at kept
      rw [show decoder = wire.decoder from kept]
      exact sound
  | @rejectedFull wire key ordinal reserved e decoder _ failed sound =>
      have kept := acceptFull_atomic key ordinal reserved wire.decoder e (by rw [failed])
      rw [failed] at kept
      rw [show decoder = wire.decoder from kept]
      exact sound

/-- What a reached wire promises for its next calls. -/
structure SampleWire.Continues (P : StoragePolicy) (wire : SampleWire) : Prop where
  /-- The following key of the sequence is encoded, with or without its known prefix. -/
  encodes : ∀ view key, view.read wire.encoder.key = key →
    wire.encoder.count ≤ maximum64 / P.groupSize → wire.encoder.key ≤ key → P.Aligned key →
    key.length ≤ maximum64 - 7 →
      call (encode P view (wire.encoder.count * P.groupSize) true true) wire.encoder =
        (.ok (.of P wire.encoder.key key (wire.encoder.count * P.groupSize)),
          ⟨key, wire.encoder.count + 1⟩) ∧
      call (encodeKnown P view (wire.encoder.count * P.groupSize) (lcp wire.encoder.key key)
        true true) wire.encoder =
          (.ok (.of P wire.encoder.key key (wire.encoder.count * P.groupSize)),
            ⟨key, wire.encoder.count + 1⟩)
  /-- The next sample is accepted, in coded form or as a full key. -/
  accepts : ∀ sample key queue, wire.queue = (sample, key) :: queue →
    call (acceptCompared P sample true) wire.decoder =
      (.ok (key, compareCommonBits wire.decoder.key key), ⟨key, wire.decoder.count + 1⟩) ∧
    call (acceptFull P key sample.targetOrdinal true) wire.decoder =
      (.ok (compareCommonBits wire.decoder.key key), ⟨key, wire.decoder.count + 1⟩)

theorem SampleWire.Sound.continues {wire : SampleWire} (sound : wire.Sound P) :
    wire.Continues P where
  encodes := by
    rintro view key rfl counted sorted aligned fits
    rw [encode_eq true true counted aligned sorted, encodeKnown_eq view _ _ rfl fits]
    exact ⟨rfl, rfl⟩
  accepts := by
    intro sample key queue next
    have underWay := sound.underWay
    rw [next] at underWay
    obtain ⟨coded, counted, sorted, aligned, fits, _⟩ := underWay
    have ordinal : sample.targetOrdinal = wire.decoder.count * P.groupSize := by rw [coded]; rfl
    rw [acceptCompared_eq coded true counted sorted aligned sound.bounded fits, ordinal,
      acceptFull_eq true counted sorted aligned fits]
    exact ⟨rfl, rfl⟩

end Everett

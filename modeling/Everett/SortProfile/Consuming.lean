import Everett.Sort.Codecs

/-!
# Readers which consume what they read

A value codec can skip a value without decoding it.  What a skip consumes is told from whatever
follows it, because every reader of bit streams looks only at the bits which it takes.
-/

namespace Everett

open Outcome

/-- A reader which succeeds takes some bits, and takes them whatever follows. -/
def Consumes {α : Type} (read : SortBitReader → Result (α × SortBitReader)) : Prop :=
  ∀ reader value after, read reader = .ok (value, after) →
    ∃ taken, reader.bits = taken ++ after.bits ∧ Reads read taken value

namespace Reads

variable {α β : Type} {read : SortBitReader → Result (α × SortBitReader)} {bits : BitString}
  {value : α}

/-- Where a reader stands after it took its bits. -/
theorem after_eq (reads : Reads read bits value) {rest : BitString} {position : Nat}
    {found : α} {after : SortBitReader} (done : read ⟨bits ++ rest, position⟩ = .ok (found, after)) :
    found = value ∧ after = ⟨rest, position + bits.length⟩ := by
  rw [reads] at done
  cases done
  exact ⟨rfl, rfl⟩

/-- Two readers one after the other. -/
theorem bind (reads : Reads read bits value) {next : α → SortBitReader → Result (β × SortBitReader)}
    {more : BitString} {other : β} (then_reads : Reads (next value) more other) :
    Reads (fun reader => read reader >>= fun found => next found.1 found.2) (bits ++ more) other := by
  intro rest position
  have first := reads (more ++ rest) position
  simp only
  rw [List.append_assoc, first, ok_bind]
  simp only
  rw [then_reads, List.length_append, Nat.add_assoc]

end Reads

namespace Consumes

variable {α β : Type} {read : SortBitReader → Result (α × SortBitReader)}

theorem bind (consumes : Consumes read) {next : α → SortBitReader → Result (β × SortBitReader)}
    (then_consumes : ∀ value, Consumes (next value)) :
    Consumes fun reader => read reader >>= fun found => next found.1 found.2 := by
  intro reader other after done
  obtain ⟨⟨value, middle⟩, first, second⟩ := bind_eq_ok.mp done
  obtain ⟨taken, split, reads⟩ := consumes reader value middle first
  obtain ⟨more, more_split, more_reads⟩ := then_consumes value middle other after second
  exact ⟨taken ++ more, by rw [split, more_split, List.append_assoc], reads.bind more_reads⟩

theorem pure (value : α) : Consumes fun reader => .ok (value, reader) := by
  intro reader found after done
  cases done
  exact ⟨[], rfl, fun _ _ => rfl⟩

theorem error (text : String) : Consumes fun _ => (.error text : Result (α × SortBitReader)) := by
  intro reader found after done
  cases done

theorem require {condition : Prop} [Decidable condition] (text : String) (consumes : Consumes read) :
    Consumes fun reader => Outcome.require condition text >>= fun _ : PUnit => read reader := by
  intro reader value after done
  obtain ⟨_, holds, done⟩ := bind_eq_ok.mp done
  obtain ⟨taken, split, reads⟩ := consumes reader value after done
  refine ⟨taken, split, fun rest position => ?_⟩
  simp only
  rw [require_true (require_eq_ok.mp holds), ok_bind, reads]

end Consumes

namespace SortBitReader

theorem takeBits_consumes (count : Nat) : Consumes (takeBits count) := by
  intro reader bits after done
  obtain ⟨_, enough, done⟩ := bind_eq_ok.mp done
  cases done
  have enough := require_eq_ok.mp enough
  have length : (reader.bits.take count).length = count := List.length_take_of_le enough
  refine ⟨reader.bits.take count, (List.take_append_drop _ _).symm, ?_⟩
  have reads := takeBits_reads (reader.bits.take count)
  rwa [length] at reads

theorem readBits_consumes (width : Nat) : Consumes (readBits width) := by
  intro reader value after done
  obtain ⟨_, enough, done⟩ := bind_eq_ok.mp done
  cases done
  have enough := require_eq_ok.mp enough
  have length : (reader.bits.take width).length = width := List.length_take_of_le enough.2
  refine ⟨reader.bits.take width, (List.take_append_drop _ _).symm, ?_⟩
  have reads := readBits_reads enough.1 (BitField.ofBits (reader.bits.take width))
  have field := BitField.toBits_ofBits (reader.bits.take width)
  have small := BitField.ofBits_lt (reader.bits.take width)
  rw [length] at field small
  rwa [field, Nat.mod_eq_of_lt small] at reads

theorem zeroRun_ok {limit : Nat} {truncated overflow : String} {zeros found : Nat}
    {bits rest : BitString} (done : zeroRun limit truncated overflow zeros bits = .ok (found, rest))
    (within : zeros ≤ limit) :
    ∃ more, found = zeros + more ∧ found ≤ limit ∧
      bits = List.replicate more false ++ true :: rest := by
  induction bits generalizing zeros with
  | nil => cases done
  | cons bit bits induction =>
      cases bit with
      | true =>
          cases done
          exact ⟨0, rfl, within, rfl⟩
      | false =>
          rw [zeroRun] at done
          split at done
          · cases done
          · rename_i below
            obtain ⟨more, same, bounded, split⟩ := induction done (by omega)
            refine ⟨more + 1, by omega, bounded, ?_⟩
            rw [split]
            rfl

theorem readZeroRun_consumes (limit : Nat) (truncated overflow : String) :
    Consumes (readZeroRun limit truncated overflow) := by
  intro reader zeros after done
  obtain ⟨⟨found, rest⟩, run, done⟩ := bind_eq_ok.mp done
  cases done
  obtain ⟨more, same, bounded, split⟩ := zeroRun_ok run (Nat.zero_le _)
  rw [Nat.zero_add] at same
  subst same
  refine ⟨List.replicate zeros false ++ [true], ?_, readZeroRun_reads _ _ bounded⟩
  rw [split, List.append_assoc]
  rfl

theorem readExponential_consumes : Consumes readExponential := by
  intro reader quotient after done
  obtain ⟨⟨zeros, middle⟩, run, done⟩ := bind_eq_ok.mp done
  obtain ⟨_, -, done⟩ := bind_eq_ok.mp done
  obtain ⟨⟨suffix, last⟩, field, done⟩ := bind_eq_ok.mp done
  obtain ⟨⟨found, rest⟩, zero_run, same⟩ := bind_eq_ok.mp run
  cases same
  obtain ⟨more, same, bounded, split⟩ := zeroRun_ok zero_run (Nat.zero_le _)
  rw [Nat.zero_add] at same
  subst same
  obtain ⟨_, enough, same⟩ := bind_eq_ok.mp field
  cases same
  have enough := (require_eq_ok.mp enough).2
  have length : (rest.take zeros).length = zeros := List.length_take_of_le enough
  have small := BitField.ofBits_lt (rest.take zeros)
  have field := BitField.toBits_ofBits (rest.take zeros)
  rw [length] at small field
  have value : if zeros = 64 then BitField.ofBits (rest.take zeros) % 2 ^ zeros = 0 ∧
      quotient = maximum64 else quotient = 2 ^ zeros - 1 + BitField.ofBits (rest.take zeros) %
        2 ^ zeros := by
    rw [Nat.mod_eq_of_lt small]
    dsimp only at done
    split_ifs at done ⊢
    · obtain ⟨_, zero, same⟩ := bind_eq_ok.mp done
      cases same
      exact ⟨require_eq_ok.mp zero, rfl⟩
    · cases done
      rfl
  have last_bits : after.bits = rest.drop zeros := by
    dsimp only at done
    split_ifs at done
    · obtain ⟨_, -, same⟩ := bind_eq_ok.mp done
      cases same
      rfl
    · cases done
      rfl
  have reads := readExponential_run bounded _ value
  rw [field] at reads
  refine ⟨_, ?_, reads⟩
  rw [split, last_bits, List.append_assoc, List.take_append_drop, List.append_assoc]
  rfl

theorem readRemainder_consumes (modulus : Nat) : Consumes (readRemainder modulus) := by
  unfold readRemainder
  by_cases none_needed : CountCode.golombWidth modulus = 0
  · simp only [if_pos none_needed]
    exact .pure 0
  · simp only [if_neg none_needed]
    have last : ∀ remainder, Consumes fun reader =>
        readBits 1 reader >>= fun found : Nat × SortBitReader =>
          (.ok (2 * remainder + found.1 - CountCode.golombCutoff modulus, found.2) :
            Result (Nat × SortBitReader)) := fun remainder => (readBits_consumes 1).bind fun bit =>
      .pure (2 * remainder + bit - CountCode.golombCutoff modulus)
    have tail : ∀ remainder, Consumes fun reader =>
        if CountCode.golombCutoff modulus ≤ remainder then
          readBits 1 reader >>= fun found : Nat × SortBitReader =>
            (.ok (2 * remainder + found.1 - CountCode.golombCutoff modulus, found.2) :
              Result (Nat × SortBitReader))
        else .ok (remainder, reader) := by
      intro remainder
      by_cases long : CountCode.golombCutoff modulus ≤ remainder
      · simp only [if_pos long]
        exact last remainder
      · simp only [if_neg long]
        exact .pure remainder
    exact (readBits_consumes _).bind tail

/-- A count is told from whatever follows it. -/
theorem readCount_consumes (count : CountCode) : Consumes (readCount count) := by
  obtain ⟨code, valid⟩ := count
  cases code with
  | exponentialGolomb order =>
      have remainder : ∀ quotient, Consumes fun reader =>
          readBits order reader >>= fun found : Nat × SortBitReader =>
            (.ok (quotient * 2 ^ order + found.1, found.2) : Result (Nat × SortBitReader)) :=
        fun quotient => (readBits_consumes order).bind fun value => .pure (quotient * 2 ^ order + value)
      have tail := fun quotient => @Consumes.require _ _ (quotient ≤ maximum64 / 2 ^ order) _
        "overflowing exponential-Golomb backspace" (remainder quotient)
      exact readExponential_consumes.bind tail
  | golomb modulus =>
      have total := fun quotient remainder => @Consumes.require _ _
        (remainder ≤ maximum64 - quotient * modulus) _ "overflowing Golomb backspace"
        (Consumes.pure (quotient * modulus + remainder))
      have tail := fun quotient => (readRemainder_consumes modulus).bind (total quotient)
      exact (readZeroRun_consumes _ _ _).bind tail

end SortBitReader

end Everett

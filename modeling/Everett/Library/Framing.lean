import Everett.Library.LittleEndian

/-!
# Framed encodings

An encoding is framed when it can be told from whatever follows it.  Framed encodings compose, and
what is composed of them is injective.
-/

namespace Everett

universe u v w

variable {α : Type u} {β : Type v} {γ : Type w}

/-- Equal strings which start with two encodings start with the same one. -/
def Framed (encode : α → List γ) : Prop :=
  ∀ a b rest other, encode a ++ rest = encode b ++ other → a = b ∧ rest = other

/-- A list whose length a machine word holds. -/
structure Sized (α : Type u) where
  items : List α
  length_lt : items.length < 2 ^ 64
  deriving DecidableEq

namespace Sized

@[ext]
theorem ext {a b : Sized α} (same : a.items = b.items) : a = b := by
  cases a
  cases b
  cases same
  rfl

/-- The empty list. -/
def nil : Sized α := ⟨[], Nat.two_pow_pos 64⟩

/-- A list which came from a longer one. -/
def shorten (a : Sized α) (items : List α) (shorter : items.length ≤ a.items.length) : Sized α :=
  ⟨items, shorter.trans_lt a.length_lt⟩

end Sized

namespace Framed

theorem injective {encode : α → List γ} (framed : Framed encode) : Function.Injective encode := by
  intro a b same
  exact (framed a b [] [] (by rw [same])).1

/-- An injective encoding of one width is framed. -/
theorem of_length {encode : α → List γ} (width : Nat) (length : ∀ a, (encode a).length = width)
    (injective : Function.Injective encode) : Framed encode := by
  intro a b rest other same
  obtain ⟨front, back⟩ := List.append_inj same ((length a).trans (length b).symm)
  exact ⟨injective front, back⟩

theorem append {first : α → List γ} {second : β → List γ} (one : Framed first)
    (two : Framed second) : Framed fun p : α × β => first p.1 ++ second p.2 := by
  rintro ⟨a, b⟩ ⟨c, d⟩ rest other same
  rw [List.append_assoc, List.append_assoc] at same
  obtain ⟨rfl, later⟩ := one _ _ _ _ same
  obtain ⟨rfl, rfl⟩ := two _ _ _ _ later
  exact ⟨rfl, rfl⟩

theorem comp {encode : β → List γ} (framed : Framed encode) {f : α → β}
    (injective : Function.Injective f) : Framed fun a => encode (f a) := by
  intro a b rest other same
  obtain ⟨equal, tails⟩ := framed _ _ _ _ same
  exact ⟨injective equal, tails⟩

/-- Encodings of equally many items. -/
theorem flatMap_of_length {encode : α → List γ} (framed : Framed encode) {first second : List α}
    {rest other : List γ} (length : first.length = second.length)
    (same : first.flatMap encode ++ rest = second.flatMap encode ++ other) :
    first = second ∧ rest = other := by
  induction first generalizing second with
  | nil =>
      cases List.length_eq_zero_iff.mp length.symm
      exact ⟨rfl, same⟩
  | cons a first induction =>
      cases second with
      | nil => cases length
      | cons b second =>
          rw [List.flatMap_cons, List.flatMap_cons, List.append_assoc, List.append_assoc] at same
          obtain ⟨rfl, later⟩ := framed _ _ _ _ same
          obtain ⟨rfl, rfl⟩ := induction (Nat.succ.inj length) later
          exact ⟨rfl, rfl⟩

/-- Items up to the end of a string. -/
theorem flatMap_injective {encode : α → List γ} (framed : Framed encode)
    (nonempty : ∀ a, encode a ≠ []) {first second : List α}
    (same : first.flatMap encode = second.flatMap encode) : first = second := by
  induction first generalizing second with
  | nil =>
      cases second with
      | nil => rfl
      | cons b second =>
          rw [List.flatMap_cons] at same
          exact absurd (List.append_eq_nil_iff.mp same.symm).1 (nonempty b)
  | cons a first induction =>
      cases second with
      | nil =>
          rw [List.flatMap_cons] at same
          exact absurd (List.append_eq_nil_iff.mp same).1 (nonempty a)
      | cons b second =>
          rw [List.flatMap_cons, List.flatMap_cons] at same
          obtain ⟨rfl, later⟩ := framed _ _ _ _ same
          rw [induction later]

end Framed

/-! ## Numbers and counted lists -/

namespace LittleEndian

/-- A number of eight bytes. -/
theorem toBytes_injective {width first second : Nat} (first_fits : first < 256 ^ width)
    (second_fits : second < 256 ^ width)
    (same : toBytes width first = toBytes width second) : first = second := by
  rw [← ofBytes_toBytes_of_lt first_fits, same, ofBytes_toBytes_of_lt second_fits]

/-- A list behind its length. -/
def counted (encode : α → List UInt8) (list : Sized α) : List UInt8 :=
  toBytes 8 list.items.length ++ list.items.flatMap encode

theorem framed_counted {encode : α → List UInt8} (framed : Framed encode) :
    Framed (counted encode) := by
  intro a b rest other same
  rw [counted, counted, List.append_assoc, List.append_assoc] at same
  obtain ⟨count, later⟩ := List.append_inj same (by rw [length_toBytes, length_toBytes])
  have length := toBytes_injective a.length_lt b.length_lt count
  obtain ⟨items, rfl⟩ := framed.flatMap_of_length length later
  exact ⟨Sized.ext items, rfl⟩

end LittleEndian

end Everett

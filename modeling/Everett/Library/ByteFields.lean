import Everett.Library.LittleEndian

/-!
# Fields of a byte string

A byte string of a fixed layout is read and written field by field.  A string is determined by the
fields which cover it.
-/

namespace Everett.ByteFields

/-- A field of a byte string. -/
def slice (bytes : List UInt8) (start width : Nat) : List UInt8 := (bytes.drop start).take width

/-- Replace a field of a byte string. -/
def overwrite (bytes : List UInt8) (start : Nat) (data : List UInt8) : List UInt8 :=
  bytes.take start ++ data ++ bytes.drop (start + data.length)

/-- The number which a little-endian field holds. -/
def get (bytes : List UInt8) (start width : Nat) : Nat :=
  LittleEndian.ofBytes (slice bytes start width)

/-- Write a number into a little-endian field. -/
def put (bytes : List UInt8) (start width value : Nat) : List UInt8 :=
  overwrite bytes start (LittleEndian.toBytes width value)

/-- A number for a field of a byte string. -/
structure Field where
  start : Nat
  width : Nat
  value : Nat

/-- Fields which share no byte. -/
def Field.Apart (one two : Field) : Prop :=
  one.start + one.width ≤ two.start ∨ two.start + two.width ≤ one.start

/-- Write some fields in order. -/
def putAll (bytes : List UInt8) (fields : List Field) : List UInt8 :=
  fields.foldl (fun bytes field => put bytes field.start field.width field.value) bytes

variable {bytes data : List UInt8} {start width other value : Nat}

theorem length_slice (fits : start + width ≤ bytes.length) :
    (slice bytes start width).length = width := by
  rw [slice, List.length_take, List.length_drop]
  omega

@[simp] theorem length_overwrite (fits : start + data.length ≤ bytes.length) :
    (overwrite bytes start data).length = bytes.length := by
  rw [overwrite, List.length_append, List.length_append, List.length_take, List.length_drop]
  omega

@[simp] theorem length_put (fits : start + width ≤ bytes.length) :
    (put bytes start width value).length = bytes.length :=
  length_overwrite (by rwa [LittleEndian.length_toBytes])

/-- A field which was written is read back. -/
theorem slice_overwrite (fits : start + data.length ≤ bytes.length) :
    slice (overwrite bytes start data) start data.length = data := by
  have before : (bytes.take start).length = start := List.length_take_of_le (by omega)
  rw [slice, overwrite, List.append_assoc, List.drop_left' before, List.take_left]

/-- Writing a field leaves the others as they are. -/
theorem slice_overwrite_of_disjoint (fits : start + data.length ≤ bytes.length)
    (disjoint : other + width ≤ start ∨ start + data.length ≤ other) :
    slice (overwrite bytes start data) other width = slice bytes other width := by
  have before : (bytes.take start).length = start := List.length_take_of_le (by omega)
  rcases disjoint with left | right
  · rw [slice, slice, overwrite, List.append_assoc,
      List.drop_append_of_le_length (by omega), List.take_append_of_le_length
        (by rw [List.length_drop]; omega), List.drop_take, List.take_take, Nat.min_eq_left (by omega)]
  · have whole : (bytes.take start ++ data).length = start + data.length := by
      rw [List.length_append, before]
    rw [slice, slice, overwrite, List.drop_append, whole, List.drop_eq_nil_of_le (by omega),
      List.nil_append, List.drop_drop]
    congr 2
    omega

theorem get_put (fits : start + width ≤ bytes.length) :
    get (put bytes start width value) start width = value % 256 ^ width := by
  have length := LittleEndian.length_toBytes width value
  have written := @slice_overwrite bytes (LittleEndian.toBytes width value) start
    (by rwa [length])
  rw [length] at written
  rw [get, put, written, LittleEndian.ofBytes_toBytes]

theorem slice_put_of_disjoint {size : Nat} (fits : start + width ≤ bytes.length)
    (disjoint : other + size ≤ start ∨ start + width ≤ other) :
    slice (put bytes start width value) other size = slice bytes other size :=
  slice_overwrite_of_disjoint (by rwa [LittleEndian.length_toBytes])
    (by rwa [LittleEndian.length_toBytes])

theorem get_put_of_disjoint {size : Nat} (fits : start + width ≤ bytes.length)
    (disjoint : other + size ≤ start ∨ start + width ≤ other) :
    get (put bytes start width value) other size = get bytes other size := by
  rw [get, slice_put_of_disjoint fits disjoint, get]

theorem length_putAll {fields : List Field}
    (fits : ∀ field ∈ fields, field.start + field.width ≤ bytes.length) :
    (putAll bytes fields).length = bytes.length := by
  induction fields generalizing bytes with
  | nil => rfl
  | cons field fields induction =>
      have length := @length_put bytes _ _ field.value (fits field List.mem_cons_self)
      refine (induction fun later member => ?_).trans length
      rw [length]
      exact fits later (List.mem_cons_of_mem _ member)

theorem slice_putAll_of_disjoint {fields : List Field}
    (fits : ∀ field ∈ fields, field.start + field.width ≤ bytes.length)
    (disjoint : ∀ field ∈ fields,
      other + width ≤ field.start ∨ field.start + field.width ≤ other) :
    slice (putAll bytes fields) other width = slice bytes other width := by
  induction fields generalizing bytes with
  | nil => rfl
  | cons field fields induction =>
      have here := fits field List.mem_cons_self
      refine (induction (fun later member => ?_) fun later member =>
        disjoint later (List.mem_cons_of_mem _ member)).trans
          (slice_put_of_disjoint here (disjoint field List.mem_cons_self))
      rw [length_put here]
      exact fits later (List.mem_cons_of_mem _ member)

/-- Each of several disjoint fields is read back. -/
theorem get_putAll {fields : List Field}
    (fits : ∀ field ∈ fields, field.start + field.width ≤ bytes.length)
    (apart : fields.Pairwise Field.Apart) {field : Field} (member : field ∈ fields) :
    get (putAll bytes fields) field.start field.width = field.value % 256 ^ field.width := by
  induction fields generalizing bytes with
  | nil => cases member
  | cons first fields induction =>
      have here := fits first List.mem_cons_self
      have later_fits : ∀ later ∈ fields, later.start + later.width ≤
          (put bytes first.start first.width first.value).length := by
        intro later later_member
        rw [length_put here]
        exact fits later (List.mem_cons_of_mem _ later_member)
      obtain ⟨first_apart, rest_apart⟩ := List.pairwise_cons.mp apart
      rcases List.mem_cons.mp member with rfl | later_member
      · refine (congrArg LittleEndian.ofBytes
          (slice_putAll_of_disjoint later_fits first_apart)).trans (get_put here)
      · exact induction later_fits rest_apart later_member

/-- The last number of a field counts. -/
theorem put_put {first second : Nat} (fits : start + width ≤ bytes.length) :
    put (put bytes start width first) start width second = put bytes start width second := by
  have before : (bytes.take start).length = start := List.length_take_of_le (by omega)
  have written : (bytes.take start ++ LittleEndian.toBytes width first).length = start + width := by
    rw [List.length_append, before, LittleEndian.length_toBytes]
  simp only [put, overwrite, LittleEndian.length_toBytes]
  rw [List.append_assoc (bytes.take start), List.take_left' before,
    ← List.append_assoc (bytes.take start) (LittleEndian.toBytes width first),
    List.drop_left' written]

theorem slice_append_left (more : List UInt8) (fits : start + width ≤ bytes.length) :
    slice (bytes ++ more) start width = slice bytes start width := by
  rw [slice, slice, List.drop_append_of_le_length (by omega),
    List.take_append_of_le_length (by rw [List.length_drop]; omega)]

theorem get_append_left (more : List UInt8) (fits : start + width ≤ bytes.length) :
    get (bytes ++ more) start width = get bytes start width := by
  rw [get, slice_append_left more fits, get]

theorem get_lt (bytes : List UInt8) (start width : Nat) : get bytes start width < 256 ^ width := by
  refine (LittleEndian.ofBytes_lt _).trans_le (Nat.pow_le_pow_right (by decide) ?_)
  rw [slice, List.length_take]
  exact Nat.min_le_left _ _

/-- Numbers of one width stand for equal bytes exactly when they are equal. -/
theorem ofBytes_injective {first second : List UInt8} (length : first.length = second.length)
    (same : LittleEndian.ofBytes first = LittleEndian.ofBytes second) : first = second := by
  induction first generalizing second with
  | nil => exact (List.length_eq_zero_iff.mp length.symm).symm
  | cons byte first induction =>
      cases second with
      | nil => cases length
      | cons other second =>
          rw [LittleEndian.ofBytes, LittleEndian.ofBytes] at same
          have byte_lt := byte.toNat_lt
          have other_lt := other.toNat_lt
          have heads : byte.toNat = other.toNat := by omega
          rw [UInt8.toNat_inj.mp heads, induction (Nat.succ.inj length) (by omega)]

/-- Fields of some widths, one after the other. -/
def Agree (first second : List UInt8) : Nat → List Nat → Prop
  | _, [] => True
  | start, width :: widths => slice first start width = slice second start width ∧
      Agree first second (start + width) widths

/-- Two byte strings which agree on fields that cover them are equal. -/
theorem eq_of_agree {first second : List UInt8} {widths : List Nat}
    (first_length : first.length = start + widths.sum)
    (second_length : second.length = start + widths.sum)
    (agree : Agree first second start widths) : first.drop start = second.drop start := by
  induction widths generalizing start with
  | nil =>
      rw [List.drop_eq_nil_of_le (by simp [first_length]),
        List.drop_eq_nil_of_le (by simp [second_length])]
  | cons width widths induction =>
      rw [List.sum_cons, ← Nat.add_assoc] at first_length second_length
      have rest := induction first_length second_length agree.2
      rw [← List.take_append_drop width (first.drop start),
        ← List.take_append_drop width (second.drop start), List.drop_drop, List.drop_drop, rest]
      exact congrArg (· ++ _) agree.1

/-- Fields agree when their numbers do. -/
theorem slice_eq_of_get {first second : List UInt8} (first_fits : start + width ≤ first.length)
    (second_fits : start + width ≤ second.length)
    (same : get first start width = get second start width) :
    slice first start width = slice second start width :=
  ofBytes_injective (by rw [length_slice first_fits, length_slice second_fits]) same

end Everett.ByteFields

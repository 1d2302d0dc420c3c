-- SUMMARY: The decoder fails for a fault that is there, with the numbers that its wording asks for.
import Ssz.Proofs.Wire.Parts

/-!
# Faults of encodings

When the decoder refuses an input, it names a fault and quotes numbers: an offset
and the one before it, a count and its maximum, a length and the one expected. The
law of this module is that these stand to each other as the wording has it, for
every shape and every input, with one exception. A vector of no elements whose
element is of variable size refuses every byte as if it were one too few.
-/

namespace Ssz

open OffsetTable (Slot slotsLength)

/-! ## What the wording says -/

/-- The shape is the whole, or stands somewhere in it. -/
inductive Shape.OccursIn (part : Shape) : (whole : Shape) → Prop
  | here : OccursIn part part
  | vector {element length} : OccursIn part element → OccursIn part (.vector element length)
  | list {element max} : OccursIn part element → OccursIn part (.list element max)
  | container {name fields field} : field ∈ fields → OccursIn part field.shape →
      OccursIn part (.container name fields)
  | union {alternatives shape} : some shape ∈ alternatives → OccursIn part shape →
      OccursIn part (.union alternatives)

/-- The selector of a union that has no such alternative, or has the empty one there though it is
    not the first. -/
def Shape.NoChoice (alternatives : List (Option Shape)) (selector : UInt8) : Prop :=
  alternatives.length ≤ selector.toNat ∨ alternatives[selector.toNat]? = some none ∧ selector ≠ 0

/-- The numbers of a fault stand to each other as its wording says. -/
def Malformed.AsWorded (whole : Shape) : Malformed → Prop
  | .offsetsOutOfOrder previous offset => offset < previous
  | .offsetOutOfRange offset length => length < offset
  | .firstOffsetMismatch offset expected => offset ≠ expected
  | .truncated expected actual => actual < expected
  | .notMultiple length size => ¬ size ∣ length
  | .tooManyElements max actual => max < actual
  | .bitLength expected actual => actual ≠ expected
  | .invalidBool byte => 1 < byte.toNat
  | .invalidSelector selector =>
    ∃ alternatives, (Shape.union alternatives).OccursIn whole ∧
      Shape.NoChoice alternatives selector
  | .unionPayload length => 0 < length
  | .missingSentinel | .unusedBitsSet | .emptyUnion => True

/-- A length that is not as expected is that of a part of fixed size, which is named. The decoder
    never finds fault with a value. -/
def DecodeError.AsWorded (whole : Shape) : DecodeError → Prop
  | .incorrectLength name expected actual =>
    actual ≠ expected ∧
      ∃ part : Shape, part.OccursIn whole ∧ part.name = name ∧ part.fixedSize? = some expected
  | .malformed cause => cause.AsWorded whole
  | .shapeMismatch _ => False

/-- Input where a vector has no elements, though their shape is of variable size: it is called
    shorter than a prefix of no bytes. -/
def DecodeError.Surplus (whole : Shape) (e : DecodeError) : Prop :=
  ∃ element actual, (Shape.vector element 0).OccursIn whole ∧ element.fixedSize? = none ∧
    0 < actual ∧ e = .malformed (.truncated 0 actual)

/-- How the decoder fails. -/
def DecodeError.Founded (whole : Shape) (e : DecodeError) : Prop :=
  e.AsWorded whole ∨ e.Surplus whole

/-! ## A part and the whole -/

section

variable {part whole : Shape}

theorem Malformed.AsWorded.widen {cause : Malformed}
    (hpart : ∀ {s : Shape}, s.OccursIn part → s.OccursIn whole) (h : cause.AsWorded part) :
    cause.AsWorded whole := by
  cases cause with
  | invalidSelector selector =>
    obtain ⟨alternatives, hunion, hselector⟩ := h
    exact ⟨alternatives, hpart hunion, hselector⟩
  | _ => exact h

theorem DecodeError.Founded.widen {e : DecodeError}
    (hpart : ∀ {s : Shape}, s.OccursIn part → s.OccursIn whole) (h : e.Founded part) :
    e.Founded whole := by
  rcases h with h | ⟨element, actual, hvector, h⟩
  · left
    cases e with
    | incorrectLength name expected actual =>
      obtain ⟨hne, s, hs, hname⟩ := h
      exact ⟨hne, s, hpart hs, hname⟩
    | malformed cause => exact Malformed.AsWorded.widen hpart h
    | shapeMismatch cause => exact h
  · exact .inr ⟨element, actual, hpart hvector, h⟩

end

/-! ## Single checks -/

variable {shape : Shape}

theorem malformed_founded {α : Type} {x : Except Malformed α}
    (h : FailsWith (Malformed.AsWorded shape) x) :
    FailsWith (DecodeError.Founded shape) (malformed x) := by
  cases x with
  | ok a => exact .ok a
  | error cause => exact .error (.inl (h cause rfl))

theorem expectLength_founded {expected : Nat} (hsize : shape.fixedSize? = some expected)
    (bytes : Bytes) :
    FailsWith (DecodeError.Founded shape) (expectLength shape expected bytes) := by
  unfold expectLength
  split
  · exact .ok ()
  · rename_i hne
    exact .error (.inl ⟨hne, shape, .here, rfl, hsize⟩)

theorem checkCount_asWorded (max actual : Nat) :
    FailsWith (Malformed.AsWorded shape) (checkCount max actual) := by
  unfold checkCount
  split
  · rename_i h
    exact .error h
  · exact .ok ()

theorem ofPacked_asWorded (bytes : Bytes) (length : Nat) :
    FailsWith (Malformed.AsWorded shape) (Bits.ofPacked bytes length) := by
  unfold Bits.ofPacked
  split
  · split
    · exact .ok _
    · exact .error trivial
  · rename_i hne
    exact .error hne

theorem ofWire_asWorded (bytes : Bytes) (max : Nat) :
    FailsWith (Malformed.AsWorded shape) (Bits.ofWire bytes max) := by
  unfold Bits.ofWire
  dsimp only
  split
  · exact .error trivial
  · split
    · rename_i h
      exact .error h
    · exact .ok _

theorem one_lt_of_not_bool {b : UInt8} (hzero : b = 0 → False) (hone : b = 1 → False) :
    1 < b.toNat := by
  have hne_zero : b.toNat ≠ 0 := fun h => hzero (UInt8.toNat_inj.1 h)
  have hne_one : b.toNat ≠ 1 := fun h => hone (UInt8.toNat_inj.1 h)
  omega

/-! ## Offset tables -/

theorem checkOffset_asWorded (length prefixLength : Nat) (previous : Option Nat) (offset : Nat) :
    FailsWith (Malformed.AsWorded shape)
      (OffsetTable.checkOffset length prefixLength previous offset) := by
  have hrange : FailsWith (Malformed.AsWorded shape)
      (if length < offset then .error (.offsetOutOfRange offset length) else .ok ()) := by
    split
    · rename_i h
      exact .error h
    · exact .ok ()
  unfold OffsetTable.checkOffset
  cases previous with
  | none =>
    dsimp only
    split
    · rename_i hne
      exact .error hne
    · exact hrange
  | some previous =>
    dsimp only
    split
    · rename_i hlt
      exact .error hlt
    · exact hrange

theorem readHeads_asWorded (length prefixLength : Nat) (slots : List Slot) (bytes : Bytes)
    (previous : Option Nat) : FailsWith (Malformed.AsWorded shape)
      (OffsetTable.readHeads length prefixLength slots bytes previous) := by
  induction slots generalizing bytes previous with
  | nil => exact .ok []
  | cons slot slots ih =>
    cases slot with
    | some size => exact (ih _ _).bind fun heads _ => .ok _
    | none =>
      apply (checkOffset_asWorded _ _ _ _).bind
      exact fun _ _ => (ih _ _).bind fun heads _ => .ok _

/-- A fault of splitting is as worded, unless there is no offset to be read and more input than the
    prefix takes. -/
theorem split_asWorded {slots : List Slot} {bytes : Bytes}
    (hend : slots.all Option.isSome = true → bytes.length ≤ slotsLength slots) :
    FailsWith (Malformed.AsWorded shape) (OffsetTable.split slots bytes) := by
  change FailsWith _ (if bytes.length < slotsLength slots then _ else _)
  split
  · rename_i hshort
    exact .error hshort
  · rename_i hlong
    apply (readHeads_asWorded _ _ _ _ _).bind
    intro heads _
    split
    · rename_i hsurplus
      obtain ⟨hall, hne⟩ := Bool.and_eq_true_iff.1 hsurplus
      have hlength := Nat.le_antisymm (hend hall) (Nat.not_lt.1 hlong)
      exact absurd hlength (of_decide_eq_true hne)
    · exact .ok _

/-- The one input that is surplus, but is said to be too short. -/
theorem split_nil_eq_error {bytes : Bytes} (h : bytes ≠ []) :
    OffsetTable.split [] bytes = .error (.truncated 0 bytes.length) := by
  obtain ⟨b, bytes, rfl⟩ := List.exists_cons_of_ne_nil h
  rfl

theorem firstOffset_asWorded (bytes : Bytes) :
    FailsWith (Malformed.AsWorded shape) (OffsetTable.firstOffset bytes) := by
  unfold OffsetTable.firstOffset
  split
  · rename_i h
    exact .error h
  · exact .ok _

/-- The offset that is expected in the place of one that cannot be the first is another. -/
theorem ne_of_unusable {first : Nat} (h : first = 0 ∨ first % bytesPerOffset ≠ 0) :
    first ≠ bytesPerOffset * Nat.max (first / bytesPerOffset) 1 := by
  change first ≠ 4 * max (first / 4) 1
  change first = 0 ∨ first % 4 ≠ 0 at h
  omega

theorem div_ne_zero_of_usable {first : Nat} (h : ¬(first = 0 ∨ first % bytesPerOffset ≠ 0)) :
    first / bytesPerOffset ≠ 0 := by
  change ¬(first = 0 ∨ first % 4 ≠ 0) at h
  change first / 4 ≠ 0
  omega

theorem listParts_asWorded (elementSize : Option Nat) (max : Nat) (bytes : Bytes) :
    FailsWith (Malformed.AsWorded shape) (listParts elementSize max bytes) := by
  cases elementSize with
  | some size =>
    unfold listParts
    dsimp only
    split
    · rename_i hsize
      split
      · exact .ok []
      · rename_i hbytes
        have hnil (hdvd : 0 ∣ bytes.length) : bytes = [] :=
          List.eq_nil_of_length_eq_zero (Nat.eq_zero_of_zero_dvd hdvd)
        exact .error fun hdvd => hbytes (List.isEmpty_iff.2 (hnil hdvd))
    · split
      · rename_i hmod
        exact .error fun hdvd => hmod (Nat.mod_eq_zero_of_dvd hdvd)
      · exact (checkCount_asWorded _ _).bind fun _ _ => .ok _
  | none =>
    unfold listParts
    dsimp only
    split
    · exact .ok []
    · apply (firstOffset_asWorded bytes).bind
      intro first _
      split
      · rename_i hbad
        exact .error (ne_of_unusable hbad)
      · rename_i hgood
        apply (checkCount_asWorded _ _).bind
        intro _ _
        split
        · rename_i hshort
          exact .error hshort
        · refine split_asWorded fun hall => ?_
          obtain ⟨count, hcount⟩ : ∃ count, first / bytesPerOffset = count + 1 :=
            Nat.exists_eq_add_one_of_ne_zero (div_ne_zero_of_usable hgood)
          rw [hcount] at hall
          cases hall

/-! ## Shape by shape -/

namespace Shape

theorem decodeFields_failsWith {p : DecodeError → Prop} {fields : List (Field Shape)}
    (h : ∀ field ∈ fields, ∀ bytes, FailsWith p (field.shape.decode bytes)) (parts : List Bytes) :
    FailsWith p (decodeFields fields parts) := by
  induction fields generalizing parts with
  | nil => exact .ok []
  | cons field fields ih =>
    cases parts with
    | nil => exact .ok []
    | cons part parts =>
      have hfields := ih (fun other hother => h other (List.mem_cons_of_mem _ hother)) parts
      apply (h field List.mem_cons_self part).bind
      intro v _
      exact hfields.bind fun values _ => .ok (v :: values)

/-- Going along the alternatives ends at one that reads the payload, at an empty one, or nowhere. -/
theorem decodeChosen_failsWith {p : DecodeError → Prop} {selector : UInt8}
    {alternatives : List (Option Shape)} {index : Nat}
    (hselector : alternatives.length ≤ index ∨ alternatives[index]? = some none ∧ selector ≠ 0 →
      p (.malformed (.invalidSelector selector)))
    (hpayload : ∀ length, 0 < length → p (.malformed (.unionPayload length)))
    (h : ∀ shape, some shape ∈ alternatives → ∀ bytes, FailsWith p (shape.decode bytes))
    (payload : Bytes) : FailsWith p (decodeChosen selector alternatives index payload) := by
  induction alternatives generalizing index with
  | nil => exact .error (hselector (.inl (Nat.zero_le _)))
  | cons choice alternatives ih =>
    cases index with
    | succ index =>
      have hrest := @ih index
        (fun hnone => hselector (hnone.imp Nat.succ_le_succ id))
        (fun shape hshape => h shape (List.mem_cons_of_mem _ hshape))
      cases choice <;> exact hrest
    | zero =>
      cases choice with
      | some shape => exact (h shape List.mem_cons_self payload).bind fun v _ => .ok (some v)
      | none =>
        unfold decodeChosen
        split
        · rename_i hne
          exact .error (hselector (.inr ⟨rfl, hne⟩))
        · split
          · exact .ok none
          · rename_i hne
            have hpos := List.length_pos_iff.2 fun hnil => hne (List.isEmpty_iff.2 hnil)
            exact .error (hpayload _ hpos)

/-- The fields of a container leave no surplus, as the length is as expected if they are all of
    fixed size. -/
theorem split_fields_asWorded {fields : List (Field Shape)} {bytes : Bytes}
    (hend : ∀ size, fieldsFixedSize? fields = some size → bytes.length = size) :
    FailsWith (Malformed.AsWorded shape) (OffsetTable.split (slots fields) bytes) := by
  refine split_asWorded fun hall => ?_
  rw [slots, List.all_map, Function.comp_def, ← isSome_fieldsFixedSize?] at hall
  obtain ⟨size, hsize⟩ := Option.isSome_iff_exists.1 hall
  obtain ⟨-, hslots⟩ := slots_of_fieldsFixedSize? hsize
  exact Nat.le_of_eq ((hend size hsize).trans hslots.symm)

/-- A vector whose element is of variable size is split without fault, or with a fault that is
    there, or it has no elements. -/
theorem split_vector_founded {element : Shape} (hsize : element.fixedSize? = none) (length : Nat)
    (bytes : Bytes) : FailsWith (DecodeError.Founded (vector element length))
      (malformed (OffsetTable.split (List.replicate length none) bytes)) := by
  cases length with
  | zero =>
    by_cases hbytes : bytes = []
    · subst hbytes
      exact .ok []
    · rw [List.replicate_zero, split_nil_eq_error hbytes]
      exact .error (.inr ⟨element, _, .here, hsize, List.length_pos_iff.2 hbytes, rfl⟩)
  | succ length => exact malformed_founded (split_asWorded nofun)

theorem decode_vector_founded {element : Shape} (length : Nat)
    (h : ∀ part, FailsWith (DecodeError.Founded element) (element.decode part)) (bytes : Bytes) :
    FailsWith (DecodeError.Founded (vector element length))
      ((vector element length).decode bytes) := by
  have hparts (parts : List Bytes) :
      FailsWith (DecodeError.Founded (vector element length)) (parts.mapM element.decode) :=
    FailsWith.mapM fun part _ => (h part).imp fun e he => he.widen .vector
  have hitems (parts : List Bytes) := (hparts parts).bind fun items _ => .ok (Value.list items)
  unfold decode
  cases hsize : element.fixedSize? with
  | none => exact (split_vector_founded hsize length bytes).bind fun parts _ => hitems parts
  | some size =>
    have hvector : (vector element length).fixedSize? = some (size * length) := by
      rw [fixedSize?, hsize, Option.map_some]
    exact (expectLength_founded hvector bytes).bind fun _ _ => hitems _

theorem decode_container_founded (name : String) {fields : List (Field Shape)}
    (h : ∀ field ∈ fields, ∀ part,
      FailsWith (DecodeError.Founded field.shape) (field.shape.decode part)) (bytes : Bytes) :
    FailsWith (DecodeError.Founded (container name fields))
      ((container name fields).decode bytes) := by
  have hparts (parts : List Bytes) :
      FailsWith (DecodeError.Founded (container name fields)) (decodeFields fields parts) :=
    decodeFields_failsWith (fun field hfield part =>
      (h field hfield part).imp fun e he => he.widen (.container hfield)) parts
  have hfields (parts : List Bytes) :=
    (hparts parts).bind fun values _ => .ok (Value.container values)
  have hsplit (hend : ∀ size, fieldsFixedSize? fields = some size → bytes.length = size) :=
    (malformed_founded (split_fields_asWorded hend)).bind fun parts _ => hfields parts
  unfold decode
  cases hsize : fieldsFixedSize? fields with
  | none =>
    refine hsplit fun size hsome => ?_
    rw [hsize] at hsome
    cases hsome
  | some size =>
    have hcontainer : (container name fields).fixedSize? = some size := hsize
    apply (expectLength_founded hcontainer bytes).bind
    intro _ hlength
    refine hsplit fun other hsome => ?_
    rw [hsize] at hsome
    cases hsome
    exact expectLength_eq_ok.1 hlength

theorem decode_union_founded {alternatives : List (Option Shape)}
    (h : ∀ shape, some shape ∈ alternatives → ∀ part,
      FailsWith (DecodeError.Founded shape) (shape.decode part)) (bytes : Bytes) :
    FailsWith (DecodeError.Founded (union alternatives)) ((union alternatives).decode bytes) := by
  cases bytes with
  | nil => exact .error (.inl trivial)
  | cons selector payload =>
    have hchosen : FailsWith (DecodeError.Founded (union alternatives))
        (decodeChosen selector alternatives selector.toNat payload) :=
      decodeChosen_failsWith (fun hnone => .inl ⟨alternatives, .here, hnone⟩)
        (fun length hlength => .inl hlength)
        (fun shape hshape part => (h shape hshape part).imp fun e he => he.widen (.union hshape))
        payload
    exact hchosen.bind fun inner _ => .ok (Value.union selector inner)

/-- Each fault is there at the part that is being read, and so it is in the whole. -/
theorem decode_founded (shape : Shape) (bytes : Bytes) :
    FailsWith (DecodeError.Founded shape) (shape.decode bytes) := by
  induction shape generalizing bytes with
  | bool =>
    apply (expectLength_founded rfl bytes).bind
    intro _ _
    split
    · exact .ok _
    · exact .ok _
    · rename_i b hzero hone
      exact .error (.inl (one_lt_of_not_bool hzero hone))
  | uint width => exact (expectLength_founded rfl bytes).bind fun _ _ => .ok _
  | byteVector length => exact (expectLength_founded rfl bytes).bind fun _ _ => .ok _
  | byteList max => exact (malformed_founded (checkCount_asWorded _ _)).bind fun _ _ => .ok _
  | bitVector length =>
    apply (expectLength_founded rfl bytes).bind
    exact fun _ _ => (malformed_founded (ofPacked_asWorded _ _)).bind fun bits _ => .ok _
  | bitList max => exact (malformed_founded (ofWire_asWorded _ _)).bind fun bits _ => .ok _
  | vector element length ih => exact decode_vector_founded length ih bytes
  | list element max ih =>
    apply (malformed_founded (listParts_asWorded _ _ _)).bind
    intro parts _
    exact (FailsWith.mapM fun part _ => (ih part).imp fun e he => he.widen .list).bind
      fun items _ => .ok (Value.list items)
  | container name fields ih => exact decode_container_founded name ih bytes
  | union alternatives ih => exact decode_union_founded ih bytes

end Shape

/-! ## Every input -/

/-- What a failed reading reports is true of its input, unless the input is surplus. -/
theorem asWorded_or_surplus_of_decode {bytes : Bytes} {e : DecodeError}
    (h : decode shape bytes = .error e) : e.AsWorded shape ∨ e.Surplus shape :=
  shape.decode_founded bytes e h

/-- A list of byte lists whose second offset points before its first. -/
theorem asWorded_or_surplus_of_decode_out_of_order :
    decode (.list (.byteList 4) 4) [8, 0, 0, 0, 7, 0, 0, 0] =
        .error (.malformed (.offsetsOutOfOrder 8 7)) ∧
      ((DecodeError.malformed (.offsetsOutOfOrder 8 7)).AsWorded (.list (.byteList 4) 4) ∨
        (DecodeError.malformed (.offsetsOutOfOrder 8 7)).Surplus (.list (.byteList 4) 4)) := by
  have hdecode : decode (.list (.byteList 4) 4) [8, 0, 0, 0, 7, 0, 0, 0] =
      .error (.malformed (.offsetsOutOfOrder 8 7)) := by rfl
  exact ⟨hdecode, asWorded_or_surplus_of_decode hdecode⟩

/-- No input is shorter than nothing, so what is said of surplus input is never true. -/
theorem DecodeError.Surplus.not_asWorded {e : DecodeError} (h : e.Surplus shape) :
    ¬ e.AsWorded shape := by
  obtain ⟨element, actual, -, -, -, rfl⟩ := h
  exact Nat.not_lt_zero actual

/-- Every byte is surplus to a vector that has no elements, if their shape is of variable size. -/
theorem decode_empty_vector {element : Shape} (hsize : element.fixedSize? = none) {bytes : Bytes}
    (hbytes : bytes ≠ []) : decode (.vector element 0) bytes =
      .error (.malformed (.truncated 0 bytes.length)) := by
  unfold decode Shape.decode
  rw [hsize, List.replicate_zero, split_nil_eq_error hbytes]
  rfl

/-- One byte is said to be less than none. -/
theorem not_asWorded_of_empty_vector :
    decode (.vector (.byteList 4) 0) [0] = .error (.malformed (.truncated 0 1)) ∧
      ¬ (DecodeError.malformed (.truncated 0 1)).AsWorded (.vector (.byteList 4) 0) :=
  ⟨decode_empty_vector rfl (List.cons_ne_nil 0 []), Nat.not_lt_zero 1⟩

end Ssz

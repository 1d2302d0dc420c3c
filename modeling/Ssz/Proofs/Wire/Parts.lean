-- SUMMARY: Reading and writing a composite, said part by part.
import Ssz.Proofs.Bytes
import Ssz.Proofs.Shape
import Ssz.Proofs.Wire.OffsetTable
import Ssz.Wire.Decode
import Ssz.Wire.Encode

/-!
# Composites, part by part

For each composite shape there is one law for the reader and one for the writer,
and the two have the same form: parts that are joined to the bytes, and each of
them reads, or is written, on its own. The reader does not say how it finds
lengths and offsets any more, so what holds of single parts carries over to the
whole by an induction over lists.
-/

namespace Ssz

open OffsetTable (Slot Segment Sequence segments)

theorem malformed_eq_ok {α : Type} {x : Except Malformed α} {a : α} :
    malformed x = .ok a ↔ x = .ok a := by
  cases x <;> simp [malformed]

theorem expectLength_eq_ok {shape : Shape} {expected : Nat} {bytes : Bytes} :
    expectLength shape expected bytes = .ok () ↔ bytes.length = expected := by
  unfold expectLength
  split <;> simp_all

theorem checkCount_eq_ok {max actual : Nat} : checkCount max actual = .ok () ↔ actual ≤ max := by
  unfold checkCount
  split <;> simp_all

/-! ## Lists -/

theorem firstOffset_eq_ok {bytes : Bytes} {first : Nat} :
    OffsetTable.firstOffset bytes = .ok first ↔
      bytesPerOffset ≤ bytes.length ∧ ofLittleEndian (bytes.take bytesPerOffset) = first := by
  unfold OffsetTable.firstOffset
  split
  · rename_i h
    simp [Nat.not_le.2 h]
  · rename_i h
    simp [Nat.not_lt.1 h]

theorem listParts_zero {max : Nat} {bytes : Bytes} {parts : List Bytes} :
    listParts (some 0) max bytes = .ok parts ↔ parts = [] ∧ bytes = [] := by
  cases bytes with
  | nil => simp [listParts, eq_comm]
  | cons b bytes => simp [listParts]

theorem listParts_fixed {size max : Nat} (hsize : size ≠ 0) {bytes : Bytes} {parts : List Bytes} :
    listParts (some size) max bytes = .ok parts ↔
      parts.length ≤ max ∧ (∀ part ∈ parts, part.length = size) ∧ parts.flatten = bytes := by
  have hopen : listParts (some size) max bytes = .ok parts ↔
      bytes.length / size ≤ max ∧ bytes.length % size = 0 ∧
        pieces size (bytes.length / size) bytes = parts := by
    simp only [listParts, if_neg hsize]
    split
    · simp_all
    · simp_all [checkCount_eq_ok]
  have hmul : bytes.length % size = 0 ↔ bytes.length = size * (bytes.length / size) := by
    rw [← Nat.dvd_iff_mod_eq_zero, eq_comm, Nat.mul_div_eq_iff_dvd]
  rw [hopen, hmul, pieces_eq_iff]
  constructor
  · rintro ⟨hmax, hlength, hparts⟩
    exact ⟨hlength ▸ hmax, hparts⟩
  · rintro ⟨hmax, hparts, rfl⟩
    have hcount : parts.flatten.length / size = parts.length := by
      rw [length_flatten_of_forall hparts, Nat.mul_div_cancel_left _ (Nat.pos_of_ne_zero hsize)]
    rw [hcount]
    exact ⟨hmax, rfl, hparts, rfl⟩

theorem listParts_offsets {max : Nat} {bytes : Bytes} (hbytes : bytes ≠ []) {parts : List Bytes} :
    listParts none max bytes = .ok parts ↔
      ∃ first, (bytesPerOffset ≤ bytes.length ∧ ofLittleEndian (bytes.take bytesPerOffset) = first)
        ∧ (first ≠ 0 ∧ first % bytesPerOffset = 0) ∧ first / bytesPerOffset ≤ max ∧
        first ≤ bytes.length ∧ parts.length = first / bytesPerOffset ∧
        Sequence none parts bytes := by
  simp only [listParts, List.isEmpty_iff, if_neg hbytes, bind_eq_ok, firstOffset_eq_ok]
  refine exists_congr fun first => and_congr_right fun _ => ?_
  split
  · rename_i hbad
    have hnot : ¬(first ≠ 0 ∧ first % bytesPerOffset = 0) := by
      rintro ⟨hne, hmod⟩
      exact hbad.elim hne fun h => h hmod
    simp [hnot]
  · rename_i hgood
    obtain ⟨hne, hmod⟩ := not_or.1 hgood
    simp only [bind_eq_ok, exists_unit, checkCount_eq_ok]
    split
    · rename_i hshort
      simp [Nat.not_le.2 hshort]
    · rename_i hlong
      simp only [OffsetTable.split_replicate_eq_ok, not_not.1 hmod, Nat.not_lt.1 hlong]
      simp [hne]

theorem listParts_variable {max : Nat} {bytes : Bytes} {parts : List Bytes} :
    listParts none max bytes = .ok parts ↔ parts.length ≤ max ∧ Sequence none parts bytes := by
  by_cases hbytes : bytes = []
  · subst hbytes
    constructor
    · intro h
      cases h
      exact ⟨Nat.zero_le _, OffsetTable.sequence_nil.2 rfl⟩
    · rintro ⟨-, hsequence⟩
      cases parts with
      | nil => rfl
      | cons part parts =>
        have hle := (hsequence.firstOffset (List.cons_ne_nil _ _)).1
        simp [bytesPerOffset] at hle
  · rw [listParts_offsets hbytes]
    constructor
    · rintro ⟨first, _, _, hmax, _, hlength, hsequence⟩
      exact ⟨hlength ▸ hmax, hsequence⟩
    · rintro ⟨hmax, hsequence⟩
      have hparts : parts ≠ [] := by
        rintro rfl
        exact hbytes (OffsetTable.sequence_nil.1 hsequence)
      obtain ⟨hle, hfirst⟩ := hsequence.firstOffset hparts
      have hpos := List.length_pos_iff.2 hparts
      have hcount : bytesPerOffset * parts.length / bytesPerOffset = parts.length :=
        Nat.mul_div_cancel_left _ (by decide)
      refine ⟨_, ⟨?_, hfirst⟩, ⟨?_, Nat.mul_mod_right _ _⟩, ?_, hle, hcount.symm, hsequence⟩
      · exact Nat.le_trans (Nat.le_mul_of_pos_right _ hpos) hle
      · exact Nat.mul_ne_zero (by decide) (Nat.ne_of_gt hpos)
      · rwa [hcount]

/-- The number of elements that a list is cut into is the number that its bytes bear out; where
    elements leave no bytes, that is none. -/
theorem listParts_eq_ok {slot : Slot} {max : Nat} {bytes : Bytes} {parts : List Bytes} :
    listParts slot max bytes = .ok parts ↔
      parts.length ≤ max ∧ (slot = some 0 → parts = []) ∧ Sequence slot parts bytes := by
  cases slot with
  | some size =>
    by_cases hsize : size = 0
    · subst hsize
      rw [listParts_zero]
      constructor
      · rintro ⟨rfl, rfl⟩
        exact ⟨Nat.zero_le _, fun _ => rfl, OffsetTable.sequence_nil.2 rfl⟩
      · rintro ⟨-, hparts, hsequence⟩
        cases hparts rfl
        exact ⟨rfl, OffsetTable.sequence_nil.1 hsequence⟩
    · rw [listParts_fixed hsize, OffsetTable.sequence_fixed]
      simp [hsize]
  | none => simp [listParts_variable]

namespace Shape

/-! ## Sequences -/

theorem decode_vector {element : Shape} {length : Nat} {bytes : Bytes} {v : Value} :
    (vector element length).decode bytes = .ok v ↔
      ∃ parts items, parts.length = length ∧ Sequence element.fixedSize? parts bytes ∧
        List.Forall₂ (fun part item => element.decode part = .ok item) parts items ∧
        .list items = v := by
  cases hsize : element.fixedSize? with
  | some size =>
    simp only [decode, hsize, bind_eq_ok, exists_unit, pure_eq_ok, expectLength_eq_ok, mapM_eq_ok,
      OffsetTable.sequence_fixed]
    constructor
    · rintro ⟨hbytes, parts, hpieces, items, hitems, hv⟩
      obtain ⟨hlength, hsequence⟩ := pieces_eq_iff.1 ⟨hbytes, hpieces⟩
      exact ⟨parts, items, hlength, hsequence, hitems, hv⟩
    · rintro ⟨parts, items, hlength, hsequence, hitems, hv⟩
      obtain ⟨hbytes, hpieces⟩ := pieces_eq_iff.2 ⟨hlength, hsequence⟩
      exact ⟨hbytes, parts, hpieces, items, hitems, hv⟩
  | none =>
    simp only [decode, hsize, bind_eq_ok, pure_eq_ok, malformed_eq_ok, mapM_eq_ok,
      OffsetTable.split_replicate_eq_ok]
    constructor
    · rintro ⟨parts, ⟨hlength, hsequence⟩, items, hitems, hv⟩
      exact ⟨parts, items, hlength, hsequence, hitems, hv⟩
    · rintro ⟨parts, items, hlength, hsequence, hitems, hv⟩
      exact ⟨parts, ⟨hlength, hsequence⟩, items, hitems, hv⟩

theorem decode_list {element : Shape} {max : Nat} {bytes : Bytes} {v : Value} :
    (list element max).decode bytes = .ok v ↔
      ∃ parts items, parts.length ≤ max ∧ (element.fixedSize? = some 0 → parts = []) ∧
        Sequence element.fixedSize? parts bytes ∧
        List.Forall₂ (fun part item => element.decode part = .ok item) parts items ∧
        .list items = v := by
  simp only [decode, bind_eq_ok, pure_eq_ok, malformed_eq_ok, mapM_eq_ok, listParts_eq_ok]
  constructor
  · rintro ⟨parts, ⟨hmax, hzero, hsequence⟩, items, hitems, hv⟩
    exact ⟨parts, items, hmax, hzero, hsequence, hitems, hv⟩
  · rintro ⟨parts, items, hmax, hzero, hsequence, hitems, hv⟩
    exact ⟨parts, ⟨hmax, hzero, hsequence⟩, items, hitems, hv⟩

/-- What the writer makes of the parts of a sequence. Concatenation is not a case of its own. -/
theorem concat_or_join {fixed : Bool} {parts : List Bytes} :
    (if fixed then pure parts.flatten else OffsetTable.join (parts.map (Segment.mk false)))
      = OffsetTable.join (parts.map (Segment.mk fixed)) := by
  cases fixed with
  | true => exact (OffsetTable.join_map_fixed parts).symm
  | false => rfl

theorem write_vector {element : Shape} {length : Nat} {items : List Value} {bytes : Bytes} :
    (vector element length).write (.list items) = .ok bytes ↔
      ∃ parts, List.Forall₂ (fun item part => element.write item = .ok part) items parts ∧
        OffsetTable.join (parts.map (Segment.mk element.isFixedSize)) = .ok bytes := by
  simp only [write, bind_eq_ok, mapM_eq_ok, concat_or_join]

theorem write_list {element : Shape} {max : Nat} {items : List Value} {bytes : Bytes} :
    (list element max).write (.list items) = .ok bytes ↔
      ∃ parts, List.Forall₂ (fun item part => element.write item = .ok part) items parts ∧
        OffsetTable.join (parts.map (Segment.mk element.isFixedSize)) = .ok bytes := by
  simp only [write, bind_eq_ok, mapM_eq_ok, concat_or_join]

/-! ## Records -/

/-- The relation holds of each field with its part and its value. -/
inductive Fieldwise (R : Shape → Bytes → Value → Prop) :
    List (Field Shape) → List Bytes → List Value → Prop
  | nil : Fieldwise R [] [] []
  | cons {field fields part parts v values} : R field.shape part v →
      Fieldwise R fields parts values → Fieldwise R (field :: fields) (part :: parts) (v :: values)

namespace Fieldwise

variable {R S : Shape → Bytes → Value → Prop} {fields : List (Field Shape)} {parts : List Bytes}
  {values : List Value}

theorem imp (h : Fieldwise R fields parts values)
    (himp : ∀ field ∈ fields, ∀ part v, R field.shape part v → S field.shape part v) :
    Fieldwise S fields parts values := by
  induction h with
  | nil => exact .nil
  | cons hR _ ih =>
    refine .cons (himp _ List.mem_cons_self _ _ hR) (ih fun field hfield => ?_)
    exact himp field (List.mem_cons_of_mem _ hfield)

theorem length_values (h : Fieldwise R fields parts values) : values.length = fields.length := by
  induction h with
  | nil => rfl
  | cons _ _ ih => rw [List.length_cons, List.length_cons, ih]

end Fieldwise

/-- What the prefix of a record holds of each field. -/
def slots (fields : List (Field Shape)) : List Slot := fields.map (·.shape.fixedSize?)

@[simp] theorem slots_nil : slots [] = [] := rfl

@[simp] theorem slots_cons (field : Field Shape) (fields : List (Field Shape)) :
    slots (field :: fields) = field.shape.fixedSize? :: slots fields := rfl

theorem slots_of_fieldsFixedSize? {fields : List (Field Shape)} {size : Nat}
    (h : fieldsFixedSize? fields = some size) :
    (slots fields).all Option.isSome ∧ OffsetTable.slotsLength (slots fields) = size := by
  induction fields generalizing size with
  | nil =>
    cases h
    exact ⟨rfl, rfl⟩
  | cons field fields ih =>
    rw [fieldsFixedSize?] at h
    split at h
    · rename_i n rest hshape hrest
      obtain ⟨hall, hlength⟩ := ih hrest
      cases h
      simp [hshape, hall, hlength]
    · cases h

theorem decodeFields_eq_ok {fields : List (Field Shape)} {parts : List Bytes} {values : List Value}
    (hlength : parts.length = fields.length) :
    decodeFields fields parts = .ok values ↔
      Fieldwise (fun shape part v => shape.decode part = .ok v) fields parts values := by
  induction fields generalizing parts values with
  | nil =>
    cases List.eq_nil_of_length_eq_zero hlength
    constructor
    · intro h
      cases h
      exact .nil
    · rintro ⟨⟩
      rfl
  | cons field fields ih =>
    cases parts with
    | nil => cases hlength
    | cons part parts =>
      simp only [decodeFields, bind_eq_ok, pure_eq_ok, ih (Nat.succ.inj hlength)]
      constructor
      · rintro ⟨v, hv, rest, hrest, rfl⟩
        exact .cons hv hrest
      · intro h
        cases h with
        | cons hv hrest => exact ⟨_, hv, _, hrest, rfl⟩

theorem writeFields_eq_ok {fields : List (Field Shape)} {values : List Value}
    {body : List Segment} (hlength : values.length = fields.length) :
    writeFields fields values = .ok body ↔
      ∃ parts, Fieldwise (fun shape part v => shape.write v = .ok part) fields parts values ∧
        segments (slots fields) parts = body := by
  induction fields generalizing values body with
  | nil =>
    cases List.eq_nil_of_length_eq_zero hlength
    constructor
    · intro h
      cases h
      exact ⟨[], .nil, rfl⟩
    · rintro ⟨parts, _, rfl⟩
      rfl
  | cons field fields ih =>
    cases values with
    | nil => cases hlength
    | cons v values =>
      simp only [writeFields, bind_eq_ok, pure_eq_ok, ih (Nat.succ.inj hlength)]
      constructor
      · rintro ⟨part, hpart, rest, ⟨parts, hparts, rfl⟩, rfl⟩
        refine ⟨part :: parts, .cons hpart hparts, ?_⟩
        rw [slots_cons, OffsetTable.segments_cons, isSome_fixedSize?]
      · rintro ⟨parts, hparts, rfl⟩
        cases hparts with
        | cons hpart hparts =>
          refine ⟨_, hpart, _, ⟨_, hparts, rfl⟩, ?_⟩
          rw [slots_cons, OffsetTable.segments_cons, isSome_fixedSize?]

/-- The length that is checked when all fields are of fixed size is the one that the offset table
    asks for anyway. -/
theorem length_of_split {fields : List (Field Shape)} {size : Nat} {bytes : Bytes}
    {parts : List Bytes} (hsize : fieldsFixedSize? fields = some size)
    (hsplit : OffsetTable.split (slots fields) bytes = .ok parts) : bytes.length = size := by
  obtain ⟨hall, hlength⟩ := slots_of_fieldsFixedSize? hsize
  obtain ⟨-, _, -, hend, -⟩ := OffsetTable.split_eq_ok_iff_readHeads.1 hsplit
  rw [hend hall, hlength]

theorem decode_container {name : String} {fields : List (Field Shape)} {bytes : Bytes} {v : Value} :
    (container name fields).decode bytes = .ok v ↔
      ∃ parts values, OffsetTable.split (slots fields) bytes = .ok parts ∧
        Fieldwise (fun shape part v => shape.decode part = .ok v) fields parts values ∧
        .container values = v := by
  have hopen : (container name fields).decode bytes = .ok v ↔
      ∃ parts, OffsetTable.split (slots fields) bytes = .ok parts ∧
        ∃ values, decodeFields fields parts = .ok values ∧ .container values = v := by
    cases hsize : fieldsFixedSize? fields with
    | none =>
      simp only [decode, hsize, bind_eq_ok, pure_eq_ok, malformed_eq_ok]
      rfl
    | some size =>
      simp only [decode, hsize, bind_eq_ok, exists_unit, pure_eq_ok, malformed_eq_ok,
        expectLength_eq_ok]
      constructor
      · rintro ⟨-, h⟩
        exact h
      · rintro ⟨parts, hparts, h⟩
        exact ⟨length_of_split hsize hparts, parts, hparts, h⟩
  have hcount : ∀ {parts}, OffsetTable.split (slots fields) bytes = .ok parts →
      parts.length = fields.length := fun hsplit => by
    rw [← (OffsetTable.split_eq_ok.1 hsplit).1.length_eq, slots, List.length_map]
  rw [hopen]
  constructor
  · rintro ⟨parts, hparts, values, hvalues, hv⟩
    exact ⟨parts, values, hparts, (decodeFields_eq_ok (hcount hparts)).1 hvalues, hv⟩
  · rintro ⟨parts, values, hparts, hvalues, hv⟩
    exact ⟨parts, hparts, values, (decodeFields_eq_ok (hcount hparts)).2 hvalues, hv⟩

theorem write_container {name : String} {fields : List (Field Shape)} {values : List Value}
    {bytes : Bytes} (hlength : values.length = fields.length) :
    (container name fields).write (.container values) = .ok bytes ↔
      ∃ parts, Fieldwise (fun shape part v => shape.write v = .ok part) fields parts values ∧
        OffsetTable.join (segments (slots fields) parts) = .ok bytes := by
  simp only [write, bind_eq_ok, writeFields_eq_ok hlength]
  constructor
  · rintro ⟨_, ⟨parts, hparts, rfl⟩, hjoin⟩
    exact ⟨parts, hparts, hjoin⟩
  · rintro ⟨parts, hparts, hjoin⟩
    exact ⟨_, ⟨parts, hparts, rfl⟩, hjoin⟩

/-! ## Unions -/

theorem decodeChosen_eq_ok {selector : UInt8} {alternatives : List (Option Shape)} {index : Nat}
    {payload : Bytes} {inner : Option Value} :
    decodeChosen selector alternatives index payload = .ok inner ↔
      (alternatives[index]? = some none ∧ selector = 0 ∧ payload = [] ∧ inner = none) ∨
        ∃ shape v, alternatives[index]? = some (some shape) ∧ shape.decode payload = .ok v ∧
          inner = some v := by
  induction alternatives generalizing index with
  | nil => simp [decodeChosen]
  | cons choice alternatives ih =>
    cases index with
    | zero =>
      cases choice with
      | none =>
        simp only [decodeChosen]
        split
        · simp_all
        · cases payload <;> simp_all [eq_comm]
      | some shape => simp [decodeChosen, @eq_comm _ inner]
    | succ index => simp [decodeChosen, ih]

theorem writeChosen_none {alternatives : List (Option Shape)} {index : Nat} :
    writeChosen alternatives index none = .ok [] := by
  induction alternatives generalizing index with
  | nil => rfl
  | cons choice alternatives ih =>
    cases index with
    | zero => cases choice <;> rfl
    | succ index => cases choice <;> exact ih

theorem writeChosen_some {alternatives : List (Option Shape)} {index : Nat} {shape : Shape}
    (hshape : alternatives[index]? = some (some shape)) (inner : Value) :
    writeChosen alternatives index (some inner) = shape.write inner := by
  refine chosen_induction hshape ?_ ?_
  · intro rest
    rfl
  · intro choice rest index ih
    cases choice <;> exact ih

theorem decode_union {alternatives : List (Option Shape)} {bytes : Bytes} {v : Value} :
    (union alternatives).decode bytes = .ok v ↔
      (alternatives[0]? = some none ∧ bytes = [0] ∧ v = .union 0 none) ∨
        ∃ selector shape payload inner, alternatives[selector.toNat]? = some (some shape) ∧
          bytes = selector :: payload ∧ shape.decode payload = .ok inner ∧
          v = .union selector (some inner) := by
  cases bytes with
  | nil => simp [decode]
  | cons selector payload =>
    simp only [decode, bind_eq_ok, pure_eq_ok, decodeChosen_eq_ok]
    constructor
    · rintro ⟨_, ⟨hnone, rfl, rfl, rfl⟩ | ⟨shape, inner, hshape, hinner, rfl⟩, rfl⟩
      · exact .inl ⟨hnone, rfl, rfl⟩
      · exact .inr ⟨selector, shape, payload, inner, hshape, rfl, hinner, rfl⟩
    · rintro (⟨hnone, hbytes, rfl⟩ | ⟨_, shape, _, inner, hshape, hbytes, hinner, rfl⟩)
      · cases hbytes
        exact ⟨_, .inl ⟨hnone, rfl, rfl, rfl⟩, rfl⟩
      · cases hbytes
        exact ⟨_, .inr ⟨shape, inner, hshape, hinner, rfl⟩, rfl⟩

theorem write_union_none {alternatives : List (Option Shape)} {selector : UInt8} :
    (union alternatives).write (.union selector none) = .ok [selector] := by
  simp [write, writeChosen_none]

theorem write_union_some {alternatives : List (Option Shape)} {selector : UInt8} {shape : Shape}
    (hshape : alternatives[selector.toNat]? = some (some shape)) {inner : Value} {bytes : Bytes} :
    (union alternatives).write (.union selector (some inner)) = .ok bytes ↔
      ∃ payload, shape.write inner = .ok payload ∧ bytes = selector :: payload := by
  simp only [write, writeChosen_some hshape, bind_eq_ok, pure_eq_ok, @eq_comm _ bytes]

end Shape

end Ssz

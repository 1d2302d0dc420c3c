-- SUMMARY: The closed form of the encoding of a value, and that the writer produces it.
import Mathlib.Algebra.BigOperators.Group.List.Basic
import Mathlib.Data.Nat.Bitwise
import Ssz.Proofs.Wire.Encodes

/-!
# Wire layout

The layout of a value is given here without any running state. A number is the
list of its digits, packed bits say of each position what stands there, and an
offset is the length of the prefix plus the lengths of the parts that come
earlier. The writer, which keeps a running offset, produces the same bytes.
-/

namespace Ssz

open OffsetTable (Slot Segment segments Fit)

/-! ## Numbers -/

/-- The first `width` base-256 digits of a number, least significant first. -/
def digits (width n : Nat) : Bytes :=
  (List.range width).map fun i => UInt8.ofNat (n / 256 ^ i % 256)

theorem littleEndian_eq_digits (width n : Nat) : littleEndian width n = digits width n := by
  induction width generalizing n with
  | zero => rfl
  | succ width ih =>
    rw [littleEndian, ih, digits, digits, List.range_succ_eq_map, List.map_cons, List.map_map,
      pow_zero, Nat.div_one]
    refine congrArg _ (List.map_congr_left fun i _ => ?_)
    rw [Function.comp_apply, Nat.succ_eq_add_one, pow_succ', Nat.div_div_eq_div_mul]

/-! ## Bits -/

/-- `count` bytes, with `bit i` in byte `i / 8` at position `i % 8`. -/
def packed (count : Nat) (bit : Nat → Bool) : Bytes :=
  (List.range count).map fun j => UInt8.ofNat (Nat.ofBits fun k : Fin 8 => bit (8 * j + k))

@[simp] theorem length_packed (count : Nat) (bit : Nat → Bool) :
    (packed count bit).length = count := by
  rw [packed, List.length_map, List.length_range]

theorem bitAt_packed {count i : Nat} (bit : Nat → Bool) (h : i < 8 * count) :
    bitAt (packed count bit) i = bit i := by
  have hbyte : (packed count bit).getD (i / 8) 0
      = UInt8.ofNat (Nat.ofBits fun k : Fin 8 => bit (8 * (i / 8) + k)) := by
    rw [packed, List.getD_eq_getElem?_getD, List.getElem?_map, List.getElem?_range (by omega)]
    rfl
  have hmod : i % 8 < 8 := Nat.mod_lt _ (by decide)
  rw [bitAt, hbyte, ← testBit_toNat, UInt8.toNat_ofNat',
    Nat.mod_eq_of_lt (Nat.ofBits_lt_two_pow _), Nat.testBit_ofBits_lt _ _ hmod, Nat.div_add_mod]

theorem Bits.bytes_eq_packed (bits : Bits) :
    bits.bytes = packed (ceilDiv bits.length 8) fun i => bits.toList.getD i false := by
  refine bytes_ext (by rw [bits.length_bytes, length_packed]) fun i hi => ?_
  rw [bitAt_bytes, bitAt_packed _ (by rwa [← bits.length_bytes])]

theorem Bits.toWire_eq_packed (bits : Bits) :
    bits.toWire
      = packed (bits.length / 8 + 1) fun i => (bits.toList ++ [true]).getD i false := by
  refine bytes_ext (by rw [length_toWire, length_packed]) fun i hi => ?_
  rw [bitAt_toWire_eq_getD, bitAt_packed _ (by rwa [← length_toWire])]

/-! ## Composites -/

/-- A part of a composite: the size of its shape, if that is fixed, and its bytes. -/
structure Part where
  size : Option Nat
  body : Bytes

namespace Part

/-- The length of the prefix: each part takes the size of its shape, or one offset. -/
def prefixLength (parts : List Part) : Nat := (parts.map fun part => part.size.getD 4).sum

/-- The parts that do not stand in the prefix. -/
def deferred (parts : List Part) : List Bytes :=
  (parts.filter fun part => part.size.isNone).map Part.body

/-- The prefix, then the parts that do not stand in it. Part `i` stands in the prefix itself, or
    the prefix holds the place where it starts. -/
def layout (parts : List Part) : Bytes :=
  let start i := prefixLength parts + ((deferred (parts.take i)).map List.length).sum
  (parts.mapIdx fun i part => if part.size.isSome then part.body else digits 4 (start i)).flatten
    ++ (deferred parts).flatten

/-- The part as it is joined. -/
def toSegment (part : Part) : Segment := ⟨part.size.isSome, part.body⟩

/-- The part has the size of its shape. -/
def Fits (part : Part) : Prop := ∀ size ∈ part.size, part.body.length = size

theorem prefixLength_cons (part : Part) (parts : List Part) :
    prefixLength (part :: parts) = part.size.getD 4 + prefixLength parts := List.sum_cons

theorem deferred_fixed (size : Nat) (body : Bytes) (parts : List Part) :
    deferred (⟨some size, body⟩ :: parts) = deferred parts := rfl

theorem deferred_variable (body : Bytes) (parts : List Part) :
    deferred (⟨none, body⟩ :: parts) = body :: deferred parts := rfl

theorem prefixLength_toSegment {parts : List Part} (h : ∀ part ∈ parts, part.Fits) :
    OffsetTable.prefixLength (parts.map toSegment) = prefixLength parts := by
  induction parts with
  | nil => rfl
  | cons part parts ih =>
    have hpart := h part List.mem_cons_self
    have hparts := ih fun other hother => h other (List.mem_cons_of_mem _ hother)
    obtain ⟨_ | size, body⟩ := part
    · rw [List.map_cons, prefixLength_cons, ← hparts]
      exact OffsetTable.prefixLength_variable _ _
    · rw [List.map_cons, prefixLength_cons, ← hparts]
      refine (OffsetTable.prefixLength_fixed _ _).trans ?_
      rw [hpart size rfl]
      rfl

theorem bodies_toSegment (parts : List Part) :
    OffsetTable.bodies (parts.map toSegment) = (deferred parts).flatten := by
  induction parts with
  | nil => rfl
  | cons part parts ih =>
    obtain ⟨_ | size, body⟩ := part
    · rw [List.map_cons, deferred_variable, List.flatten_cons, ← ih]
      exact OffsetTable.bodies_variable _ _
    · rw [List.map_cons, deferred_fixed, ← ih]
      exact OffsetTable.bodies_fixed _ _

/-- The running offset is where the parts start, relative to the first of them. -/
theorem heads_toSegment {start : Nat} {parts : List Part} {front : Bytes}
    (h : OffsetTable.heads start (parts.map toSegment) = .ok front) :
    front = (parts.mapIdx fun i part => if part.size.isSome then part.body
      else digits 4 (start + ((deferred (parts.take i)).map List.length).sum)).flatten := by
  induction parts generalizing start front with
  | nil =>
    cases h
    rfl
  | cons part parts ih =>
    rw [List.mapIdx_cons, List.flatten_cons]
    obtain ⟨_ | size, body⟩ := part
    · obtain ⟨-, rest, hrest, rfl⟩ := OffsetTable.heads_variable.1 h
      -- The body that comes first is the first of the deferred parts before all later ones.
      rw [ih hrest, littleEndian_eq_digits]
      simp only [Nat.add_assoc]
      rfl
    · obtain ⟨rest, hrest, rfl⟩ := OffsetTable.heads_fixed.1 h
      rw [ih hrest]
      simp [deferred_fixed]

theorem join_toSegment {parts : List Part} {bytes : Bytes} (hfits : ∀ part ∈ parts, part.Fits)
    (h : OffsetTable.join (parts.map toSegment) = .ok bytes) : bytes = layout parts := by
  obtain ⟨front, hfront, rfl⟩ := OffsetTable.join_eq_ok.1 h
  rw [prefixLength_toSegment hfits] at hfront
  rw [heads_toSegment hfront, bodies_toSegment]
  rfl

end Part

namespace Shape

/-! ## Values -/

mutual

/-- The encoding of a well-formed value, in closed form. -/
def layout : Shape → Value → Bytes
  | .bool, .bool b => [if b then 1 else 0]
  | .uint _, .uint width n => digits (width.bits / 8) n.toNat
  | .byteVector _, .bytes contents | .byteList _, .bytes contents => contents
  | .bitVector length, .bits contents =>
    packed (ceilDiv length 8) fun i => contents.toList.getD i false
  | .bitList _, .bits contents =>
    packed (contents.length / 8 + 1) fun i => (contents.toList ++ [true]).getD i false
  | .vector element _, .list items | .list element _, .list items =>
    if element.isFixedSize then (items.map fun item => element.layout item).flatten
    else Part.layout (items.map fun item => ⟨none, element.layout item⟩)
  | .container _ fields, .container values => Part.layout (layoutFields fields values)
  | .union alternatives, .union selector inner =>
    selector :: layoutChosen alternatives selector.toNat inner
  | _, _ => []
termination_by structural shape => shape

def layoutFields : List (Field Shape) → List Value → List Part
  | ⟨_, _, shape⟩ :: fields, v :: values =>
    ⟨shape.fixedSize?, shape.layout v⟩ :: layoutFields fields values
  | _, _ => []
termination_by structural fields => fields

def layoutChosen : (alternatives : List (Option Shape)) → (index : Nat) → Option Value → Bytes
  | some shape :: _, 0, some inner => shape.layout inner
  | _ :: alternatives, index + 1, inner => layoutChosen alternatives index inner
  | _, _, _ => []
termination_by structural alternatives => alternatives

end

theorem layout_uint (width : UintWidth) (n : BitVec width.bits) :
    layout (.uint width) (.uint width n) = littleEndian width.bytes n.toNat := by
  have hwidth : width.bits / 8 = width.bytes := Nat.mul_div_cancel_left _ (by decide)
  rw [littleEndian_eq_digits, layout, hwidth]

theorem layoutChosen_none (alternatives : List (Option Shape)) (index : Nat) :
    layoutChosen alternatives index none = [] := by
  induction alternatives generalizing index with
  | nil => rfl
  | cons choice alternatives ih =>
    cases index with
    | zero => cases choice <;> rfl
    | succ index => cases choice <;> exact ih index

theorem layoutChosen_some {alternatives : List (Option Shape)} {index : Nat} {shape : Shape}
    (hshape : alternatives[index]? = some (some shape)) (inner : Value) :
    layoutChosen alternatives index (some inner) = shape.layout inner := by
  refine chosen_induction hshape ?_ ?_
  · intro rest
    rfl
  · intro choice rest index ih
    cases choice <;> exact ih

/-- The parts of a record are joined as the fields lay them out. -/
theorem segments_layoutFields {fields : List (Field Shape)} {parts : List Bytes}
    {values : List Value}
    (h : Fieldwise (fun shape part v => part = shape.layout v) fields parts values) :
    segments (slots fields) parts = (layoutFields fields values).map Part.toSegment := by
  induction h with
  | nil => rfl
  | @cons field fields part parts v values hpart _ ih =>
    rw [slots_cons, OffsetTable.segments_cons, ih, hpart]
    rfl

theorem fits_layoutFields {fields : List (Field Shape)} {parts : List Bytes} {values : List Value}
    (h : Fieldwise (fun shape part v => part = shape.layout v ∧
      ∀ size ∈ shape.fixedSize?, part.length = size) fields parts values) :
    ∀ part ∈ layoutFields fields values, part.Fits := by
  induction h with
  | nil =>
    intro part hpart
    cases hpart
  | @cons field fields part parts v values hpart _ ih =>
    intro other hother
    rcases List.mem_cons.1 hother with rfl | hother
    · exact hpart.1 ▸ hpart.2
    · exact ih other hother

/-- A sequence is laid out in either of two ways. -/
theorem join_layout {element : Shape} {parts : List Bytes} {items : List Value} {bytes : Bytes}
    (hparts : List.Forall₂ (fun part item => part = element.layout item) parts items)
    (hjoin : OffsetTable.join (parts.map (Segment.mk element.fixedSize?.isSome)) = .ok bytes) :
    bytes = if element.isFixedSize then (items.map fun item => element.layout item).flatten
      else Part.layout (items.map fun item => ⟨none, element.layout item⟩) := by
  have heq : parts = items.map fun item => element.layout item := by
    rw [← List.forall₂_eq_eq_eq]
    exact List.forall₂_map_right_iff.2 hparts
  subst heq
  rw [isSome_fixedSize?] at hjoin
  cases hfixed : element.isFixedSize with
  | true =>
    rw [hfixed, OffsetTable.join_map_fixed] at hjoin
    cases hjoin
    rfl
  | false =>
    rw [hfixed, List.map_map] at hjoin
    refine Part.join_toSegment ?_ (by rw [List.map_map]; exact hjoin)
    intro part hpart
    obtain ⟨item, _, rfl⟩ := List.mem_map.1 hpart
    rintro size ⟨⟩

theorem Encodes.eq_layout {shape : Shape} {v : Value} {bytes : Bytes}
    (h : shape.Encodes v bytes) : bytes = shape.layout v := by
  induction shape generalizing v bytes with
  | bool =>
    obtain ⟨b, rfl, rfl⟩ := encodes_bool.1 h
    rfl
  | uint width =>
    obtain ⟨n, rfl, rfl⟩ := encodes_uint.1 h
    exact (layout_uint width n).symm
  | byteVector length =>
    obtain ⟨rfl, -⟩ := encodes_byteVector.1 h
    rfl
  | byteList max =>
    obtain ⟨rfl, -⟩ := encodes_byteList.1 h
    rfl
  | bitVector length =>
    obtain ⟨bits, rfl, rfl, rfl⟩ := encodes_bitVector.1 h
    exact bits.bytes_eq_packed
  | bitList max =>
    obtain ⟨bits, rfl, rfl, -⟩ := encodes_bitList.1 h
    exact bits.toWire_eq_packed
  | vector element length ih =>
    obtain ⟨parts, items, -, hitems, hjoin, rfl⟩ := encodes_vector.1 h
    exact join_layout (hitems.imp fun _ _ hitem => ih hitem) hjoin
  | list element max ih =>
    obtain ⟨parts, items, -, hitems, hjoin, rfl⟩ := encodes_list.1 h
    exact join_layout (hitems.imp fun _ _ hitem => ih hitem) hjoin
  | container name fields ih =>
    obtain ⟨parts, values, hfields, hjoin, rfl⟩ := encodes_container.1 h
    have hparts := hfields.imp (S := fun shape part v => part = shape.layout v ∧
      ∀ size ∈ shape.fixedSize?, part.length = size) fun field hfield _ _ hv =>
        ⟨ih field hfield hv, hv.length_eq⟩
    rw [segments_layoutFields (hparts.imp fun _ _ _ _ hpart => hpart.1)] at hjoin
    exact Part.join_toSegment (fits_layoutFields hparts) hjoin
  | union alternatives ih =>
    obtain ⟨hnone, rfl, rfl⟩ | ⟨selector, shape, payload, inner, hshape, rfl, hinner, rfl⟩ :=
      encodes_union.1 h
    · rw [layout, layoutChosen_none]
    · rw [layout, layoutChosen_some hshape, ih shape (List.mem_of_getElem? hshape) hinner]

end Shape

/-- Whatever is encoded, and the encoder refuses what is not well-formed, is laid out as the closed
    form says. -/
theorem encode_eq_layout {shape : Shape} {v : Value} {bytes : Bytes}
    (h : encode shape v = .ok bytes) : bytes = shape.layout v :=
  (encode_eq_ok.1 h).eq_layout

theorem encode_eq_layout_record :
    let shape : Shape := .container "record" [⟨"slot", "slot", .uint .u32⟩,
      ⟨"notes", "notes", .list (.byteList 4) 3⟩, ⟨"flags", "flags", .bitVector 10⟩,
      ⟨"choice", "choice", .union [none, some (.bitList 9)]⟩]
    let v : Value := .container
      [.uint .u32 0x010203, .list [.bytes [], .bytes [7, 9]],
        .bits (.ofList [true, false, false, false, false, false, false, true, false, true]),
        .union 1 (some (.bits (.ofList [true, false, true])))]
    let bytes : Bytes := [3, 2, 1, 0, 14, 0, 0, 0, 129, 2, 24, 0, 0, 0,
      8, 0, 0, 0, 8, 0, 0, 0, 7, 9, 1, 13]
    encode shape v = .ok bytes ∧ shape.layout v = bytes :=
  ⟨by rfl, (encode_eq_layout (by rfl)).symm⟩

end Ssz

-- SUMMARY: A composite of few small parts is encoded, and its encoding is small as well.
import Ssz.Proofs.Wire.Encodes

/-!
# Sizes of composites

What can go wrong with a well-formed composite is an offset that is too large. The
last offset is below the length of the whole, so a bound on the number of parts
and on their lengths is enough for the composite to be encoded, and gives a bound
on its own length. The bound counts an offset for every part.
-/

namespace Ssz

open OffsetTable (Slot Segment segments)

namespace OffsetTable

/-! ## Joining -/

/-- Each offset is at most where the last of the bodies ends. -/
theorem exists_heads {start : Nat} {parts : List Segment}
    (h : start + (bodies parts).length < Nat.pow 256 bytesPerOffset) :
    ∃ front, heads start parts = .ok front := by
  induction parts generalizing start with
  | nil => exact ⟨[], rfl⟩
  | cons part parts ih =>
    obtain ⟨_ | _, body⟩ := part
    · rw [bodies_variable, List.length_append, ← Nat.add_assoc] at h
      obtain ⟨rest, hrest⟩ := ih h
      exact ⟨_, heads_variable.2 ⟨by omega, rest, hrest, rfl⟩⟩
    · obtain ⟨rest, hrest⟩ := ih h
      exact ⟨_, heads_fixed.2 ⟨rest, hrest, rfl⟩⟩

theorem exists_join {parts : List Segment}
    (h : prefixLength parts + (bodies parts).length < Nat.pow 256 bytesPerOffset) :
    ∃ bytes, join parts = .ok bytes ∧
      bytes.length = prefixLength parts + (bodies parts).length := by
  obtain ⟨front, hfront⟩ := exists_heads h
  refine ⟨_, join_eq_ok.2 ⟨front, hfront, rfl⟩, ?_⟩
  rw [List.length_append, length_of_heads hfront]

theorem length_parts_le {parts : List Segment} {bound : Nat}
    (h : ∀ part ∈ parts, part.body.length ≤ bound) :
    prefixLength parts + (bodies parts).length ≤ parts.length * (bytesPerOffset + bound) := by
  induction parts with
  | nil => exact Nat.zero_le _
  | cons part parts ih =>
    obtain ⟨hpart, hparts⟩ := List.forall_mem_cons.1 h
    have hrest := ih hparts
    obtain ⟨_ | _, body⟩ := part
    · rw [prefixLength_variable, bodies_variable, List.length_append, List.length_cons,
        Nat.succ_mul]
      dsimp only at hpart
      omega
    · rw [prefixLength_fixed, bodies_fixed, List.length_cons, Nat.succ_mul]
      dsimp only at hpart
      omega

/-- At most `count` parts of at most `bound` bytes each. -/
theorem exists_join_of_le {parts : List Segment} {count bound : Nat} (hcount : parts.length ≤ count)
    (hparts : ∀ part ∈ parts, part.body.length ≤ bound)
    (hfits : count * (bytesPerOffset + bound) < Nat.pow 256 bytesPerOffset) :
    ∃ bytes, join parts = .ok bytes ∧ bytes.length ≤ count * (bytesPerOffset + bound) := by
  have hlength : prefixLength parts + (bodies parts).length ≤ count * (bytesPerOffset + bound) :=
    Nat.le_trans (length_parts_le hparts) (Nat.mul_le_mul_right _ hcount)
  obtain ⟨bytes, hjoin, heq⟩ := exists_join (Nat.lt_of_le_of_lt hlength hfits)
  exact ⟨bytes, hjoin, heq ▸ hlength⟩

end OffsetTable

namespace Shape

/-! ## Encodings of at most so many bytes -/

/-- The value has an encoding of at most `bound` bytes. -/
def EncodedWithin (bound : Nat) (shape : Shape) (v : Value) : Prop :=
  ∃ bytes, shape.Encodes v bytes ∧ bytes.length ≤ bound

variable {bound count : Nat}

theorem EncodedWithin.mono {shape : Shape} {v : Value} {larger : Nat}
    (h : shape.EncodedWithin bound v) (hle : bound ≤ larger) : shape.EncodedWithin larger v := by
  obtain ⟨bytes, hbytes, hlength⟩ := h
  exact ⟨bytes, hbytes, Nat.le_trans hlength hle⟩

theorem exists_itemParts {element : Shape} {items : List Value}
    (h : ∀ item ∈ items, element.EncodedWithin bound item) :
    ∃ parts, List.Forall₂ (fun part item => element.Encodes item part) parts items ∧
      ∀ part ∈ parts, part.length ≤ bound := by
  obtain ⟨parts, hparts⟩ := exists_forall₂ h
  have hboth := hparts.flip.imp fun _ _ hpart => And.symm hpart
  obtain ⟨hlengths, hencodes⟩ := (List.forall₂_and_left parts items).1 hboth
  exact ⟨parts, hencodes, hlengths⟩

theorem exists_fieldParts {fields : List (Field Shape)} {values : List Value}
    (h : List.Forall₂ (fun field v => field.shape.EncodedWithin bound v) fields values) :
    ∃ parts, Fieldwise (fun shape part v => shape.Encodes v part) fields parts values ∧
      (segments (slots fields) parts).length = fields.length ∧
      ∀ segment ∈ segments (slots fields) parts, segment.body.length ≤ bound := by
  induction h with
  | nil => exact ⟨[], .nil, rfl, List.forall_mem_nil _⟩
  | cons hv _ ih =>
    obtain ⟨part, hpart, hlength⟩ := hv
    obtain ⟨parts, hparts, hcount, hlengths⟩ := ih
    exact ⟨part :: parts, .cons hpart hparts, congrArg Nat.succ hcount,
      List.forall_mem_cons.2 ⟨hlength, hlengths⟩⟩

theorem exists_join_items {slot : Slot} {parts : List Bytes}
    (hcount : parts.length ≤ count) (hparts : ∀ part ∈ parts, part.length ≤ bound)
    (hfits : count * (bytesPerOffset + bound) < Nat.pow 256 bytesPerOffset) :
    ∃ bytes, OffsetTable.join (parts.map (Segment.mk slot.isSome)) = .ok bytes ∧
      bytes.length ≤ count * (bytesPerOffset + bound) := by
  refine OffsetTable.exists_join_of_le (by rwa [List.length_map]) (fun segment hsegment => ?_) hfits
  obtain ⟨part, hpart, rfl⟩ := List.mem_map.1 hsegment
  exact hparts part hpart

theorem encodedWithin_vector {element : Shape} {items : List Value} (hcount : items.length ≤ count)
    (hitems : ∀ item ∈ items, element.EncodedWithin bound item)
    (hfits : count * (bytesPerOffset + bound) < Nat.pow 256 bytesPerOffset) :
    EncodedWithin (count * (bytesPerOffset + bound)) (.vector element items.length)
      (.list items) := by
  obtain ⟨parts, hparts, hlengths⟩ := exists_itemParts hitems
  have hlength := hparts.length_eq
  obtain ⟨bytes, hjoin, hbytes⟩ := exists_join_items (hlength ▸ hcount) hlengths hfits
  exact ⟨bytes, encodes_vector.2 ⟨parts, items, hlength, hparts, hjoin, rfl⟩, hbytes⟩

theorem encodedWithin_list {element : Shape} {max : Nat} {items : List Value}
    (hmax : items.length ≤ max) (hcount : items.length ≤ count)
    (hitems : ∀ item ∈ items, element.EncodedWithin bound item)
    (hfits : count * (bytesPerOffset + bound) < Nat.pow 256 bytesPerOffset) :
    EncodedWithin (count * (bytesPerOffset + bound)) (.list element max) (.list items) := by
  obtain ⟨parts, hparts, hlengths⟩ := exists_itemParts hitems
  have hlength := hparts.length_eq
  obtain ⟨bytes, hjoin, hbytes⟩ := exists_join_items (hlength ▸ hcount) hlengths hfits
  exact ⟨bytes, encodes_list.2 ⟨parts, items, hlength ▸ hmax, hparts, hjoin, rfl⟩, hbytes⟩

theorem encodedWithin_container {name : String} {fields : List (Field Shape)}
    {values : List Value} (hcount : fields.length ≤ count)
    (hfields : List.Forall₂ (fun field v => field.shape.EncodedWithin bound v) fields values)
    (hfits : count * (bytesPerOffset + bound) < Nat.pow 256 bytesPerOffset) :
    EncodedWithin (count * (bytesPerOffset + bound)) (.container name fields)
      (.container values) := by
  obtain ⟨parts, hparts, hlength, hlengths⟩ := exists_fieldParts hfields
  obtain ⟨bytes, hjoin, hbytes⟩ :=
    OffsetTable.exists_join_of_le (hlength ▸ hcount) hlengths hfits
  exact ⟨bytes, encodes_container.2 ⟨parts, values, hparts, hjoin, rfl⟩, hbytes⟩

theorem encodedWithin_union_some {alternatives : List (Option Shape)} {selector : UInt8}
    {shape : Shape} (hshape : alternatives[selector.toNat]? = some (some shape)) {inner : Value}
    (hinner : shape.EncodedWithin bound inner) :
    EncodedWithin (bound + 1) (.union alternatives) (.union selector (some inner)) := by
  obtain ⟨payload, hpayload, hlength⟩ := hinner
  exact ⟨_, encodes_union.2 (.inr ⟨selector, shape, payload, inner, hshape, rfl, hpayload, rfl⟩),
    Nat.succ_le_succ hlength⟩

end Shape

end Ssz

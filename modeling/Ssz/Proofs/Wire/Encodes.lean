-- SUMMARY: The values of a shape and their encodings, and how long an encoding is.
import Ssz.Proofs.Bits
import Ssz.Proofs.WellFormed
import Ssz.Proofs.Wire.Parts

/-!
# Encodings

`shape.Encodes v bytes` says that `v` is well-formed for `shape` and that `bytes`
is what the writer makes of it. The laws take an encoding apart. They have the
form of the laws of the reader, so that the two can be compared shape by shape:
on scalars and packed contents they agree, on composites they differ only in
what is said of the parts.
-/

namespace Ssz

open OffsetTable (Slot Segment Sequence Fit segments)

/-- The bytes are the encoding of the value, which is well-formed. -/
structure Shape.Encodes (shape : Shape) (v : Value) (bytes : Bytes) : Prop where
  check : shape.check v = .ok ()
  write : shape.write v = .ok bytes

theorem encode_eq_ok {shape : Shape} {v : Value} {bytes : Bytes} :
    encode shape v = .ok bytes ↔ shape.Encodes v bytes := by
  simp only [encode, bind_eq_ok, exists_unit]
  constructor
  · rintro ⟨hcheck, hwrite⟩
    exact ⟨hcheck, hwrite⟩
  · intro h
    exact ⟨h.check, h.write⟩

theorem UintWidth.two_pow_bits (width : UintWidth) :
    Nat.pow 2 width.bits = Nat.pow 256 width.bytes :=
  Nat.pow_mul 2 8 width.bytes

namespace Shape

/-! ## Scalars and packed contents -/

theorem encodes_bool {v : Value} {bytes : Bytes} :
    Encodes .bool v bytes ↔ ∃ b, v = .bool b ∧ bytes = [if b then 1 else 0] := by
  constructor
  · rintro ⟨hcheck, hwrite⟩
    obtain ⟨b, rfl⟩ := check_bool.1 hcheck
    cases hwrite
    exact ⟨b, rfl, rfl⟩
  · rintro ⟨b, rfl, rfl⟩
    exact ⟨check_bool.2 ⟨b, rfl⟩, rfl⟩

theorem encodes_uint {width : UintWidth} {v : Value} {bytes : Bytes} :
    Encodes (.uint width) v bytes ↔
      ∃ n, v = .uint width n ∧ bytes = littleEndian width.bytes n.toNat := by
  constructor
  · rintro ⟨hcheck, hwrite⟩
    obtain ⟨n, rfl⟩ := check_uint.1 hcheck
    cases hwrite
    exact ⟨n, rfl, rfl⟩
  · rintro ⟨n, rfl, rfl⟩
    exact ⟨check_uint.2 ⟨n, rfl⟩, rfl⟩

theorem encodes_byteVector {length : Nat} {v : Value} {bytes : Bytes} :
    Encodes (.byteVector length) v bytes ↔ v = .bytes bytes ∧ bytes.length = length := by
  constructor
  · rintro ⟨hcheck, hwrite⟩
    obtain ⟨contents, rfl, hlength⟩ := check_byteVector.1 hcheck
    cases hwrite
    exact ⟨rfl, hlength⟩
  · rintro ⟨rfl, hlength⟩
    exact ⟨check_byteVector.2 ⟨bytes, rfl, hlength⟩, rfl⟩

theorem encodes_byteList {max : Nat} {v : Value} {bytes : Bytes} :
    Encodes (.byteList max) v bytes ↔ v = .bytes bytes ∧ bytes.length ≤ max := by
  constructor
  · rintro ⟨hcheck, hwrite⟩
    obtain ⟨contents, rfl, hmax⟩ := check_byteList.1 hcheck
    cases hwrite
    exact ⟨rfl, hmax⟩
  · rintro ⟨rfl, hmax⟩
    exact ⟨check_byteList.2 ⟨bytes, rfl, hmax⟩, rfl⟩

theorem encodes_bitVector {length : Nat} {v : Value} {bytes : Bytes} :
    Encodes (.bitVector length) v bytes ↔
      ∃ bits, v = .bits bits ∧ bits.length = length ∧ bits.bytes = bytes := by
  constructor
  · rintro ⟨hcheck, hwrite⟩
    obtain ⟨bits, rfl, hlength⟩ := check_bitVector.1 hcheck
    cases hwrite
    exact ⟨bits, rfl, hlength, rfl⟩
  · rintro ⟨bits, rfl, hlength, rfl⟩
    exact ⟨check_bitVector.2 ⟨bits, rfl, hlength⟩, rfl⟩

theorem encodes_bitList {max : Nat} {v : Value} {bytes : Bytes} :
    Encodes (.bitList max) v bytes ↔
      ∃ bits, v = .bits bits ∧ bits.toWire = bytes ∧ bits.length ≤ max := by
  constructor
  · rintro ⟨hcheck, hwrite⟩
    obtain ⟨bits, rfl, hmax⟩ := check_bitList.1 hcheck
    cases hwrite
    exact ⟨bits, rfl, rfl, hmax⟩
  · rintro ⟨bits, rfl, rfl, hmax⟩
    exact ⟨check_bitList.2 ⟨bits, rfl, hmax⟩, rfl⟩

/-! ## Composites -/

theorem forall₂_encodes {element : Shape} {parts : List Bytes} {items : List Value} :
    List.Forall₂ (fun part item => element.Encodes item part) parts items ↔
      (∀ item ∈ items, element.check item = .ok ()) ∧
        List.Forall₂ (fun item part => element.write item = .ok part) items parts := by
  rw [← List.forall₂_and_left]
  constructor
  · intro h
    exact h.flip.imp fun _ _ hencodes => ⟨hencodes.check, hencodes.write⟩
  · intro h
    exact h.flip.imp fun _ _ hencodes => ⟨hencodes.1, hencodes.2⟩

theorem encodes_vector {element : Shape} {length : Nat} {v : Value} {bytes : Bytes} :
    (vector element length).Encodes v bytes ↔
      ∃ parts items, parts.length = length ∧
        List.Forall₂ (fun part item => element.Encodes item part) parts items ∧
        OffsetTable.join (parts.map (Segment.mk element.fixedSize?.isSome)) = .ok bytes ∧
        .list items = v := by
  simp only [isSome_fixedSize?]
  constructor
  · rintro ⟨hcheck, hwrite⟩
    obtain ⟨items, rfl, hlength, hitems⟩ := check_vector.1 hcheck
    obtain ⟨parts, hparts, hjoin⟩ := write_vector.1 hwrite
    exact ⟨parts, items, hparts.length_eq ▸ hlength, forall₂_encodes.2 ⟨hitems, hparts⟩, hjoin, rfl⟩
  · rintro ⟨parts, items, hlength, hencodes, hjoin, rfl⟩
    obtain ⟨hitems, hparts⟩ := forall₂_encodes.1 hencodes
    exact ⟨check_vector.2 ⟨items, rfl, hparts.length_eq.trans hlength, hitems⟩,
      write_vector.2 ⟨parts, hparts, hjoin⟩⟩

theorem encodes_list {element : Shape} {max : Nat} {v : Value} {bytes : Bytes} :
    (list element max).Encodes v bytes ↔
      ∃ parts items, parts.length ≤ max ∧
        List.Forall₂ (fun part item => element.Encodes item part) parts items ∧
        OffsetTable.join (parts.map (Segment.mk element.fixedSize?.isSome)) = .ok bytes ∧
        .list items = v := by
  simp only [isSome_fixedSize?]
  constructor
  · rintro ⟨hcheck, hwrite⟩
    obtain ⟨items, rfl, hmax, hitems⟩ := check_list.1 hcheck
    obtain ⟨parts, hparts, hjoin⟩ := write_list.1 hwrite
    exact ⟨parts, items, hparts.length_eq ▸ hmax, forall₂_encodes.2 ⟨hitems, hparts⟩, hjoin, rfl⟩
  · rintro ⟨parts, items, hmax, hencodes, hjoin, rfl⟩
    obtain ⟨hitems, hparts⟩ := forall₂_encodes.1 hencodes
    exact ⟨check_list.2 ⟨items, rfl, Nat.le_trans (Nat.le_of_eq hparts.length_eq) hmax, hitems⟩,
      write_list.2 ⟨parts, hparts, hjoin⟩⟩

theorem fieldwise_encodes {fields : List (Field Shape)} {parts : List Bytes}
    {values : List Value} :
    Fieldwise (fun shape part v => shape.Encodes v part) fields parts values ↔
      List.Forall₂ (fun field v => field.shape.check v = .ok ()) fields values ∧
        Fieldwise (fun shape part v => shape.write v = .ok part) fields parts values := by
  constructor
  · intro h
    induction h with
    | nil => exact ⟨.nil, .nil⟩
    | cons hencodes _ ih => exact ⟨.cons hencodes.check ih.1, .cons hencodes.write ih.2⟩
  · rintro ⟨hcheck, hwrite⟩
    induction hwrite with
    | nil => exact .nil
    | cons hwrite _ ih =>
      cases hcheck with
      | cons hcheck hrest => exact .cons ⟨hcheck, hwrite⟩ (ih hrest)

theorem encodes_container {name : String} {fields : List (Field Shape)} {v : Value}
    {bytes : Bytes} :
    (container name fields).Encodes v bytes ↔
      ∃ parts values, Fieldwise (fun shape part v => shape.Encodes v part) fields parts values ∧
        OffsetTable.join (segments (slots fields) parts) = .ok bytes ∧ .container values = v := by
  constructor
  · rintro ⟨hcheck, hwrite⟩
    obtain ⟨values, rfl, hvalues⟩ := check_container.1 hcheck
    obtain ⟨parts, hparts, hjoin⟩ := (write_container hvalues.length_eq.symm).1 hwrite
    exact ⟨parts, values, fieldwise_encodes.2 ⟨hvalues, hparts⟩, hjoin, rfl⟩
  · rintro ⟨parts, values, hencodes, hjoin, rfl⟩
    obtain ⟨hvalues, hparts⟩ := fieldwise_encodes.1 hencodes
    exact ⟨check_container.2 ⟨values, rfl, hvalues⟩,
      (write_container hencodes.length_values).2 ⟨parts, hparts, hjoin⟩⟩

theorem encodes_union {alternatives : List (Option Shape)} {v : Value} {bytes : Bytes} :
    (union alternatives).Encodes v bytes ↔
      (alternatives[0]? = some none ∧ bytes = [0] ∧ v = .union 0 none) ∨
        ∃ selector shape payload inner, alternatives[selector.toNat]? = some (some shape) ∧
          bytes = selector :: payload ∧ shape.Encodes inner payload ∧
          v = .union selector (some inner) := by
  constructor
  · rintro ⟨hcheck, hwrite⟩
    obtain ⟨rfl, hnone⟩ | ⟨selector, shape, inner, rfl, hshape, hinner⟩ := check_union.1 hcheck
    · rw [write_union_none] at hwrite
      cases hwrite
      exact .inl ⟨hnone, rfl, rfl⟩
    · obtain ⟨payload, hpayload, rfl⟩ := (write_union_some hshape).1 hwrite
      exact .inr ⟨selector, shape, payload, inner, hshape, rfl, ⟨hinner, hpayload⟩, rfl⟩
  · rintro (⟨hnone, rfl, rfl⟩ | ⟨selector, shape, payload, inner, hshape, rfl, hencodes, rfl⟩)
    · exact ⟨check_union.2 (.inl ⟨rfl, hnone⟩), write_union_none⟩
    · exact ⟨check_union.2 (.inr ⟨selector, shape, inner, rfl, hshape, hencodes.check⟩),
        (write_union_some hshape).2 ⟨payload, hencodes.write, rfl⟩⟩

/-! ## Fixed sizes -/

theorem Fieldwise.fit {R : Shape → Bytes → Value → Prop} {fields : List (Field Shape)}
    {parts : List Bytes} {values : List Value} (h : Fieldwise R fields parts values)
    (hsize : ∀ field ∈ fields, ∀ part v, R field.shape part v →
      ∀ size ∈ field.shape.fixedSize?, part.length = size) : Fit (slots fields) parts := by
  induction h with
  | nil => exact .nil
  | cons hR _ ih =>
    refine .cons (hsize _ List.mem_cons_self _ _ hR) (ih fun field hfield => ?_)
    exact hsize field (List.mem_cons_of_mem _ hfield)

theorem forall₂_sizes {element : Shape} {R : Bytes → Value → Prop} {parts : List Bytes}
    {items : List Value} (h : List.Forall₂ R parts items)
    (hsize : ∀ part v, R part v → ∀ size ∈ element.fixedSize?, part.length = size) :
    ∀ part ∈ parts, ∀ size ∈ element.fixedSize?, part.length = size := by
  induction h with
  | nil =>
    intro _ hpart
    cases hpart
  | cons hR _ ih =>
    intro _ hpart
    rcases List.mem_cons.1 hpart with rfl | hpart
    · exact hsize _ _ hR
    · exact ih _ hpart

/-- All values of a shape of fixed size have encodings of that size. -/
theorem Encodes.length_eq {shape : Shape} {v : Value} {bytes : Bytes}
    (h : shape.Encodes v bytes) : ∀ size ∈ shape.fixedSize?, bytes.length = size := by
  induction shape generalizing v bytes with
  | bool =>
    rintro _ ⟨⟩
    obtain ⟨b, rfl, rfl⟩ := encodes_bool.1 h
    rfl
  | uint width =>
    rintro _ ⟨⟩
    obtain ⟨n, rfl, rfl⟩ := encodes_uint.1 h
    exact length_littleEndian _ _
  | byteVector length =>
    rintro _ ⟨⟩
    exact (encodes_byteVector.1 h).2
  | bitVector length =>
    rintro _ ⟨⟩
    obtain ⟨bits, rfl, rfl, rfl⟩ := encodes_bitVector.1 h
    exact bits.length_bytes
  | vector element length ih =>
    intro size hsize
    obtain ⟨n, hn, rfl⟩ := Option.map_eq_some_iff.1 hsize
    obtain ⟨parts, items, rfl, hparts, hjoin, rfl⟩ := encodes_vector.1 h
    rw [hn] at hjoin
    cases (OffsetTable.join_map_fixed parts).symm.trans hjoin
    exact length_flatten_of_forall fun part hpart =>
      forall₂_sizes hparts (fun _ _ hencodes => ih hencodes) part hpart n hn
  | container name fields ih =>
    intro size hsize
    obtain ⟨parts, values, hparts, hjoin, rfl⟩ := encodes_container.1 h
    have hfit := hparts.fit fun field hfield _ _ hencodes => ih field hfield hencodes
    exact length_of_split hsize (OffsetTable.split_eq_ok.2 ⟨hfit, hjoin⟩)
  | byteList | bitList | list | union => rintro _ ⟨⟩

theorem Encodes.sequence {element : Shape} {parts : List Bytes} {items : List Value} {bytes : Bytes}
    (hparts : List.Forall₂ (fun part item => element.Encodes item part) parts items)
    (hjoin : OffsetTable.join (parts.map (Segment.mk element.fixedSize?.isSome)) = .ok bytes) :
    Sequence element.fixedSize? parts bytes :=
  ⟨forall₂_sizes hparts fun _ _ hencodes => hencodes.length_eq, hjoin⟩

theorem Encodes.split {fields : List (Field Shape)} {parts : List Bytes} {values : List Value}
    {bytes : Bytes}
    (hparts : Fieldwise (fun shape part v => shape.Encodes v part) fields parts values)
    (hjoin : OffsetTable.join (segments (slots fields) parts) = .ok bytes) :
    OffsetTable.split (slots fields) bytes = .ok parts :=
  OffsetTable.split_eq_ok.2 ⟨hparts.fit fun _ _ _ _ hencodes => hencodes.length_eq, hjoin⟩

/-! ## Where the reader agrees with the writer outright -/

theorem decode_bool {bytes : Bytes} {v : Value} :
    decode .bool bytes = .ok v ↔ Encodes .bool v bytes := by
  simp only [decode, bind_eq_ok, exists_unit, expectLength_eq_ok, encodes_bool]
  constructor
  · rintro ⟨hlength, hv⟩
    obtain ⟨b, rfl⟩ := List.length_eq_one_iff.1 hlength
    rw [List.headD_cons] at hv
    split at hv
    · exact ⟨false, (pure_eq_ok.1 hv).symm, rfl⟩
    · exact ⟨true, (pure_eq_ok.1 hv).symm, rfl⟩
    · cases hv
  · rintro ⟨b, rfl, rfl⟩
    cases b <;> exact ⟨rfl, rfl⟩

theorem decode_uint {width : UintWidth} {bytes : Bytes} {v : Value} :
    decode (.uint width) bytes = .ok v ↔ Encodes (.uint width) v bytes := by
  simp only [decode, bind_eq_ok, exists_unit, pure_eq_ok, expectLength_eq_ok, encodes_uint]
  constructor
  · rintro ⟨hlength, rfl⟩
    have hlt : ofLittleEndian bytes < 2 ^ width.bits := by
      have h := ofLittleEndian_lt bytes
      rw [hlength] at h
      exact lt_of_lt_of_eq h width.two_pow_bits.symm
    refine ⟨_, rfl, ?_⟩
    rw [BitVec.toNat_ofNat, Nat.mod_eq_of_lt hlt, ← hlength, littleEndian_ofLittleEndian]
  · rintro ⟨n, rfl, rfl⟩
    have hlt : n.toNat < Nat.pow 256 width.bytes :=
      lt_of_lt_of_eq n.isLt width.two_pow_bits
    refine ⟨length_littleEndian _ _, ?_⟩
    rw [ofLittleEndian_littleEndian hlt, BitVec.ofNat_toNat, BitVec.setWidth_eq]

theorem decode_byteVector {length : Nat} {bytes : Bytes} {v : Value} :
    decode (.byteVector length) bytes = .ok v ↔ Encodes (.byteVector length) v bytes := by
  simp only [decode, bind_eq_ok, exists_unit, pure_eq_ok, expectLength_eq_ok, encodes_byteVector,
    and_comm, @eq_comm _ v]

theorem decode_byteList {max : Nat} {bytes : Bytes} {v : Value} :
    decode (.byteList max) bytes = .ok v ↔ Encodes (.byteList max) v bytes := by
  simp only [decode, bind_eq_ok, exists_unit, pure_eq_ok, malformed_eq_ok, checkCount_eq_ok,
    encodes_byteList, and_comm, @eq_comm _ v]

theorem decode_bitVector {length : Nat} {bytes : Bytes} {v : Value} :
    decode (.bitVector length) bytes = .ok v ↔ Encodes (.bitVector length) v bytes := by
  simp only [decode, bind_eq_ok, exists_unit, pure_eq_ok, malformed_eq_ok, expectLength_eq_ok,
    Bits.ofPacked_eq_ok, encodes_bitVector]
  constructor
  · rintro ⟨-, bits, ⟨hlength, hbytes⟩, rfl⟩
    exact ⟨bits, rfl, hlength, hbytes⟩
  · rintro ⟨bits, rfl, rfl, rfl⟩
    exact ⟨bits.length_bytes, bits, ⟨rfl, rfl⟩, rfl⟩

theorem decode_bitList {max : Nat} {bytes : Bytes} {v : Value} :
    decode (.bitList max) bytes = .ok v ↔ Encodes (.bitList max) v bytes := by
  simp only [decode, bind_eq_ok, pure_eq_ok, malformed_eq_ok, Bits.ofWire_eq_ok, encodes_bitList]
  constructor
  · rintro ⟨bits, ⟨hwire, hmax⟩, rfl⟩
    exact ⟨bits, rfl, hwire, hmax⟩
  · rintro ⟨bits, rfl, hwire, hmax⟩
    exact ⟨bits, ⟨hwire, hmax⟩, rfl⟩

end Shape

end Ssz

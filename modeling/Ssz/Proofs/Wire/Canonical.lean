-- SUMMARY: A byte string that the decoder accepts is the encoding of the value it returns.
import Ssz.Proofs.Wire.Encodes

/-!
# Canonical form

Every value has at most one encoding that the decoder accepts, and it is the one
that the encoder writes. No slack is left at any level: the offset tables, the
lengths, the unused bits and the selectors that are read are the ones that would
be written.
-/

namespace Ssz

/-- What is read is the encoding of what is returned. -/
theorem Shape.encodes_of_decode {shape : Shape} {bytes : Bytes} {v : Value}
    (h : shape.decode bytes = .ok v) : shape.Encodes v bytes := by
  induction shape generalizing bytes v with
  | bool => exact decode_bool.1 h
  | uint width => exact decode_uint.1 h
  | byteVector length => exact decode_byteVector.1 h
  | byteList max => exact decode_byteList.1 h
  | bitVector length => exact decode_bitVector.1 h
  | bitList max => exact decode_bitList.1 h
  | vector element length ih =>
    obtain ⟨parts, items, hlength, hsequence, hitems, rfl⟩ := decode_vector.1 h
    have hencodes := hitems.imp fun _ _ hitem => ih hitem
    exact encodes_vector.2 ⟨parts, items, hlength, hencodes, hsequence.join, rfl⟩
  | list element max ih =>
    obtain ⟨parts, items, hmax, -, hsequence, hitems, rfl⟩ := decode_list.1 h
    have hencodes := hitems.imp fun _ _ hitem => ih hitem
    exact encodes_list.2 ⟨parts, items, hmax, hencodes, hsequence.join, rfl⟩
  | container name fields ih =>
    obtain ⟨parts, values, hsplit, hfields, rfl⟩ := decode_container.1 h
    have hencodes : Fieldwise (fun shape part v => shape.Encodes v part) fields parts values :=
      hfields.imp fun field hfield _ _ hv => ih field hfield hv
    exact encodes_container.2 ⟨parts, values, hencodes, (OffsetTable.split_eq_ok.1 hsplit).2, rfl⟩
  | union alternatives ih =>
    obtain hempty | ⟨selector, shape, payload, inner, hshape, hbytes, hinner, hv⟩ :=
      decode_union.1 h
    · exact encodes_union.2 (.inl hempty)
    · have hencodes := ih shape (List.mem_of_getElem? hshape) hinner
      exact encodes_union.2
        (.inr ⟨selector, shape, payload, inner, hshape, hbytes, hencodes, hv⟩)

/-- Decoding accepts canonical encodings only: the value is well-formed, encoding it gives back the
    same bytes, and no other bytes decode to it. -/
theorem encode_of_decode {shape : Shape} {bytes : Bytes} {v : Value}
    (h : decode shape bytes = .ok v) :
    shape.check v = .ok () ∧ encode shape v = .ok bytes ∧
      ∀ other, decode shape other = .ok v → other = bytes := by
  have hencodes := Shape.encodes_of_decode h
  refine ⟨hencodes.check, encode_eq_ok.2 hencodes, fun other hother => ?_⟩
  have hwrite := (Shape.encodes_of_decode hother).write
  cases hencodes.write.symm.trans hwrite
  rfl

theorem encode_of_decode_record :
    let shape : Shape := .container "record" [⟨"notes", "notes", .list (.byteList 4) 3⟩,
      ⟨"choice", "choice", .union [none, some (.bitList 9)]⟩, ⟨"none", "none", .vector .bool 0⟩]
    let bytes : Bytes := [8, 0, 0, 0, 18, 0, 0, 0, 8, 0, 0, 0, 8, 0, 0, 0, 7, 9, 1, 13]
    let v : Value := .container
      [.list [.bytes [], .bytes [7, 9]], .union 1 (some (.bits (.ofList [true, false, true]))),
        .list []]
    decode shape bytes = .ok v ∧ encode shape v = .ok bytes :=
  ⟨by rfl, (encode_of_decode (by rfl)).2.1⟩

end Ssz

-- SUMMARY: All values of a shape of fixed size have encodings of one length, and no other is read.
import Ssz.Proofs.Wire.Overflow

/-!
# Fixed sizes

A shape of fixed size has no part of variable size at any depth, so its encodings
hold no offsets and nothing can go wrong with them. The reader checks the length
of its input before it looks at a single byte.
-/

namespace Ssz

namespace Shape

/-! ## Parts without offsets -/

theorem isFixedSize_of_mem_fields {fields : List (Field Shape)}
    (h : fieldsAreFixedSize fields = true) : ∀ field ∈ fields, field.shape.isFixedSize = true := by
  rw [fieldsAreFixedSize_eq_all] at h
  exact List.all_eq_true.1 h

theorem isSome_size_layoutFields {fields : List (Field Shape)} (values : List Value)
    (h : ∀ field ∈ fields, field.shape.isFixedSize = true) :
    ∀ part ∈ layoutFields fields values, part.size.isSome = true := by
  induction fields generalizing values with
  | nil => exact List.forall_mem_nil _
  | cons field fields ih =>
    cases values with
    | nil => exact List.forall_mem_nil _
    | cons v values =>
      obtain ⟨hfield, hfields⟩ := List.forall_mem_cons.1 h
      rw [← isSome_fixedSize?] at hfield
      exact List.forall_mem_cons.2 ⟨hfield, ih values hfields⟩

/-- The parts of a composite of fixed size all stand in the prefix. -/
theorem isSome_size_of_mem_parts {shape : Shape} (h : shape.isFixedSize = true) (v : Value) :
    ∀ part ∈ shape.parts v, part.size.isSome = true := by
  cases shape with
  | vector element length =>
    cases v with
    | list items =>
      rw [← isSome_fixedSize?] at h
      intro part hpart
      obtain ⟨item, -, rfl⟩ := List.mem_map.1 hpart
      simpa [fixedSize?] using h
    | _ => exact List.forall_mem_nil _
  | container name fields =>
    cases v with
    | container values => exact isSome_size_layoutFields values (isFixedSize_of_mem_fields h)
    | _ => exact List.forall_mem_nil _
  | list => cases h
  | _ => exact List.forall_mem_nil _

theorem not_hasOffset {shape : Shape} {v : Value} {offset : Nat}
    (hfixed : shape.isFixedSize = true) : ¬ shape.HasOffset v offset := by
  intro h
  induction h with
  | here hstarts =>
    obtain ⟨index, body, hpart, -⟩ := hstarts
    cases isSome_size_of_mem_parts hfixed _ _ (List.mem_of_getElem? hpart)
  | vector _ _ ih => exact ih hfixed
  | container index hfield _ _ ih =>
    exact ih (isFixedSize_of_mem_fields hfixed _ (List.mem_of_getElem? hfield))
  | list | union => cases hfixed

/-! ## Reading another length -/

theorem expectLength_eq_error {shape : Shape} {expected : Nat} {bytes : Bytes}
    (h : bytes.length ≠ expected) :
    expectLength shape expected bytes
      = .error (.incorrectLength shape.name expected bytes.length) := if_neg h

/-- The length is the first thing that is checked. -/
theorem decode_eq_error {shape : Shape} {size : Nat} {bytes : Bytes}
    (hsize : shape.fixedSize? = some size) (h : bytes.length ≠ size) :
    shape.decode bytes = .error (.incorrectLength shape.name size bytes.length) := by
  cases shape with
  | bool | uint | byteVector | bitVector =>
    cases hsize
    rw [decode, expectLength_eq_error h]
    rfl
  | vector element length =>
    obtain ⟨n, hn, rfl⟩ := Option.map_eq_some_iff.1 hsize
    rw [decode, hn]
    dsimp only
    rw [expectLength_eq_error h]
    rfl
  | container name fields =>
    have hfields : fieldsFixedSize? fields = some size := hsize
    rw [decode, hfields]
    dsimp only
    rw [expectLength_eq_error h]
    rfl
  | byteList | bitList | list | union => cases hsize

end Shape

theorem exists_encode_of_fixedSize {shape : Shape} {v : Value} {size : Nat}
    (hsize : shape.fixedSize? = some size) (hcheck : shape.check v = .ok ()) :
    ∃ bytes, encode shape v = .ok bytes ∧ bytes.length = size := by
  have hfixed : shape.isFixedSize = true := by
    rw [← Shape.isSome_fixedSize?, hsize]
    rfl
  obtain ⟨bytes, hencode⟩ := (encode_addressed hcheck).isOk_iff.2 fun offset hoffset =>
    absurd hoffset (Shape.not_hasOffset hfixed)
  exact ⟨bytes, hencode, (encode_eq_ok.1 hencode).length_eq size hsize⟩

/-- The flag says whether there is a size. If there is, every well-formed value has an encoding of
    that many bytes, and an input of any other length is refused for its length and nothing else. -/
theorem fixedSize_law (shape : Shape) :
    (shape.isFixedSize = true ↔ ∃ size, shape.fixedSize? = some size) ∧
      ∀ size, shape.fixedSize? = some size →
        (∀ v, shape.check v = .ok () → ∃ bytes, encode shape v = .ok bytes ∧ bytes.length = size) ∧
        ∀ bytes, bytes.length ≠ size →
          decode shape bytes = .error (.incorrectLength shape.name size bytes.length) := by
  refine ⟨?_, fun size hsize => ⟨fun v => exists_encode_of_fixedSize hsize, fun bytes => ?_⟩⟩
  · rw [← Shape.isSome_fixedSize?, Option.isSome_iff_exists]
  · exact Shape.decode_eq_error hsize

/-- A vector of bitvectors beside a record without fields. -/
theorem fixedSize_law_flags :
    let shape : Shape := .container "flags" [⟨"sets", "sets", .vector (.bitVector 10) 2⟩,
      ⟨"rest", "rest", .container "rest" []⟩]
    let v : Value := .container
      [.list [.bits (.ofList (List.replicate 10 true)), .bits (.ofList (List.replicate 10 false))],
        .container []]
    shape.fixedSize? = some 4 ∧ shape.check v = .ok () ∧
      (∃ bytes, encode shape v = .ok bytes ∧ bytes.length = 4) ∧
      decode shape [255, 3, 0] = .error (.incorrectLength "flags" 4 3) := by
  intro shape v
  have hsize : shape.fixedSize? = some 4 := rfl
  have hcheck : shape.check v = .ok () := rfl
  obtain ⟨hencode, hdecode⟩ := (fixedSize_law shape).2 4 hsize
  exact ⟨hsize, hcheck, hencode v hcheck, hdecode [255, 3, 0] (by decide)⟩

end Ssz

-- SUMMARY: Which trees are read as a value of each shape, and that the value is well-formed.
import Ssz.Proofs.Bits
import Ssz.Proofs.Shape
import Ssz.Proofs.Text.Reads
import Ssz.Proofs.WellFormed

/-!
# Accepted trees

For each shape, `ofTree_…` says exactly when a tree is read and as which value.
The later proofs about reading take a run apart, or put one together, with these
laws and do not look into `Shape.ofTree` again. The first use is that whatever is
read is well-formed: the reader makes each check of the validator in its own way,
and misses none.
-/

namespace Ssz

open Text

variable {d : Dialect} {label : String}

/-! ## Parts of a tree -/

theorem itemsOf_eq_ok {t : Tree} {items : List Tree} :
    itemsOf d label t = .ok items ↔ t = .array items := by
  cases t <;> simp [itemsOf]

theorem entriesOf_eq_ok {t : Tree} {entries : List (String × Tree)} :
    entriesOf d label t = .ok entries ↔ t = .object entries := by
  cases t <;> simp [entriesOf]

/-- An entry is present if it is neither null nor the empty string. -/
theorem present_eq_ok {entry : Option Tree} {t : Tree} :
    present label entry = .ok t ↔ entry = some t ∧ t ≠ .null ∧ t ≠ .string "" := by
  cases entry with
  | none => simp [present]
  | some u =>
    cases u with
    | string s =>
      simp only [present]
      split <;> rename_i hs
      · simp only [reduceCtorEq, false_iff, not_and, Option.some.injEq]
        rintro rfl _
        simp [hs]
      · constructor
        · rintro ⟨⟩
          simp [hs]
        · rintro ⟨⟨⟩, -, -⟩
          rfl
    | _ => simp [present]; rintro rfl; simp

theorem bitVectorOf_eq_ok {length : Nat} {bytes : Bytes} {bits : Bits} :
    bitVectorOf label length bytes = .ok bits ↔ bits.length = length ∧ bits.bytes = bytes := by
  rw [← Bits.ofPacked_eq_ok, bitVectorOf]
  split <;> simp_all

theorem bitListOf_eq_ok {max : Nat} {bytes : Bytes} {bits : Bits} :
    bitListOf label max bytes = .ok bits ↔ bits.toWire = bytes ∧ bits.length ≤ max := by
  rw [← Bits.ofWire_eq_ok, bitListOf]
  split <;> simp_all

namespace Shape

/-! ## Scalars and packed contents -/

theorem ofTree_bool {t : Tree} {v : Value} :
    ofTree d .bool label t = .ok v ↔ ∃ b, t = .bool b ∧ v = .bool b := by
  cases t <;> simp [ofTree, eq_comm]

theorem ofTree_uint {width : UintWidth} {t : Tree} {v : Value} :
    ofTree d (.uint width) label t = .ok v ↔
      ∃ n, uintOf d width label t = .ok n ∧ v = .uint width n := by
  simp only [ofTree, bind_eq_ok, pure_eq_ok, eq_comm (a := v)]

theorem ofTree_byteVector {length : Nat} {t : Tree} {v : Value} :
    ofTree d (.byteVector length) label t = .ok v ↔
      ∃ contents, bytesOf d label t = .ok contents ∧ contents.length = length ∧
        v = .bytes contents := by
  simp only [ofTree, bind_eq_ok, exists_unit, exactly_eq_ok, pure_eq_ok, eq_comm (a := v)]

theorem ofTree_byteList {max : Nat} {t : Tree} {v : Value} :
    ofTree d (.byteList max) label t = .ok v ↔
      ∃ contents, bytesOf d label t = .ok contents ∧ contents.length ≤ max ∧
        v = .bytes contents := by
  simp only [ofTree, bind_eq_ok, exists_unit, atMost_eq_ok, pure_eq_ok, eq_comm (a := v)]

theorem ofTree_bitVector {length : Nat} {t : Tree} {v : Value} :
    ofTree d (.bitVector length) label t = .ok v ↔
      ∃ bits, bytesOf d label t = .ok bits.bytes ∧ bits.length = length ∧ v = .bits bits := by
  simp only [ofTree, bind_eq_ok, exists_unit, exactly_eq_ok, pure_eq_ok, bitVectorOf_eq_ok]
  constructor
  · rintro ⟨bytes, hbytes, -, bits, ⟨hlength, rfl⟩, rfl⟩
    exact ⟨bits, hbytes, hlength, rfl⟩
  · rintro ⟨bits, hbytes, rfl, rfl⟩
    exact ⟨bits.bytes, hbytes, bits.length_bytes, bits, ⟨rfl, rfl⟩, rfl⟩

theorem ofTree_bitList {max : Nat} {t : Tree} {v : Value} :
    ofTree d (.bitList max) label t = .ok v ↔
      ∃ bits, bytesOf d label t = .ok bits.toWire ∧ bits.length ≤ max ∧ v = .bits bits := by
  simp only [ofTree, bind_eq_ok, pure_eq_ok, bitListOf_eq_ok]
  constructor
  · rintro ⟨bytes, hbytes, bits, ⟨rfl, hmax⟩, rfl⟩
    exact ⟨bits, hbytes, hmax, rfl⟩
  · rintro ⟨bits, hbytes, hmax, rfl⟩
    exact ⟨bits.toWire, hbytes, bits, ⟨rfl, hmax⟩, rfl⟩

/-! ## Sequences -/

theorem ofTree_vector {element : Shape} {length : Nat} {t : Tree} {v : Value} :
    ofTree d (.vector element length) label t = .ok v ↔
      ∃ items values, t = .array items ∧ items.length = length ∧
        List.Forall₂ (fun item v => element.ofTree d label item = .ok v) items values ∧
        v = .list values := by
  simp only [ofTree, bind_eq_ok, exists_unit, exactly_eq_ok, pure_eq_ok, mapM_eq_ok, itemsOf_eq_ok]
  constructor
  · rintro ⟨items, rfl, hlength, values, hitems, rfl⟩
    exact ⟨items, values, rfl, hlength, hitems, rfl⟩
  · rintro ⟨items, values, rfl, hlength, hitems, rfl⟩
    exact ⟨items, rfl, hlength, values, hitems, rfl⟩

theorem ofTree_list {element : Shape} {max : Nat} {t : Tree} {v : Value} :
    ofTree d (.list element max) label t = .ok v ↔
      ∃ items values, t = .array items ∧ items.length ≤ max ∧
        List.Forall₂ (fun item v => element.ofTree d label item = .ok v) items values ∧
        v = .list values := by
  simp only [ofTree, bind_eq_ok, exists_unit, atMost_eq_ok, pure_eq_ok, mapM_eq_ok, itemsOf_eq_ok]
  constructor
  · rintro ⟨items, rfl, hmax, values, hitems, rfl⟩
    exact ⟨items, values, rfl, hmax, hitems, rfl⟩
  · rintro ⟨items, values, rfl, hmax, hitems, rfl⟩
    exact ⟨items, rfl, hmax, values, hitems, rfl⟩

/-! ## Records -/

/-- Read the value of a field from the entry of its name. -/
def readField (d : Dialect) (entries : List (String × Tree)) (field : Field Shape) :
    Except TextError Value := do
  field.shape.ofTree d field.label (← present field.label (entries.lookup field.name))

theorem fieldsOfEntries_eq_mapM (fields : List (Field Shape)) (entries : List (String × Tree)) :
    fieldsOfEntries d fields entries = fields.mapM (readField d entries) := by
  induction fields with
  | nil => rfl
  | cons field fields ih =>
    simp only [fieldsOfEntries, readField, List.mapM_cons, bind_assoc, ih]

/-- The entry of a field is present and read as a value. -/
def ReadsField (d : Dialect) (entries : List (String × Tree)) (field : Field Shape) (v : Value) :
    Prop :=
  ∃ t, present field.label (entries.lookup field.name) = .ok t ∧
    field.shape.ofTree d field.label t = .ok v

theorem fieldsOfEntries_iff {fields : List (Field Shape)} {entries : List (String × Tree)}
    {values : List Value} :
    fieldsOfEntries d fields entries = .ok values ↔
      List.Forall₂ (ReadsField d entries) fields values := by
  simp only [fieldsOfEntries_eq_mapM, mapM_eq_ok, readField, bind_eq_ok]
  rfl

theorem ofTree_container {name : String} {fields : List (Field Shape)} {t : Tree} {v : Value} :
    ofTree d (.container name fields) label t = .ok v ↔
      ∃ entries values, t = .object entries ∧
        List.Forall₂ (ReadsField d entries) fields values ∧ v = .container values := by
  simp only [ofTree, bind_eq_ok, pure_eq_ok, entriesOf_eq_ok, fieldsOfEntries_iff]
  constructor
  · rintro ⟨entries, rfl, values, hvalues, rfl⟩
    exact ⟨entries, values, rfl, hvalues, rfl⟩
  · rintro ⟨entries, values, rfl, hvalues, rfl⟩
    exact ⟨entries, rfl, values, hvalues, rfl⟩

/-! ## Unions -/

/-- The selector of a union is present and read as a number. -/
def ReadsSelector (d : Dialect) (entries : List (String × Tree)) (selector : UInt8) : Prop :=
  ∃ t, present selectorKey (entries.lookup selectorKey) = .ok t ∧
    uintOf d .u8 selectorKey t = .ok selector.toBitVec

/-- Read the payload of a union as the alternative that was chosen, if there is one. -/
def readChoice (d : Dialect) (selector : UInt8) (label : String) (entry : Option Tree) :
    Option (Option Shape) → Except TextError (Option Value)
  | some (some shape) => do
    let t ← present label entry
    return some (← shape.ofTree d label t)
  | some none =>
    if selector ≠ 0 then .error (.invalidField label (.bits (.invalidSelector selector)))
    else
      match entry with
      | none | some .null => .ok none
      | some t => .error (wrongKind d "null" label t)
  | none => .error (.invalidField label (.bits (.invalidSelector selector)))

theorem chosenOfEntry_eq (selector : UInt8) (alternatives : List (Option Shape)) (index : Nat)
    (label : String) (entry : Option Tree) :
    chosenOfEntry d selector alternatives index label entry
      = readChoice d selector label entry alternatives[index]? := by
  induction alternatives generalizing index with
  | nil => rfl
  | cons choice alternatives ih =>
    cases index with
    | succ index => cases choice <;> exact ih index
    | zero => cases choice <;> rfl

theorem chosenOfEntry_iff {selector : UInt8} {alternatives : List (Option Shape)} {index : Nat}
    {entry : Option Tree} {inner : Option Value} :
    chosenOfEntry d selector alternatives index label entry = .ok inner ↔
      (alternatives[index]? = some none ∧ selector = 0 ∧ (entry = none ∨ entry = some .null) ∧
          inner = none) ∨
        ∃ shape t v, alternatives[index]? = some (some shape) ∧ present label entry = .ok t ∧
          shape.ofTree d label t = .ok v ∧ inner = some v := by
  rw [chosenOfEntry_eq]
  match alternatives[index]? with
  | none => simp [readChoice]
  | some (some shape) =>
    simp only [readChoice, bind_eq_ok, pure_eq_ok, Option.some.injEq, reduceCtorEq, false_and,
      false_or]
    constructor
    · rintro ⟨t, ht, v, hv, rfl⟩
      exact ⟨shape, t, v, rfl, ht, hv, rfl⟩
    · rintro ⟨_, t, v, rfl, ht, hv, rfl⟩
      exact ⟨t, ht, v, hv, rfl⟩
  | some none =>
    simp only [readChoice, Option.some.injEq, reduceCtorEq, false_and, exists_false, or_false,
      true_and]
    by_cases hzero : selector = 0
    · rw [if_neg (not_not_intro hzero)]
      split <;> simp_all [eq_comm]
    · rw [if_pos hzero]
      simp [hzero]

theorem ofTree_union {alternatives : List (Option Shape)} {t : Tree} {v : Value} :
    ofTree d (.union alternatives) label t = .ok v ↔
      ∃ entries, t = .object entries ∧
        ((ReadsSelector d entries 0 ∧ alternatives[0]? = some none ∧
            (entries.lookup valueKey = none ∨ entries.lookup valueKey = some .null) ∧
            v = .union 0 none) ∨
          ∃ selector shape payload inner, ReadsSelector d entries selector ∧
            alternatives[selector.toNat]? = some (some shape) ∧
            present label (entries.lookup valueKey) = .ok payload ∧
            shape.ofTree d label payload = .ok inner ∧ v = .union selector (some inner)) := by
  simp only [ofTree, bind_eq_ok, pure_eq_ok, entriesOf_eq_ok, chosenOfEntry_iff]
  constructor
  · rintro ⟨entries, rfl, s, hs, selector, hselector, inner, hinner, rfl⟩
    refine ⟨entries, rfl, ?_⟩
    obtain ⟨hnone, hzero, hentry, rfl⟩ | ⟨shape, t, v, hshape, ht, hv, rfl⟩ := hinner
    · cases hzero
      exact .inl ⟨⟨s, hs, hselector⟩, hnone, hentry, rfl⟩
    · exact .inr ⟨⟨selector⟩, shape, t, v, ⟨s, hs, hselector⟩, hshape, ht, hv, rfl⟩
  · rintro ⟨entries, rfl, hcases⟩
    obtain ⟨⟨s, hs, hselector⟩, hnone, hentry, rfl⟩ |
      ⟨selector, shape, t, v, ⟨s, hs, hselector⟩, hshape, ht, hv, rfl⟩ := hcases
    · exact ⟨entries, rfl, s, hs, _, hselector, none, .inl ⟨hnone, rfl, hentry, rfl⟩, rfl⟩
    · exact ⟨entries, rfl, s, hs, _, hselector, some v, .inr ⟨shape, t, v, hshape, ht, hv, rfl⟩,
        rfl⟩

/-! ## Accepted trees give well-formed values -/

theorem check_of_ofTree {shape : Shape} {t : Tree} {v : Value}
    (h : shape.ofTree d label t = .ok v) : shape.check v = .ok () := by
  induction shape generalizing t v label with
  | bool =>
    obtain ⟨b, -, rfl⟩ := ofTree_bool.1 h
    exact check_bool.2 ⟨b, rfl⟩
  | uint width =>
    obtain ⟨n, -, rfl⟩ := ofTree_uint.1 h
    exact check_uint.2 ⟨n, rfl⟩
  | byteVector length =>
    obtain ⟨contents, -, hlength, rfl⟩ := ofTree_byteVector.1 h
    exact check_byteVector.2 ⟨contents, rfl, hlength⟩
  | byteList max =>
    obtain ⟨contents, -, hmax, rfl⟩ := ofTree_byteList.1 h
    exact check_byteList.2 ⟨contents, rfl, hmax⟩
  | bitVector length =>
    obtain ⟨bits, -, hlength, rfl⟩ := ofTree_bitVector.1 h
    exact check_bitVector.2 ⟨bits, rfl, hlength⟩
  | bitList max =>
    obtain ⟨bits, -, hmax, rfl⟩ := ofTree_bitList.1 h
    exact check_bitList.2 ⟨bits, rfl, hmax⟩
  | vector element length ih =>
    obtain ⟨items, values, -, hlength, hitems, rfl⟩ := ofTree_vector.1 h
    have hchecked := hitems.flip.imp fun v item hv => And.intro (ih hv) hv
    have hvalues := ((List.forall₂_and_left values items).1 hchecked).1
    exact check_vector.2 ⟨values, rfl, hitems.length_eq ▸ hlength, hvalues⟩
  | list element max ih =>
    obtain ⟨items, values, -, hmax, hitems, rfl⟩ := ofTree_list.1 h
    have hchecked := hitems.flip.imp fun v item hv => And.intro (ih hv) hv
    have hvalues := ((List.forall₂_and_left values items).1 hchecked).1
    exact check_list.2 ⟨values, rfl, hitems.length_eq ▸ hmax, hvalues⟩
  | container name fields ih =>
    obtain ⟨entries, values, -, hfields, rfl⟩ := ofTree_container.1 h
    refine check_container.2 ⟨values, rfl, forall₂_imp_of_mem hfields ?_⟩
    rintro field hfield v ⟨t, -, hv⟩
    exact ih field hfield hv
  | union alternatives ih =>
    obtain ⟨entries, -, hcases⟩ := ofTree_union.1 h
    obtain ⟨-, hnone, -, rfl⟩ | ⟨selector, shape, payload, inner, -, hshape, -, hinner, rfl⟩ :=
      hcases
    · exact check_union.2 (.inl ⟨rfl, hnone⟩)
    · have hcheck := ih shape (List.mem_of_getElem? hshape) hinner
      exact check_union.2 (.inr ⟨selector, shape, inner, rfl, hshape, hcheck⟩)

end Shape

end Ssz

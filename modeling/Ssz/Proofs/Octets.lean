-- SUMMARY: A byte string and the sequence of its numbers are as good as each other, in any schema.
import Mathlib.Logic.Relation
import Ssz.Proofs.Merkle.Room
import Ssz.Proofs.Wire.RoundTrip

/-!
# Octets

A byte vector says what a vector of 8-bit numbers says, and a byte list what a
list of them says. Each has its own code in every reader and writer, and here the
two are shown to come to the same: the same values are well-formed, they have the
same encodings and the same roots, and the same inputs are read.

The law is about a whole schema, in which any number of such shapes are replaced.
It goes by way of the schema in which all of them are spelled out as sequences of
numbers; two schemas that differ only in this have the same spelling.
-/

namespace Ssz

/-! ## Byte strings as lists of numbers -/

/-- The number that a byte is. -/
def octet (b : UInt8) : Value := .uint .u8 b.toBitVec

/-- The numbers that the bytes of a string are. -/
def octets (contents : Bytes) : List Value := contents.map octet

/-- The byte string of these numbers, if they all have 8 bits. -/
def ofOctets? : List Value → Option Bytes
  | [] => some []
  | .uint .u8 n :: items => (ofOctets? items).map (UInt8.ofBitVec n :: ·)
  | _ :: _ => none

/-- The list of its numbers for a byte string, and the byte string for such a list. All else is left
    as it is. -/
def exchange : Value → Value
  | .bytes contents => .list (octets contents)
  | .list items =>
    match ofOctets? items with
    | some contents => .bytes contents
    | none => .list items
  | v => v

theorem length_octets (contents : Bytes) : (octets contents).length = contents.length :=
  List.length_map _

theorem ofOctets?_octets (contents : Bytes) : ofOctets? (octets contents) = some contents := by
  induction contents with
  | nil => rfl
  | cons b contents ih =>
    change (ofOctets? (octets contents)).map (b :: ·) = _
    rw [ih, Option.map_some]

theorem eq_octets_of_ofOctets? {items : List Value} {contents : Bytes}
    (h : ofOctets? items = some contents) : items = octets contents := by
  fun_induction ofOctets? items generalizing contents with
  | case1 =>
    cases h
    rfl
  | case2 n items ih =>
    obtain ⟨rest, hrest, rfl⟩ := Option.map_eq_some_iff.1 h
    rw [ih hrest]
    rfl
  | case3 => cases h

theorem exchange_exchange (v : Value) : exchange (exchange v) = v := by
  cases v with
  | bytes contents => simp only [exchange, ofOctets?_octets]
  | list items =>
    rw [exchange]
    split
    · rename_i contents hcontents
      rw [exchange, eq_octets_of_ofOctets? hcontents]
    · rename_i hnone
      simp only [exchange, hnone]
  | _ => rfl

theorem exchange_eq_octets {v : Value} {contents : Bytes} :
    exchange v = .list (octets contents) ↔ v = .bytes contents := by
  constructor
  · intro h
    rw [← exchange_exchange v, h, exchange, ofOctets?_octets]
  · rintro rfl
    rfl

theorem forall_check_iff_octets {items : List Value} :
    (∀ item ∈ items, (Shape.uint .u8).check item = .ok ()) ↔
      ∃ contents, items = octets contents := by
  constructor
  · intro h
    induction items with
    | nil => exact ⟨[], rfl⟩
    | cons item items ih =>
      obtain ⟨hitem, hitems⟩ := List.forall_mem_cons.1 h
      obtain ⟨n, rfl⟩ := Shape.check_uint.1 hitem
      obtain ⟨contents, rfl⟩ := ih hitems
      exact ⟨UInt8.ofBitVec n :: contents, rfl⟩
  · rintro ⟨contents, rfl⟩ item hitem
    obtain ⟨b, -, rfl⟩ := List.mem_map.1 hitem
    exact Shape.check_uint.2 ⟨_, rfl⟩

/-- The one byte of such a number is the byte that it comes from. -/
theorem scalarBytes_octet (b : UInt8) : scalarBytes (octet b) = .ok [b] := by
  have hbyte : UInt8.ofNat (b.toBitVec.toNat % 256) = b := by
    rw [Nat.mod_eq_of_lt b.toBitVec.isLt]
    exact UInt8.ofNat_toNat
  exact congrArg (fun byte => Except.ok [byte]) hbyte

/-- A writer of single numbers puts the bytes of the string one after the other. -/
theorem exists_mapM_octets {f : Value → Except EncodeError Bytes} (hf : ∀ b, f (octet b) = .ok [b])
    (contents : Bytes) :
    ∃ bodies, (octets contents).mapM f = .ok bodies ∧ bodies.flatten = contents := by
  refine ⟨contents.map fun b => [b], ?_, ?_⟩
  · rw [octets, List.mapM_map]
    exact mapM_eq_ok_map fun b _ => hf b
  · exact List.flatMap_singleton' contents

namespace Shape

/-! ## Spelling out -/

mutual

/-- The shape with its byte vectors and byte lists spelled out as sequences of 8-bit numbers. -/
def spelled : Shape → Shape
  | .byteVector length => .vector (.uint .u8) length
  | .byteList max => .list (.uint .u8) max
  | .vector element length => .vector element.spelled length
  | .list element max => .list element.spelled max
  | .container name fields => .container name (spelledFields fields)
  | .union alternatives => .union (spelledAlternatives alternatives)
  | shape => shape
termination_by structural shape => shape

def spelledFields : List (Field Shape) → List (Field Shape)
  | [] => []
  | ⟨name, label, shape⟩ :: fields => ⟨name, label, shape.spelled⟩ :: spelledFields fields
termination_by structural fields => fields

def spelledAlternatives : List (Option Shape) → List (Option Shape)
  | [] => []
  | some shape :: alternatives => some shape.spelled :: spelledAlternatives alternatives
  | none :: alternatives => none :: spelledAlternatives alternatives
termination_by structural alternatives => alternatives

end

mutual

/-- The value with what stands for its byte vectors and byte lists exchanged. -/
def spell : Shape → Value → Value
  | .byteVector _, v | .byteList _, v => exchange v
  | .vector element _, .list items | .list element _, .list items =>
    .list (items.map fun item => element.spell item)
  | .container _ fields, .container values => .container (spellFields fields values)
  | .union alternatives, .union selector (some inner) =>
    .union selector (some (spellChosen alternatives selector.toNat inner))
  | _, v => v
termination_by structural shape => shape

def spellFields : List (Field Shape) → List Value → List Value
  | ⟨_, _, shape⟩ :: fields, v :: values => shape.spell v :: spellFields fields values
  | _, values => values
termination_by structural fields => fields

def spellChosen : (alternatives : List (Option Shape)) → (index : Nat) → Value → Value
  | some shape :: _, 0, inner => shape.spell inner
  | _ :: alternatives, index + 1, inner => spellChosen alternatives index inner
  | _, _, inner => inner
termination_by structural alternatives => alternatives

end

theorem spelledFields_eq_map (fields : List (Field Shape)) :
    spelledFields fields = fields.map fun field => { field with shape := field.shape.spelled } := by
  induction fields with
  | nil => rfl
  | cons field fields ih => rw [spelledFields, ih, List.map_cons]

theorem spelledAlternatives_eq_map (alternatives : List (Option Shape)) :
    spelledAlternatives alternatives = alternatives.map (Option.map spelled) := by
  induction alternatives with
  | nil => rfl
  | cons choice alternatives ih => cases choice <;> rw [spelledAlternatives, ih] <;> rfl

theorem spellChosen_eq {alternatives : List (Option Shape)} {index : Nat} {shape : Shape}
    (hshape : alternatives[index]? = some (some shape)) (inner : Value) :
    spellChosen alternatives index inner = shape.spell inner := by
  refine chosen_induction hshape ?_ ?_
  · intro rest
    rfl
  · intro choice rest index ih
    cases choice <;> exact ih

theorem getElem?_spelledAlternatives {alternatives : List (Option Shape)} {index : Nat}
    {other : Shape} :
    (spelledAlternatives alternatives)[index]? = some (some other) ↔
      ∃ shape, alternatives[index]? = some (some shape) ∧ shape.spelled = other := by
  simp [spelledAlternatives_eq_map, Option.map_eq_some_iff]

theorem spellFields_spellFields {fields : List (Field Shape)}
    (h : ∀ field ∈ fields, ∀ v, field.shape.spell (field.shape.spell v) = v) (values : List Value) :
    spellFields fields (spellFields fields values) = values := by
  induction fields generalizing values with
  | nil => rfl
  | cons field fields ih =>
    obtain ⟨hfield, hfields⟩ := List.forall_mem_cons.1 h
    cases values with
    | nil => rfl
    | cons v values => rw [spellFields, spellFields, hfield, ih hfields]

theorem spellChosen_spellChosen {alternatives : List (Option Shape)}
    (h : ∀ shape, some shape ∈ alternatives → ∀ v, shape.spell (shape.spell v) = v) (index : Nat)
    (inner : Value) :
    spellChosen alternatives index (spellChosen alternatives index inner) = inner := by
  induction alternatives generalizing index with
  | nil => rfl
  | cons choice alternatives ih =>
    have hrest := ih fun shape hshape => h shape (List.mem_cons_of_mem _ hshape)
    cases index with
    | succ index => cases choice <;> exact hrest index
    | zero =>
      cases choice with
      | none => rfl
      | some shape => exact h shape List.mem_cons_self inner

/-- Spelling a value twice gives it back. -/
theorem spell_spell (shape : Shape) (v : Value) : shape.spell (shape.spell v) = v := by
  induction shape generalizing v with
  | byteVector | byteList => exact exchange_exchange v
  | vector element length ih | list element length ih =>
    cases v with
    | list items =>
      have hitems : (items.map fun item => element.spell item).map (fun item => element.spell item)
          = items := by
        rw [List.map_map]
        exact map_eq_self_iff.2 fun item _ => ih item
      exact congrArg Value.list hitems
    | _ => rfl
  | container name fields ih =>
    cases v with
    | container values => exact congrArg Value.container (spellFields_spellFields ih values)
    | _ => rfl
  | union alternatives ih =>
    cases v with
    | union selector inner =>
      cases inner with
      | none => rfl
      | some inner =>
        exact congrArg (fun v => Value.union selector (some v)) (spellChosen_spellChosen ih _ inner)
    | _ => rfl
  | _ => cases v <;> rfl

/-! ## Well-formed values -/

/-- Bytes of a length are numbers of that length. -/
theorem check_exchange {v : Value} {p : Nat → Prop} :
    (∃ items, exchange v = .list items ∧ p items.length ∧
        ∀ item ∈ items, (Shape.uint .u8).check item = .ok ()) ↔
      ∃ contents, v = .bytes contents ∧ p contents.length := by
  constructor
  · rintro ⟨items, hexchange, hlength, hitems⟩
    obtain ⟨contents, rfl⟩ := forall_check_iff_octets.1 hitems
    rw [length_octets] at hlength
    exact ⟨contents, exchange_eq_octets.1 hexchange, hlength⟩
  · rintro ⟨contents, rfl, hlength⟩
    refine ⟨octets contents, rfl, ?_, forall_check_iff_octets.2 ⟨contents, rfl⟩⟩
    rwa [length_octets]

theorem checkFields_spell {fields : List (Field Shape)}
    (h : ∀ field ∈ fields, ∀ v,
      field.shape.spelled.check (field.shape.spell v) = .ok () ↔ field.shape.check v = .ok ())
    (values : List Value) :
    List.Forall₂ (fun field v => field.shape.check v = .ok ()) (spelledFields fields)
        (spellFields fields values) ↔
      List.Forall₂ (fun field v => field.shape.check v = .ok ()) fields values := by
  induction fields generalizing values with
  | nil => rfl
  | cons field fields ih =>
    obtain ⟨hfield, hfields⟩ := List.forall_mem_cons.1 h
    cases values with
    | nil => exact iff_of_false nofun nofun
    | cons v values =>
      rw [spelledFields, spellFields, List.forall₂_cons, List.forall₂_cons, hfield, ih hfields]

theorem check_union_some {alternatives : List (Option Shape)} {selector : UInt8} {inner : Value} :
    (union alternatives).check (.union selector (some inner)) = .ok () ↔
      ∃ shape, alternatives[selector.toNat]? = some (some shape) ∧ shape.check inner = .ok () := by
  simp [check_union]

/-- A spelled value is well-formed for the spelled shape exactly if the value is for the shape. -/
theorem check_spell (shape : Shape) (v : Value) :
    shape.spelled.check (shape.spell v) = .ok () ↔ shape.check v = .ok () := by
  induction shape generalizing v with
  | byteVector length =>
    exact check_vector.trans ((check_exchange (p := (· = length))).trans check_byteVector.symm)
  | byteList max =>
    exact check_list.trans ((check_exchange (p := (· ≤ max))).trans check_byteList.symm)
  | vector element length ih =>
    cases v with
    | list items => simp [spelled, spell, check_vector, ih]
    | _ => simp [spelled, spell, check_vector]
  | list element max ih =>
    cases v with
    | list items => simp [spelled, spell, check_list, ih]
    | _ => simp [spelled, spell, check_list]
  | container name fields ih =>
    cases v with
    | container values => simp [spelled, spell, check_container, checkFields_spell ih]
    | _ => simp [spelled, spell, check_container]
  | union alternatives ih =>
    cases v with
    | union selector inner =>
      cases inner with
      | none => simp [spelled, spell, check_union, spelledAlternatives_eq_map]
      | some inner =>
        simp only [spelled, spell, check_union_some, getElem?_spelledAlternatives]
        constructor
        · rintro ⟨_, ⟨shape, hshape, rfl⟩, hinner⟩
          rw [spellChosen_eq hshape, ih shape (List.mem_of_getElem? hshape)] at hinner
          exact ⟨shape, hshape, hinner⟩
        · rintro ⟨shape, hshape, hinner⟩
          refine ⟨_, ⟨shape, hshape, rfl⟩, ?_⟩
          rwa [spellChosen_eq hshape, ih shape (List.mem_of_getElem? hshape)]
    | _ => simp [spelled, spell, check_union]
  | _ => cases v <;> rfl

/-! ## Sizes -/

theorem fixedSize?_spelled (shape : Shape) : shape.spelled.fixedSize? = shape.fixedSize? := by
  induction shape with
  | byteVector length => exact congrArg some (Nat.one_mul length)
  | vector element length ih => rw [spelled, fixedSize?, fixedSize?, ih]
  | container name fields ih =>
    change fieldsFixedSize? (spelledFields fields) = fieldsFixedSize? fields
    induction fields with
    | nil => rfl
    | cons field fields ihFields =>
      obtain ⟨hfield, hfields⟩ := List.forall_mem_cons.1 ih
      rw [spelledFields, fieldsFixedSize?, fieldsFixedSize?, hfield, ihFields hfields]
  | _ => rfl

theorem isFixedSize_spelled (shape : Shape) : shape.spelled.isFixedSize = shape.isFixedSize := by
  rw [← isSome_fixedSize?, ← isSome_fixedSize?, fixedSize?_spelled]

theorem isBasic_spelled (shape : Shape) : shape.spelled.isBasic = shape.isBasic := by
  cases shape <;> rfl

theorem spell_of_isBasic {shape : Shape} (h : shape.isBasic = true) (v : Value) :
    shape.spell v = v := by
  cases shape with
  | bool | uint => cases v <;> rfl
  | _ => cases h

/-! ## Encodings -/

theorem write_octets (length : Nat) (contents : Bytes) :
    (vector (.uint .u8) length).write (.list (octets contents)) = .ok contents := by
  obtain ⟨bodies, hbodies, hflatten⟩ :=
    exists_mapM_octets (f := fun item => (uint .u8).write item) scalarBytes_octet contents
  exact bind_eq_ok.2 ⟨bodies, hbodies, congrArg Except.ok hflatten⟩

theorem writeFields_spell {fields : List (Field Shape)} {values : List Value}
    (h : List.Forall₂ (fun field v => field.shape.spelled.write (field.shape.spell v)
      = field.shape.write v) fields values) :
    writeFields (spelledFields fields) (spellFields fields values) = writeFields fields values := by
  induction h with
  | nil => rfl
  | cons hv _ ih =>
    rw [spelledFields, spellFields, writeFields, writeFields, hv, ih, isFixedSize_spelled]

theorem mapM_spell {α : Type} {element : Shape} {items : List Value}
    {f g : Value → Except EncodeError α} (h : ∀ item ∈ items, f (element.spell item) = g item) :
    (items.map fun item => element.spell item).mapM f = items.mapM g := by
  rw [List.mapM_map]
  exact mapM_congr h

/-- A well-formed value is written as its spelling is. -/
theorem write_spell {shape : Shape} {v : Value} (hcheck : shape.check v = .ok ()) :
    shape.spelled.write (shape.spell v) = shape.write v := by
  induction shape generalizing v with
  | byteVector length =>
    obtain ⟨contents, rfl, -⟩ := check_byteVector.1 hcheck
    exact write_octets length contents
  | byteList max =>
    obtain ⟨contents, rfl, -⟩ := check_byteList.1 hcheck
    exact write_octets max contents
  | vector element length ih =>
    obtain ⟨items, rfl, -, hitems⟩ := check_vector.1 hcheck
    have hmapM := mapM_spell (g := element.write) fun item hitem => ih (hitems item hitem)
    simp only [spelled, spell, write]
    rw [hmapM, isFixedSize_spelled]
  | list element max ih =>
    obtain ⟨items, rfl, -, hitems⟩ := check_list.1 hcheck
    have hmapM := mapM_spell (g := element.write) fun item hitem => ih (hitems item hitem)
    simp only [spelled, spell, write]
    rw [hmapM, isFixedSize_spelled]
  | container name fields ih =>
    obtain ⟨values, rfl, hvalues⟩ := check_container.1 hcheck
    have hfields := writeFields_spell
      (forall₂_imp_of_mem hvalues fun field hfield v hv => ih field hfield hv)
    simp only [spelled, spell, write]
    rw [hfields]
  | union alternatives ih =>
    obtain ⟨rfl, -⟩ | ⟨selector, shape, inner, rfl, hshape, hinner⟩ := check_union.1 hcheck
    · simp only [spelled, spell, write, writeChosen_none]
    · have hspelled := getElem?_spelledAlternatives.2 ⟨shape, hshape, rfl⟩
      simp only [spelled, spell, write]
      rw [writeChosen_some hspelled, writeChosen_some hshape, spellChosen_eq hshape,
        ih shape (List.mem_of_getElem? hshape) hinner]
  | _ => cases v <;> rfl

/-! ## Roots -/

/-- The numbers of a string are packed into the chunks that its bytes are packed into. -/
theorem root_octets (capacity : Nat) (contents : Bytes) :
    root (.vector (.uint .u8) capacity) (.list (octets contents))
      = merkleize (packChunks contents) (chunkCount capacity 1) := by
  obtain ⟨bodies, hbodies, hflatten⟩ := exists_mapM_octets scalarBytes_octet contents
  change packedRoot (octets contents) 1 capacity = _
  rw [packedRoot, hbodies, ← hflatten]
  rfl

theorem fieldRoots_spell {fields : List (Field Shape)} {values : List Value}
    (h : List.Forall₂ (fun field v => field.shape.spelled.root (field.shape.spell v)
      = field.shape.root v) fields values) :
    fieldRoots (spelledFields fields) (spellFields fields values) = fieldRoots fields values := by
  induction h with
  | nil => rfl
  | cons hv _ ih => rw [spelledFields, spellFields, fieldRoots, fieldRoots, hv, ih]

/-- A sequence of items has the root of its spelling, whatever its capacity. -/
theorem root_vector_spell {element : Shape} {items : List Value} (capacity : Nat)
    (h : ∀ item ∈ items, element.spelled.root (element.spell item) = element.root item) :
    root (.vector element.spelled capacity) (.list (items.map fun item => element.spell item))
      = root (.vector element capacity) (.list items) := by
  rw [root, root, isBasic_spelled, fixedSize?_spelled]
  by_cases hbasic : element.isBasic = true
  · have hitems : (items.map fun item => element.spell item) = items :=
      map_eq_self_iff.2 fun item _ => spell_of_isBasic hbasic item
    rw [if_pos hbasic, if_pos hbasic, hitems]
  · rw [if_neg hbasic, if_neg hbasic, mapM_spell (g := element.root) h]

/-- A well-formed value has the root of its spelling. -/
theorem root_spell {shape : Shape} {v : Value} (hcheck : shape.check v = .ok ()) :
    shape.spelled.root (shape.spell v) = shape.root v := by
  induction shape generalizing v with
  | byteVector length =>
    obtain ⟨contents, rfl, -⟩ := check_byteVector.1 hcheck
    exact root_octets length contents
  | byteList max =>
    obtain ⟨contents, rfl, -⟩ := check_byteList.1 hcheck
    change root (.list (.uint .u8) max) (.list (octets contents)) = _
    rw [root_list_eq_map, root_octets, length_octets]
    rfl
  | vector element length ih =>
    obtain ⟨items, rfl, -, hitems⟩ := check_vector.1 hcheck
    exact root_vector_spell length fun item hitem => ih (hitems item hitem)
  | list element max ih =>
    obtain ⟨items, rfl, -, hitems⟩ := check_list.1 hcheck
    have hcontent := root_vector_spell max fun item hitem => ih (hitems item hitem)
    rw [spelled, spell, root_list_eq_map, root_list_eq_map, hcontent, List.length_map]
  | container name fields ih =>
    obtain ⟨values, rfl, hvalues⟩ := check_container.1 hcheck
    have hfields := fieldRoots_spell
      (forall₂_imp_of_mem hvalues fun field hfield v hv => ih field hfield hv)
    simp only [spelled, spell, root]
    rw [hfields]
  | union alternatives ih =>
    obtain ⟨rfl, -⟩ | ⟨selector, shape, inner, rfl, hshape, hinner⟩ := check_union.1 hcheck
    · simp only [spelled, spell, root, chosenRoot_empty]
    · have hspelled := getElem?_spelledAlternatives.2 ⟨shape, hshape, rfl⟩
      simp only [spelled, spell, root]
      rw [chosenRoot_eq_root hspelled, chosenRoot_eq_root hshape, spellChosen_eq hshape,
        ih shape (List.mem_of_getElem? hshape) hinner]
  | _ => cases v <;> rfl

theorem hashTreeRoot_spell {shape : Shape} {v : Value} {root : Chunk} :
    hashTreeRoot shape.spelled (shape.spell v) = .ok root ↔ hashTreeRoot shape v = .ok root := by
  simp only [hashTreeRoot, bind_eq_ok, exists_unit, check_spell]
  exact and_congr_right fun hcheck => by rw [root_spell hcheck]

/-! ## Reading -/

theorem encodes_spell {shape : Shape} {v : Value} {bytes : Bytes} :
    shape.spelled.Encodes (shape.spell v) bytes ↔ shape.Encodes v bytes := by
  constructor
  · rintro ⟨hcheck, hwrite⟩
    rw [check_spell] at hcheck
    exact ⟨hcheck, write_spell hcheck ▸ hwrite⟩
  · rintro ⟨hcheck, hwrite⟩
    exact ⟨(check_spell shape v).2 hcheck, (write_spell hcheck).trans hwrite⟩

theorem not_holdsSizeless_vector_octets (length : Nat) (v : Value) :
    ¬ HoldsSizeless (.vector (.uint .u8) length) v := by
  intro h
  cases h with
  | vector _ hitem => cases hitem

theorem not_holdsSizeless_list_octets (max : Nat) (v : Value) :
    ¬ HoldsSizeless (.list (.uint .u8) max) v := by
  intro h
  cases h with
  | here hsize => cases hsize
  | list _ hitem => cases hitem

theorem collapseFields_spell {fields : List (Field Shape)}
    (h : ∀ field ∈ fields, ∀ v, field.shape.spelled.collapse (field.shape.spell v)
      = field.shape.spell (field.shape.collapse v)) (values : List Value) :
    collapseFields (spelledFields fields) (spellFields fields values)
      = spellFields fields (collapseFields fields values) := by
  induction fields generalizing values with
  | nil => rfl
  | cons field fields ih =>
    obtain ⟨hfield, hfields⟩ := List.forall_mem_cons.1 h
    cases values with
    | nil => rfl
    | cons v values =>
      rw [spelledFields, spellFields, collapseFields, collapseFields, spellFields, hfield,
        ih hfields]

theorem collapseChosen_spell {alternatives : List (Option Shape)}
    (h : ∀ shape, some shape ∈ alternatives → ∀ v, shape.spelled.collapse (shape.spell v)
      = shape.spell (shape.collapse v)) (index : Nat) (inner : Value) :
    collapseChosen (spelledAlternatives alternatives) index (spellChosen alternatives index inner)
      = spellChosen alternatives index (collapseChosen alternatives index inner) := by
  induction alternatives generalizing index with
  | nil => rfl
  | cons choice alternatives ih =>
    have hrest := ih fun shape hshape => h shape (List.mem_cons_of_mem _ hshape)
    cases index with
    | succ index => cases choice <;> exact hrest index
    | zero =>
      cases choice with
      | none => rfl
      | some shape => exact h shape List.mem_cons_self inner

/-- The wire loses of a spelled value what it loses of the value. -/
theorem collapse_spell (shape : Shape) (v : Value) :
    shape.spelled.collapse (shape.spell v) = shape.spell (shape.collapse v) := by
  induction shape generalizing v with
  | byteVector length =>
    have hv : (byteVector length).collapse v = v := collapse_eq_self_iff.2 fun h => by cases h
    rw [hv]
    exact collapse_eq_self_iff.2 (not_holdsSizeless_vector_octets length _)
  | byteList max =>
    have hv : (byteList max).collapse v = v := collapse_eq_self_iff.2 fun h => by cases h
    rw [hv]
    exact collapse_eq_self_iff.2 (not_holdsSizeless_list_octets max _)
  | vector element length ih =>
    cases v with
    | list items => simp [spelled, spell, collapse, ih]
    | _ => rfl
  | list element max ih =>
    cases v with
    | list items =>
      simp only [spelled, spell, collapse, fixedSize?_spelled]
      split
      · rfl
      · simp [spell, ih]
    | _ => rfl
  | container name fields ih =>
    cases v with
    | container values => exact congrArg Value.container (collapseFields_spell ih values)
    | _ => rfl
  | union alternatives ih =>
    cases v with
    | union selector inner =>
      cases inner with
      | none => rfl
      | some inner =>
        exact congrArg (fun v => Value.union selector (some v)) (collapseChosen_spell ih _ inner)
    | _ => rfl
  | _ => cases v <;> rfl

/-- What is read from an input are the values that it encodes and of which nothing is lost. -/
theorem decode_eq_ok_iff_encodes {shape : Shape} {v : Value} {bytes : Bytes} :
    shape.decode bytes = .ok v ↔ shape.Encodes v bytes ∧ shape.collapse v = v := by
  constructor
  · intro h
    have hencodes := encodes_of_decode h
    exact ⟨hencodes, Except.ok.inj ((decode_of_encodes hencodes).symm.trans h)⟩
  · rintro ⟨hencodes, hcollapse⟩
    rw [decode_of_encodes hencodes, hcollapse]

theorem decode_spell {shape : Shape} {v : Value} {bytes : Bytes} :
    shape.spelled.decode bytes = .ok (shape.spell v) ↔ shape.decode bytes = .ok v := by
  have hinjective : Function.Injective shape.spell :=
    Function.LeftInverse.injective (spell_spell shape)
  rw [decode_eq_ok_iff_encodes, decode_eq_ok_iff_encodes, encodes_spell, collapse_spell,
    hinjective.eq_iff]

/-! ## Schemas that differ in spelling -/

/-- The second shape is the first with a byte vector or byte list, somewhere in it, replaced by the
    vector or list of 8-bit numbers. -/
inductive Respells : Shape → Shape → Prop
  | byteVector {length} : Respells (.byteVector length) (.vector (.uint .u8) length)
  | byteList {max} : Respells (.byteList max) (.list (.uint .u8) max)
  | vector {element other length} : Respells element other →
      Respells (.vector element length) (.vector other length)
  | list {element other max} : Respells element other →
      Respells (.list element max) (.list other max)
  | container {name before field other after} : Respells field.shape other →
      Respells (.container name (before ++ field :: after))
        (.container name (before ++ { field with shape := other } :: after))
  | union {before shape other after} : Respells shape other →
      Respells (.union (before ++ some shape :: after)) (.union (before ++ some other :: after))

theorem Respells.spelled_eq {s t : Shape} (h : Respells s t) : s.spelled = t.spelled := by
  induction h with
  | byteVector | byteList => rfl
  | vector _ ih | list _ ih => rw [spelled, spelled, ih]
  | container _ ih => simp only [spelled, spelledFields_eq_map, List.map_append, List.map_cons, ih]
  | union _ ih =>
    simp only [spelled, spelledAlternatives_eq_map, List.map_append, List.map_cons, Option.map_some,
      ih]

/-- The value of the second shape for a value of the first. A byte string is its list of numbers
    wherever the second shape has such a list and the first one has not, and the other way round. -/
def counterpart (s t : Shape) (v : Value) : Value := t.spell (s.spell v)

theorem counterpart_counterpart (s t : Shape) (v : Value) :
    t.counterpart s (s.counterpart t v) = v := by
  rw [counterpart, counterpart, spell_spell, spell_spell]

/-- What holds of a value exactly if it holds of its spelling passes on to its counterpart. -/
theorem iff_counterpart (P : Shape → Value → Prop)
    (h : ∀ shape v, P shape.spelled (shape.spell v) ↔ P shape v) {s t : Shape}
    (hspelled : s.spelled = t.spelled) (v : Value) : P s v ↔ P t (s.counterpart t v) := by
  rw [← h s, ← h t, counterpart, spell_spell, hspelled]

/-- Values of the two shapes stand for one another on the wire and in the tree. -/
structure Interchangeable (s t : Shape) : Prop where
  wellFormed : ∀ v, s.check v = .ok () ↔ t.check (s.counterpart t v) = .ok ()
  encode : ∀ v bytes, encode s v = .ok bytes ↔ encode t (s.counterpart t v) = .ok bytes
  root : ∀ v root, hashTreeRoot s v = .ok root ↔ hashTreeRoot t (s.counterpart t v) = .ok root
  decode : ∀ v bytes, Ssz.decode s bytes = .ok v ↔ Ssz.decode t bytes = .ok (s.counterpart t v)
  /-- Each value of either shape is the counterpart of one of the other. -/
  back : ∀ v, t.counterpart s (s.counterpart t v) = v

theorem interchangeable_of_spelled_eq {s t : Shape} (h : s.spelled = t.spelled) :
    Interchangeable s t := by
  constructor
  case wellFormed =>
    exact iff_counterpart (fun shape v => shape.check v = .ok ()) check_spell h
  case encode =>
    intro v bytes
    rw [encode_eq_ok, encode_eq_ok]
    exact iff_counterpart (fun shape v => shape.Encodes v bytes) (fun _ _ => encodes_spell) h v
  case root =>
    exact fun v root => iff_counterpart (fun shape v => hashTreeRoot shape v = .ok root)
      (fun _ _ => hashTreeRoot_spell) h v
  case decode =>
    exact fun v bytes => iff_counterpart (fun shape v => shape.decode bytes = .ok v)
      (fun _ _ => decode_spell) h v
  case back => exact counterpart_counterpart s t

/-- Byte vectors and byte lists may be replaced by vectors and lists of 8-bit numbers, or these by
    them, anywhere in a schema and any number of times. Where that is the whole shape, a byte string
    is exchanged for the list of its numbers. -/
theorem interchangeable_of_respells :
    (∀ length contents, counterpart (.byteVector length) (.vector (.uint .u8) length)
      (.bytes contents) = .list (octets contents)) ∧
    (∀ max contents, counterpart (.byteList max) (.list (.uint .u8) max) (.bytes contents)
      = .list (octets contents)) ∧
    ∀ s t, Relation.EqvGen Respells s t → Interchangeable s t := by
  have hoctets (contents : Bytes) :
      (octets contents).map (fun item => (uint .u8).spell item) = octets contents :=
    map_eq_self_iff.2 fun item _ => spell_of_isBasic rfl item
  refine ⟨fun _ contents => ?_, fun _ contents => ?_, fun s t h => ?_⟩
  · exact congrArg Value.list (hoctets contents)
  · exact congrArg Value.list (hoctets contents)
  · refine interchangeable_of_spelled_eq ?_
    induction h with
    | rel _ _ h => exact h.spelled_eq
    | refl => rfl
    | symm _ _ _ ih => exact ih.symm
    | trans _ _ _ _ _ ih ih' => exact ih.trans ih'

/-- A byte vector in a record and the byte lists in a list are replaced, one after the other. -/
theorem interchangeable_of_respells_record :
    let s : Shape := .container "record" [⟨"key", "key", .byteVector 2⟩,
      ⟨"parts", "parts", .list (.byteList 3) 4⟩]
    let t : Shape := .container "record" [⟨"key", "key", .vector (.uint .u8) 2⟩,
      ⟨"parts", "parts", .list (.list (.uint .u8) 3) 4⟩]
    let v : Value := .container [.bytes [1, 2], .list [.bytes [], .bytes [9]]]
    let w : Value := .container
      [.list [.uint .u8 1, .uint .u8 2], .list [.list [], .list [.uint .u8 9]]]
    let bytes : Bytes := [1, 2, 6, 0, 0, 0, 8, 0, 0, 0, 8, 0, 0, 0, 9]
    Relation.EqvGen Respells s t ∧ encode t w = .ok bytes ∧ Ssz.decode t bytes = .ok w ∧
      ∀ root, hashTreeRoot s v = .ok root ↔ hashTreeRoot t w = .ok root := by
  intro s t v w bytes
  have hkey : Respells s (.container "record" [⟨"key", "key", .vector (.uint .u8) 2⟩,
      ⟨"parts", "parts", .list (.byteList 3) 4⟩]) :=
    @Respells.container _ [] _ _ [_] .byteVector
  have hparts : Respells (.container "record" [⟨"key", "key", .vector (.uint .u8) 2⟩,
      ⟨"parts", "parts", .list (.byteList 3) 4⟩]) t :=
    @Respells.container _ [_] ⟨"parts", "parts", .list (.byteList 3) 4⟩ _ [] (.list .byteList)
  have hst : Relation.EqvGen Respells s t := .trans _ _ _ (.rel _ _ hkey) (.rel _ _ hparts)
  have h := interchangeable_of_respells.2.2 s t hst
  have hencode : encode s v = .ok bytes := by rfl
  have hdecode : Ssz.decode s bytes = .ok v := decode_eq_collapse hencode
  exact ⟨hst, (h.encode v bytes).1 hencode, (h.decode v bytes).1 hdecode, h.root v⟩

end Shape

end Ssz

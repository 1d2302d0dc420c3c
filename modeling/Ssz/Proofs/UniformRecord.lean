-- SUMMARY: A record whose fields all have one shape says what a vector of that shape says.
import Ssz.Merkle.Root
import Ssz.Proofs.WellFormed
import Ssz.Proofs.Wire.Ranged

/-!
# Uniform records

A record whose fields all have one shape holds what a vector of that shape holds.
The two are written and read by different code: the elements of a vector are
concatenated and cut at multiples of their size where that is fixed, while fields
go through the offset table whatever they are. They come to the same bytes, refuse
the same inputs, and are hashed alike, except that scalars in a vector are packed.

The size of both is the same even if it wraps in a word. Then, however, the two ways
to read come apart, so what is said of reading is said of prefixes that fit.
-/

namespace Ssz

open OffsetTable (Segment Sequence)

namespace Shape

/-- All fields have the shape. -/
def Uniform (element : Shape) (fields : List (Field Shape)) : Prop :=
  ∀ field ∈ fields, field.shape = element

variable {element : Shape} {fields : List (Field Shape)} {values : List Value}

theorem uniform_cons {field : Field Shape} :
    Uniform element (field :: fields) ↔ field.shape = element ∧ Uniform element fields :=
  List.forall_mem_cons

/-! ## Field by field

What is done with the fields of a uniform record, one after the other, is what is
done with the elements of a sequence. -/

theorem wordSlots_eq_replicate (h : Uniform element fields) :
    fields.map (·.shape.wordSize?) = List.replicate fields.length element.wordSize? := by
  refine List.eq_replicate_iff.2 ⟨List.length_map _, fun slot hslot => ?_⟩
  obtain ⟨field, hfield, rfl⟩ := List.mem_map.1 hslot
  rw [h field hfield]

theorem fieldsWordSize?_eq_map (h : Uniform element fields) (hne : fields ≠ []) :
    fieldsWordSize? fields = element.wordSize?.map fun size => word (size * fields.length) := by
  induction fields with
  | nil => exact absurd rfl hne
  | cons field fields ih =>
    obtain ⟨rfl, hfields⟩ := uniform_cons.1 h
    rw [fieldsWordSize?]
    cases hsize : field.shape.wordSize? with
    | none => rfl
    | some size =>
      have hrest : fieldsWordSize? fields = some (word (size * fields.length)) := by
        by_cases hnil : fields = []
        · subst hnil
          rfl
        · rw [ih hfields hnil, hsize]
          rfl
      have hsum : word (size + word (size * fields.length)) = word (size + size * fields.length) :=
        Nat.add_mod_mod _ _ _
      rw [hrest, Option.map_some, List.length_cons, Nat.mul_succ, Nat.add_comm (size * _), ← hsum]

theorem checkFields_eq_forM (h : Uniform element fields) (hlength : values.length = fields.length) :
    checkFields fields values = values.forM fun v => element.check v := by
  induction fields generalizing values with
  | nil =>
    cases List.eq_nil_of_length_eq_zero hlength
    rfl
  | cons field fields ih =>
    obtain ⟨rfl, hfields⟩ := uniform_cons.1 h
    cases values with
    | nil => cases hlength
    | cons v values =>
      rw [checkFields, List.forM, ih hfields (Nat.succ.inj hlength)]

theorem writeFields_eq_mapM (h : Uniform element fields) (hlength : values.length = fields.length) :
    writeFields fields values
      = List.map (Segment.mk element.isFixedSize) <$> values.mapM fun v => element.write v := by
  induction fields generalizing values with
  | nil =>
    cases List.eq_nil_of_length_eq_zero hlength
    rfl
  | cons field fields ih =>
    obtain ⟨rfl, hfields⟩ := uniform_cons.1 h
    cases values with
    | nil => cases hlength
    | cons v values =>
      rw [writeFields, ih hfields (Nat.succ.inj hlength), List.mapM_cons]
      simp only [bind_pure_comp, Functor.map_map, map_bind, List.map_cons]

theorem fieldRoots_eq_mapM (h : Uniform element fields) (hlength : values.length = fields.length) :
    fieldRoots fields values = values.mapM fun v => element.root v := by
  induction fields generalizing values with
  | nil =>
    cases List.eq_nil_of_length_eq_zero hlength
    rfl
  | cons field fields ih =>
    obtain ⟨rfl, hfields⟩ := uniform_cons.1 h
    cases values with
    | nil => cases hlength
    | cons v values => rw [fieldRoots, ih hfields (Nat.succ.inj hlength), List.mapM_cons]

theorem decodeFieldsRanged_eq_mapM {parts : List Bytes} (h : Uniform element fields)
    (hlength : parts.length = fields.length) :
    decodeFieldsRanged fields parts = parts.mapM fun part => element.decodeRanged part := by
  induction fields generalizing parts with
  | nil =>
    cases List.eq_nil_of_length_eq_zero hlength
    rfl
  | cons field fields ih =>
    obtain ⟨rfl, hfields⟩ := uniform_cons.1 h
    cases parts with
    | nil => cases hlength
    | cons part parts =>
      rw [decodeFieldsRanged, ih hfields (Nat.succ.inj hlength), List.mapM_cons]

/-! ## The whole record -/

theorem check_uniform (name : String) (h : Uniform element fields)
    (hlength : values.length = fields.length) :
    (container name fields).check (.container values)
      = (vector element fields.length).check (.list values) := by
  have hcount (label : String) : checkLength label fields.length values.length = .ok () :=
    checkLength_eq_ok.2 hlength
  rw [check, check, hcount, hcount, checkFields_eq_forM h hlength]

theorem write_uniform (name : String) (h : Uniform element fields)
    (hlength : values.length = fields.length) :
    (container name fields).write (.container values)
      = (vector element fields.length).write (.list values) := by
  rw [write, write, writeFields_eq_mapM h hlength]
  simp only [concat_or_join, bind_map_left]

theorem root_uniform (name : String) (h : Uniform element fields)
    (hlength : values.length = fields.length) (hbasic : element.isBasic = false) :
    (container name fields).root (.container values)
      = (vector element fields.length).root (.list values) := by
  rw [root, root, hbasic, fieldRoots_eq_mapM h hlength]
  refine bind_congr_ok fun roots hroots => ?_
  rw [← (mapM_eq_ok.1 hroots).length_eq, hlength]

/-! ## Reading

Whichever way an input is cut, its parts are those of a sequence. -/

/-- The input is a sequence of this many parts, which are read as the values. -/
def ReadsElements (element : Shape) (count : Nat) (bytes : Bytes) (values : List Value) : Prop :=
  ∃ parts, (parts.length = count ∧ Sequence element.wordSize? parts bytes) ∧
    (parts.mapM fun part => element.decodeRanged part) = .ofExcept (.ok values)

theorem split_wordSlots {count : Nat} (hword : element.wordPrefixSize * count < wordBound)
    (bytes : Bytes) :
    OffsetTable.Ranged.split (List.replicate count element.wordSize?) bytes
      = .ofExcept (OffsetTable.split (List.replicate count element.wordSize?) bytes) := by
  apply OffsetTable.Ranged.split_eq
  rw [OffsetTable.slotsLength_replicate]
  exact hword

theorem decodeRanged_vector {count : Nat} {bytes : Bytes} {v : Value}
    (hword : element.wordPrefixSize * count < wordBound) :
    (vector element count).decodeRanged bytes = .ofExcept (.ok v) ↔
      ∃ values, ReadsElements element count bytes values ∧ .list values = v := by
  have hsplit := split_wordSlots hword bytes
  cases hsize : element.wordSize? with
  | some size =>
    rw [wordPrefixSize, hsize, Option.getD_some] at hword
    simp only [ReadsElements, decodeRanged, hsize, Ranged.bind_eq_ok, Ranged.pure_eq_ok,
      Ranged.ofExcept_inj, exists_unit, expectLength_eq_ok, word_eq hword,
      OffsetTable.sequence_fixed]
    constructor
    · rintro ⟨hlength, parts, hparts, values, hvalues, hv⟩
      rw [vectorParts_eq hlength] at hparts
      exact ⟨values, ⟨parts, pieces_eq_iff.1 ⟨hlength, hparts⟩, hvalues⟩, hv⟩
    · rintro ⟨values, ⟨parts, hparts, hvalues⟩, hv⟩
      obtain ⟨hlength, hpieces⟩ := pieces_eq_iff.2 hparts
      exact ⟨hlength, parts, (vectorParts_eq hlength).trans hpieces, values, hvalues, hv⟩
  | none =>
    rw [hsize] at hsplit
    simp only [ReadsElements, decodeRanged, hsize, hsplit, Ranged.bind_eq_ok, Ranged.pure_eq_ok,
      Ranged.malformed_eq_ok, OffsetTable.split_replicate_eq_ok]
    constructor
    · rintro ⟨parts, hparts, values, hvalues, hv⟩
      exact ⟨values, ⟨parts, hparts, hvalues⟩, hv⟩
    · rintro ⟨values, ⟨parts, hparts, hvalues⟩, hv⟩
      exact ⟨parts, hparts, values, hvalues, hv⟩

/-- The length that is asked of a uniform record first is that of its parts together. -/
theorem decodeRanged_uniform_eq_ok (name : String) (hne : fields ≠ [])
    (h : Uniform element fields) (hword : element.wordPrefixSize * fields.length < wordBound)
    {bytes : Bytes} {v : Value} :
    (container name fields).decodeRanged bytes = .ofExcept (.ok v) ↔
      ∃ parts, (parts.length = fields.length ∧ Sequence element.wordSize? parts bytes) ∧
        ∃ values, decodeFieldsRanged fields parts = .ofExcept (.ok values) ∧
          .container values = v := by
  have hsplit := split_wordSlots hword bytes
  cases hsize : element.wordSize? with
  | some size =>
    rw [wordPrefixSize, hsize, Option.getD_some] at hword
    rw [hsize] at hsplit
    simp only [decodeRanged, fieldsWordSize?_eq_map h hne, wordSlots_eq_replicate h, hsize,
      Option.map_some, hsplit, Ranged.bind_eq_ok, Ranged.pure_eq_ok, Ranged.ofExcept_inj,
      Ranged.malformed_eq_ok, exists_unit, expectLength_eq_ok, word_eq hword,
      OffsetTable.split_replicate_eq_ok]
    refine and_iff_right_of_imp ?_
    rintro ⟨parts, ⟨hcount, hsequence⟩, -⟩
    exact (pieces_eq_iff.2 ⟨hcount, OffsetTable.sequence_fixed.1 hsequence⟩).1
  | none =>
    rw [hsize] at hsplit
    simp only [decodeRanged, fieldsWordSize?_eq_map h hne, wordSlots_eq_replicate h, hsize,
      Option.map_none, hsplit, Ranged.bind_eq_ok, Ranged.pure_eq_ok, Ranged.malformed_eq_ok,
      OffsetTable.split_replicate_eq_ok]

theorem decodeRanged_uniform (name : String) (hne : fields ≠ []) (h : Uniform element fields)
    (hword : element.wordPrefixSize * fields.length < wordBound) {bytes : Bytes} {v : Value} :
    (container name fields).decodeRanged bytes = .ofExcept (.ok v) ↔
      ∃ values, ReadsElements element fields.length bytes values ∧ .container values = v := by
  rw [decodeRanged_uniform_eq_ok name hne h hword]
  constructor
  · rintro ⟨parts, hparts, values, hvalues, hv⟩
    rw [decodeFieldsRanged_eq_mapM h hparts.1] at hvalues
    exact ⟨values, ⟨parts, hparts, hvalues⟩, hv⟩
  · rintro ⟨values, ⟨parts, hparts, hvalues⟩, hv⟩
    rw [← decodeFieldsRanged_eq_mapM h hparts.1] at hvalues
    exact ⟨parts, hparts, values, hvalues, hv⟩

/-- The record and the vector stand for one another, with the same values in the same order. Values
    that are not well-formed are no exception: both are refused, for the same cause. -/
structure StandsFor (name : String) (fields : List (Field Shape)) (element : Shape) : Prop where
  fixedSize : (container name fields).wordSize? = (vector element fields.length).wordSize?
  encode : ∀ values, values.length = fields.length →
    encode (container name fields) (.container values)
      = encode (vector element fields.length) (.list values)
  decode : element.wordPrefixSize * fields.length < wordBound → ∀ bytes values,
    Ssz.decodeRanged (container name fields) bytes = .ofExcept (.ok (.container values)) ↔
      Ssz.decodeRanged (vector element fields.length) bytes = .ofExcept (.ok (.list values))
  accepts : element.wordPrefixSize * fields.length < wordBound → ∀ bytes,
    (∃ v, Ssz.decodeRanged (container name fields) bytes = .ofExcept (.ok v)) ↔
      ∃ v, Ssz.decodeRanged (vector element fields.length) bytes = .ofExcept (.ok v)
  /-- Scalars are packed in a vector, while each field has a chunk of its own. -/
  root : element.isBasic = false → ∀ values, values.length = fields.length →
    hashTreeRoot (container name fields) (.container values)
      = hashTreeRoot (vector element fields.length) (.list values)

/-- A record with one shape for all its fields, of which there is at least one, and the vector of
    that shape are of one size, have the same encodings, read the same inputs as the same values if
    the prefix fits a word, and have the same roots unless the shape is a scalar. -/
theorem standsFor_of_uniform (name : String) (hne : fields ≠ []) (h : Uniform element fields) :
    StandsFor name fields element := by
  constructor
  case fixedSize => exact fieldsWordSize?_eq_map h hne
  case encode =>
    intro values hlength
    rw [Ssz.encode, Ssz.encode, check_uniform name h hlength, write_uniform name h hlength]
  case decode =>
    intro hword bytes values
    simp only [Ssz.decodeRanged, decodeRanged_uniform name hne h hword, decodeRanged_vector hword,
      Value.container.injEq, Value.list.injEq]
  case accepts =>
    intro hword bytes
    simp only [Ssz.decodeRanged, decodeRanged_uniform name hne h hword, decodeRanged_vector hword]
    constructor
    · rintro ⟨_, values, hvalues, -⟩
      exact ⟨_, values, hvalues, rfl⟩
    · rintro ⟨_, values, hvalues, -⟩
      exact ⟨_, values, hvalues, rfl⟩
  case root =>
    intro hbasic values hlength
    rw [hashTreeRoot, hashTreeRoot, check_uniform name h hlength,
      root_uniform name h hlength hbasic]

/-- Two fields of variable size, so that both go by offsets. -/
theorem standsFor_of_uniform_names :
    let fields : List (Field Shape) :=
      [⟨"first", "first", .byteList 4⟩, ⟨"last", "last", .byteList 4⟩]
    let bytes : Bytes := [8, 0, 0, 0, 9, 0, 0, 0, 65, 66, 67]
    let values : List Value := [.bytes [65], .bytes [66, 67]]
    fields ≠ [] ∧ Uniform (.byteList 4) fields ∧
      (byteList 4).wordPrefixSize * fields.length < wordBound ∧
      encode (.vector (.byteList 4) 2) (.list values) = .ok bytes ∧
      Ssz.decodeRanged (.container "names" fields) bytes
        = .ofExcept (.ok (.container values)) ∧
      hashTreeRoot (.container "names" fields) (.container values)
        = hashTreeRoot (.vector (.byteList 4) 2) (.list values) := by
  intro fields bytes values
  have hne : fields ≠ [] := List.cons_ne_nil _ _
  have huniform : Uniform (.byteList 4) fields := by
    refine uniform_cons.2 ⟨rfl, uniform_cons.2 ⟨rfl, fun field hfield => ?_⟩⟩
    cases hfield
  have hword : (byteList 4).wordPrefixSize * fields.length < wordBound := by decide
  have h := standsFor_of_uniform "names" hne huniform
  have hencode : encode (.container "names" fields) (.container values) = .ok bytes := by rfl
  have hdecode : Ssz.decodeRanged (.vector (.byteList 4) 2) bytes
      = .ofExcept (.ok (.list values)) := by rfl
  exact ⟨hne, huniform, hword, (h.encode values rfl).symm.trans hencode,
    (h.decode hword bytes values).2 hdecode, h.root rfl values rfl⟩

/-- The size of two parts of `2 ^ 63` bytes wraps to zero. The vector then has no part at all, while
    the range of the first field is missing. -/
theorem decodeRanged_wrapped_pair :
    let element : Shape := .byteVector (2 ^ 63)
    let fields : List (Field Shape) := [⟨"a", "a", element⟩, ⟨"b", "b", element⟩]
    Ssz.decodeRanged (.vector element 2) [] = .ofExcept (.ok (.list [])) ∧
      Ssz.decodeRanged (.container "pair" fields) [] = .missing :=
  ⟨by rfl, by rfl⟩

/-- Without fields the two differ: there is nothing of variable size in the record, but the vector
    is of variable size because its element is. -/
example : (container "none" []).fixedSize? = some 0 ∧ (vector (.byteList 4) 0).fixedSize? = none :=
  ⟨rfl, rfl⟩

end Shape

end Ssz

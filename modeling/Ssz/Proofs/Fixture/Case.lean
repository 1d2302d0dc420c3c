-- SUMMARY: A fixture case passes exactly if its three files are forms of one value.
import Ssz.Proofs.Fixture.Directory
import Ssz.Proofs.Text.Hex
import Ssz.Proofs.Typed.Lawful
import Ssz.Proofs.Wire.RoundTrip
import Ssz.Snappy

/-!
# Cases that pass

A run decodes the binary file and reads the text file, and it compares encodings,
never values; the root is taken of the value in the text file alone. The law says
that this is enough: a case passes exactly if there is a value of which the files
hold the text, the encoding and the root, and then it is also the value that the
binary file decodes to. An encoding can only be shared by two values if elements
without bytes are lost from it, so the law is about types without lists of those.
It asks nothing of the format of blocks, which may decompress them to anything.
-/

namespace Ssz

/-! ## Lists of elements without bytes -/

/-- Somewhere in the shape there is a list of elements of size zero. -/
inductive Shape.HasSizelessList : Shape → Prop
  | here {element max} : element.fixedSize? = some 0 → HasSizelessList (.list element max)
  | vector {element length} : HasSizelessList element → HasSizelessList (.vector element length)
  | list {element max} : HasSizelessList element → HasSizelessList (.list element max)
  | container {name fields field} : field ∈ fields → HasSizelessList field.shape →
      HasSizelessList (.container name fields)
  | union {alternatives shape} : some shape ∈ alternatives → HasSizelessList shape →
      HasSizelessList (.union alternatives)

theorem Shape.HoldsSizeless.hasSizelessList {shape : Shape} {v : Value}
    (h : shape.HoldsSizeless v) : shape.HasSizelessList := by
  induction h with
  | here hzero => exact .here hzero
  | vector _ _ ih => exact .vector ih
  | list _ _ ih => exact .list ih
  | container _ hfield _ _ ih => exact .container (List.mem_of_getElem? hfield) ih
  | union hshape _ ih => exact .union (List.mem_of_getElem? hshape) ih

/-! ## Typed readers -/

namespace Schema

variable {α : Type} {s : Schema α} {x : α} {bytes : Bytes}

/-- A value of the type is rebuilt from its tree, if the tree is well-formed. -/
def Restores (s : Schema α) : Prop :=
  ∀ x, s.shape.check (s.toValue x) = .ok () → s.ofValue (s.toValue x) = .ok x

theorem Lawful.restores (h : s.Lawful) : s.Restores := fun _ _ => h.ofValue_eq_ok.2 rfl

theorem decode_eq_ok :
    s.decode bytes = .ok x ↔ ∃ v, Ssz.decode s.shape bytes = .ok v ∧ s.ofValue v = .ok x := by
  have hrebuilt (r : Except ShapeMismatch α) : rebuilt r = .ok x ↔ r = .ok x := by
    cases r <;> simp [rebuilt]
  simp only [decode, bind_eq_ok, hrebuilt]

/-- An encoding decodes to the value that it was made of. -/
theorem Restores.decode_of_encode_ok (h : s.Restores) (hsized : ¬s.shape.HasSizelessList)
    (hencode : s.encode x = .ok bytes) : s.decode bytes = .ok x := by
  have hdecode : Ssz.decode s.shape bytes = .ok (s.toValue x) :=
    (decode_eq_self_iff hencode).2 fun hholds => hsized hholds.hasSizelessList
  exact decode_eq_ok.2 ⟨_, hdecode, h x (encode_eq_ok.1 hencode).check⟩

end Schema

namespace Fixture

variable {α : Type} {format : BlockFormat} {s : Schema α} {dir : Directory} {x : α}
  {bytes : Bytes}

/-! ## Files -/

/-- The text is the one line of a roots file that gives the root in 64 small digits. -/
def NamesRoot (text : String) (root : Chunk) : Prop :=
  ∃ digits : List Char, digits.length = 64 ∧ Hex.Spells digits root.toList ∧
    text = String.ofList ("\x7broot: '0x".toList ++ digits ++ "'\x7d\n".toList)

/-- The files of the case can be read, and they hold the value as text, its encoding in a block, and
    its root. -/
structure Conforms (format : BlockFormat) (s : Schema α) (dir : Directory) (x : α) : Prop where
  value : ∃ text, dir.readText valueFile = .ok text ∧ s.fromYaml text = .ok x
  serialized : ∃ block bytes, dir.read serializedFile = .ok block ∧
    format.decompress block = .ok bytes ∧ s.encode x = .ok bytes
  root : ∃ text root, dir.readText rootsFile = .ok text ∧ s.hashTreeRoot x = .ok root ∧
    NamesRoot text root

theorem rootsText_eq (root : Chunk) : rootsText root
    = String.ofList ("\x7broot: '0x".toList ++ Hex.digits root.toList ++ "'\x7d\n".toList) := by
  have hline : rootsText root = "\x7broot: '" ++ Hex.renderMarked root.toList ++ "'\x7d\n" := rfl
  simp only [hline, ← String.toList_inj, String.toList_append, Hex.renderMarked,
    String.toList_ofList]
  rfl

theorem namesRoot_iff {text : String} {root : Chunk} :
    NamesRoot text root ↔ text = rootsText root := by
  rw [rootsText_eq]
  constructor
  · rintro ⟨digits, -, hspells, rfl⟩
    rw [Hex.spells_iff.1 hspells]
  · rintro rfl
    refine ⟨Hex.digits root.toList, ?_, Hex.spells_iff.2 rfl, rfl⟩
    rw [Hex.length_digits, root.length_toList]
    rfl

/-! ## Runs -/

theorem encodeValue_eq_ok : encodeValue s x = .ok bytes ↔ s.encode x = .ok bytes := mapError_eq_ok

theorem rootsOf_eq_ok {text : String} :
    rootsOf s x = .ok text ↔ ∃ root, s.hashTreeRoot x = .ok root ∧ NamesRoot text root := by
  simp only [rootsOf, namesRoot_iff]
  cases s.hashTreeRoot x <;> simp [eq_comm]

theorem sameBytes_eq_ok {what : String} {expected actual : Bytes} {u : Unit} :
    sameBytes what expected actual = .ok u ↔ actual = expected := by
  unfold sameBytes
  split <;> simp_all

/-- The steps of a run that passes. -/
theorem checkCase_eq_ok :
    checkCase format s dir = .ok bytes ↔
      ∃ text block, dir.readText valueFile = .ok text ∧ dir.read serializedFile = .ok block ∧
        format.decompress block = .ok bytes ∧
        (∃ decoded, s.decode bytes = .ok decoded ∧ s.encode decoded = .ok bytes) ∧
        ∃ x, s.fromYaml text = .ok x ∧ s.encode x = .ok bytes ∧
          ∃ roots root, dir.readText rootsFile = .ok roots ∧ s.hashTreeRoot x = .ok root ∧
            NamesRoot roots root := by
  simp only [checkCase, bind_eq_ok, mapError_eq_ok, encodeValue_eq_ok, sameBytes_eq_ok,
    exists_unit, rootsOf_eq_ok, ite_pure_eq_ok]
  constructor
  · rintro ⟨text, htext, block, hblock, ssz, hssz, decoded, hdecoded, _, hagain, rfl,
      x, hx, _, hencode, hsame, roots, hroots, _, ⟨root, hroot, hnames⟩, rfl, rfl⟩
    cases hsame
    exact ⟨text, block, htext, hblock, hssz, ⟨decoded, hdecoded, hagain⟩, x, hx, hencode,
      _, root, hroots, hroot, hnames⟩
  · rintro ⟨text, block, htext, hblock, hssz, ⟨decoded, hdecoded, hagain⟩, x, hx, hencode,
      roots, root, hroots, hroot, hnames⟩
    exact ⟨text, htext, block, hblock, bytes, hssz, decoded, hdecoded, bytes, hagain, rfl,
      x, hx, bytes, hencode, rfl, roots, hroots, roots, ⟨root, hroot, hnames⟩, rfl, rfl⟩

theorem result_runCase {path : String} :
    (runCase format s path dir).result = .ok () ↔ ∃ bytes, checkCase format s dir = .ok bytes := by
  unfold runCase
  split <;> simp_all

theorem conforms_of_checkCase (h : checkCase format s dir = .ok bytes) :
    ∃ x, Conforms format s dir x := by
  obtain ⟨text, block, htext, hblock, hbytes, -, x, hx, hencode, roots, root, hroots, hroot, hnames⟩
    := checkCase_eq_ok.1 h
  exact ⟨x, ⟨text, htext, hx⟩, ⟨block, bytes, hblock, hbytes, hencode⟩,
    ⟨roots, root, hroots, hroot, hnames⟩⟩

theorem Conforms.exists_checkCase (h : Conforms format s dir x) (hrestores : s.Restores)
    (hsized : ¬s.shape.HasSizelessList) : ∃ bytes, checkCase format s dir = .ok bytes := by
  obtain ⟨text, htext, hx⟩ := h.value
  obtain ⟨block, bytes, hblock, hbytes, hencode⟩ := h.serialized
  have hdecode := hrestores.decode_of_encode_ok hsized hencode
  exact ⟨bytes, checkCase_eq_ok.2
    ⟨text, block, htext, hblock, hbytes, ⟨x, hdecode, hencode⟩, x, hx, hencode, h.root⟩⟩

theorem Conforms.unique {y : α} (hx : Conforms format s dir x) (hy : Conforms format s dir y) :
    y = x := by
  obtain ⟨text, htext, hx⟩ := hx.value
  obtain ⟨other, hother, hy⟩ := hy.value
  cases htext.symm.trans hother
  exact Except.ok.inj (hy.symm.trans hx)

/-- A case passes exactly if there is one value that its files conform to. Then the bytes in its
    block are the encoding of that value and of no other, and they decode to it. -/
theorem runCase_eq_ok_iff_conforms (format : BlockFormat) {s : Schema α}
    (hrestores : s.Restores) (hsized : ¬s.shape.HasSizelessList) (path : String) (dir : Directory) :
    ((runCase format s path dir).result = .ok () ↔ ∃! x, Conforms format s dir x) ∧
      ∀ x, Conforms format s dir x → ∀ block bytes, dir.read serializedFile = .ok block →
        format.decompress block = .ok bytes →
          s.decode bytes = .ok x ∧ ∀ y, s.encode y = .ok bytes → y = x := by
  rw [result_runCase]
  constructor
  · constructor
    · rintro ⟨bytes, hcheck⟩
      obtain ⟨x, hx⟩ := conforms_of_checkCase hcheck
      exact ⟨x, hx, fun y hy => hx.unique hy⟩
    · rintro ⟨x, hx, -⟩
      exact hx.exists_checkCase hrestores hsized
  · intro x hx block bytes hblock hbytes
    obtain ⟨other, contents, hother, hcontents, hencode⟩ := hx.serialized
    cases hother.symm.trans hblock
    cases hcontents.symm.trans hbytes
    have hdecode := hrestores.decode_of_encode_ok hsized hencode
    refine ⟨hdecode, fun y hy => ?_⟩
    have hdecode' := hrestores.decode_of_encode_ok hsized hy
    exact Except.ok.inj (hdecode'.symm.trans hdecode)

/-- The text is no line of the writer, and the block copies the zeros from one another. -/
theorem runCase_eq_ok_iff_conforms_mark :
    let s := Schema.record "mark" (.cons "slot" "slot" (.uint .u64) .nil)
    let dir : Directory := [(valueFile, .file "slot: 007 # seven\n".toUTF8.toList),
      (serializedFile, .file [8, 4, 7, 0, 9, 1]),
      (rootsFile, .file ("\x7broot: '0x07000000000000000000000000000000"
        ++ "00000000000000000000000000000000'\x7d\n").toUTF8.toList)]
    (runCase Snappy.format s "mark" dir).result = .ok () ∧
      s.decode [7, 0, 0, 0, 0, 0, 0, 0] = .ok (7, ()) := by
  intro s dir
  have hlawful : s.Lawful :=
    Fields.Lawful.record (.cons (Schema.lawful_uint .u64) Fields.lawful_nil) "mark"
  have hsized : ¬s.shape.HasSizelessList := by
    rintro (_ | _ | _ | ⟨hfield, h⟩)
    cases List.mem_singleton.1 hfield
    cases h
  have hblock : Snappy.format.decompress [8, 4, 7, 0, 9, 1] = .ok [7, 0, 0, 0, 0, 0, 0, 0] := by
    decide +kernel
  have hconforms : Conforms Snappy.format s dir (7, ()) := by
    refine ⟨⟨_, Directory.readText_of_read rfl, ?_⟩, ⟨_, _, rfl, hblock, rfl⟩,
      ⟨_, _, Directory.readText_of_read rfl, rfl, namesRoot_iff.2 ?_⟩⟩
    · decide +kernel
    · decide +kernel
  obtain ⟨hpasses, hunique⟩ := runCase_eq_ok_iff_conforms Snappy.format hlawful.restores
    hsized "mark" dir
  refine ⟨hpasses.2 ⟨_, hconforms, fun y hy => hconforms.unique hy⟩, ?_⟩
  exact (hunique _ hconforms _ _ rfl hblock).1

end Fixture

end Ssz

-- SUMMARY: A case that has been written passes, and a value that cannot be encoded writes nothing.
import Ssz.Proofs.Fixture.Case
import Ssz.Proofs.Snappy
import Ssz.Proofs.Text.Inputs
import Ssz.Proofs.Text.Yaml
import Ssz.Proofs.Typed.Codecs

/-!
# Written cases

The writer makes three forms of a value, and the root is only made when two of the
files are there already. So it matters that all forms are made of the same values:
what the encoder takes has a text and a root. A case that has been written passes,
even if the binary file decodes to a value with fewer elements, since a run only
compares encodings; and it still passes after any further writes to it. Of the
format of blocks it is only asked that it gives back the encodings it was given.
-/

namespace Ssz

namespace Schema

variable {α : Type} {s : Schema α} {x : α} {bytes : Bytes}

/-! ## Values that are encoded -/

/-- The value is well-formed, and its offsets can be written. -/
structure Fits (s : Schema α) (x : α) : Prop where
  check : s.shape.check (s.toValue x) = .ok ()
  offsets : ∀ offset, s.shape.HasOffset (s.toValue x) offset → offset < 2 ^ 32

theorem exists_encode_iff : (∃ bytes, s.encode x = .ok bytes) ↔ s.Fits x := by
  constructor
  · rintro ⟨bytes, h⟩
    have hcheck := (encode_eq_ok.1 h).check
    exact ⟨hcheck, (encode_addressed hcheck).isOk_iff.1 ⟨bytes, h⟩⟩
  · intro h
    exact (encode_addressed h.check).isOk_iff.2 h.offsets

/-! ## Reading back -/

/-- Every well-formed value is the tree of some value of the type, which is rebuilt from it. -/
def Rebuilds (s : Schema α) : Prop :=
  ∀ v, s.shape.check v = .ok () → ∃ x, s.ofValue v = .ok x ∧ s.toValue x = v

theorem Lawful.rebuilds (h : s.Lawful) : s.Rebuilds := fun _ => h.exists_ofValue

/-- An encoding decodes to a value, which may have lost elements without bytes but is encoded in the
    same way. -/
theorem Rebuilds.exists_decode (h : s.Rebuilds) (hencode : s.encode x = .ok bytes) :
    ∃ y, s.decode bytes = .ok y ∧ s.encode y = .ok bytes := by
  have hdecode : Ssz.decode s.shape bytes = .ok (s.shape.collapse (s.toValue x)) :=
    decode_eq_collapse hencode
  have hagain := Shape.encodes_of_decode hdecode
  obtain ⟨y, hy, hvalue⟩ := h _ hagain.check
  refine ⟨y, decode_eq_ok.2 ⟨_, hdecode, hy⟩, ?_⟩
  rw [encode, hvalue]
  exact encode_eq_ok.2 hagain

theorem fromYaml_eq_ok {text : String} :
    s.fromYaml text = .ok x ↔ ∃ v, Ssz.fromYaml s.shape text = .ok v ∧ s.ofValue v = .ok x := by
  have hrebuilt (r : Except ShapeMismatch α) : rebuiltFromText r = .ok x ↔ r = .ok x := by
    cases r <;> simp [rebuiltFromText]
  simp only [fromYaml, bind_eq_ok, hrebuilt]

/-- The line that is written for a value is read as a value of the same tree. -/
theorem Rebuilds.exists_fromYaml (h : s.Rebuilds)
    (hnames : s.shape.Names fun name => Text.Yaml.isIdentifier name = true)
    (hdepth : ∀ t, toTree s.shape (s.toValue x) = .ok t → t.depth ≤ 128) {text : String}
    (hwrite : s.toYaml x = .ok text) :
    ∃ y, s.fromYaml text = .ok y ∧ s.toValue y = s.toValue x := by
  obtain ⟨t, ht, hprint⟩ := bind_eq_ok.1 hwrite
  cases hprint
  have hrendered := toTree_eq_ok.1 ht
  obtain ⟨y, hy, hvalue⟩ := h _ hrendered.check
  exact ⟨y, fromYaml_eq_ok.2 ⟨_, hrendered.fromYaml_print hnames (hdepth t ht), hy⟩, hvalue⟩

end Schema

namespace Fixture

variable {α : Type} {format : BlockFormat} {s : Schema α} {dir : Directory} {x : α}

/-! ## Files of a value -/

def caseFiles : List String := [valueFile, serializedFile, rootsFile]

/-- No directory is in the way of a file of the case. -/
def Directory.Free (dir : Directory) : Prop :=
  ∀ name ∈ caseFiles, dir.lookup name ≠ some .directory

/-- The files of the case are those of the value. -/
structure Holds (format : BlockFormat) (s : Schema α) (dir : Directory) (x : α) : Prop where
  value : ∃ text, s.toYaml x = .ok text ∧ dir.read valueFile = .ok text.toUTF8.toList
  serialized : ∃ bytes block, s.encode x = .ok bytes ∧ format.compress bytes = .ok block ∧
    dir.read serializedFile = .ok block
  root : ∃ root, s.hashTreeRoot x = .ok root ∧
    dir.read rootsFile = .ok (rootsText root).toUTF8.toList

/-- The formats of the files can take the value, if it can be encoded: its text nests no deeper than
    YAML is read, it can be held at all, and its block keeps its encoding. -/
structure Legible (format : BlockFormat) (s : Schema α) (x : α) : Prop where
  depth : ∀ t, toTree s.shape (s.toValue x) = .ok t → t.depth ≤ 128
  storable : (s.toValue x).Storable
  block : ∀ bytes, s.encode x = .ok bytes → format.Keeps bytes

/-- The files of a value pass, whatever values are read from them. -/
theorem Holds.checkCase (h : Holds format s dir x) (hrebuilds : s.Rebuilds)
    (hnames : s.shape.Names fun name => Text.Yaml.isIdentifier name = true)
    (hlegible : Legible format s x) : ∃ bytes, Fixture.checkCase format s dir = .ok bytes := by
  obtain ⟨text, hyaml, htext⟩ := h.value
  obtain ⟨bytes, block, hencode, hcompress, hblock⟩ := h.serialized
  obtain ⟨root, hroot, hroots⟩ := h.root
  obtain ⟨other, hother, hdecompress⟩ := hlegible.block bytes hencode
  cases hcompress.symm.trans hother
  have hdecode := hrebuilds.exists_decode hencode
  obtain ⟨y, hy, hvalue⟩ := hrebuilds.exists_fromYaml hnames hlegible.depth hyaml
  have hencode' : s.encode y = .ok bytes := by rwa [Schema.encode, hvalue]
  have hroot' : s.hashTreeRoot y = .ok root := by rwa [Schema.hashTreeRoot, hvalue]
  exact ⟨bytes, checkCase_eq_ok.2 ⟨text, _, Directory.readText_of_read htext, hblock,
    hdecompress, hdecode, y, hy, hencode', _, root,
    Directory.readText_of_read hroots, hroot', namesRoot_iff.2 rfl⟩⟩

/-! ## One write -/

theorem writeCase_of_encode_error {e : EncodeError} (h : s.encode x = .error e)
    (dir : Directory) : writeCase format s x dir = (.error (.encode e), dir) := by
  rw [writeCase, prepare, encodeValue, h]
  rfl

theorem prepare_eq_ok {block : Bytes} {text : String} :
    prepare format s x = .ok (block, text) ↔
      (∃ bytes, s.encode x = .ok bytes ∧ format.compress bytes = .ok block) ∧
        s.toYaml x = .ok text := by
  simp only [prepare, encodeValue, bind_eq_ok, mapError_eq_ok, pure_eq_ok, Prod.mk.injEq]
  constructor
  · rintro ⟨bytes, hencode, block, hcompress, text, htext, rfl, rfl⟩
    exact ⟨⟨bytes, hencode, hcompress⟩, htext⟩
  · rintro ⟨⟨bytes, hencode, hcompress⟩, htext⟩
    exact ⟨bytes, hencode, block, hcompress, text, htext, rfl, rfl⟩

theorem Directory.Free.exists_write (h : dir.Free) {name : String} (hname : name ∈ caseFiles)
    (contents : Bytes) : ∃ written, dir.write name contents = .ok written ∧ written.Free := by
  have hwrite := Directory.write_eq_ok (h name hname) contents
  refine ⟨_, hwrite, fun other hother => ?_⟩
  by_cases hsame : other = name
  · rw [hsame, Directory.lookup_write_self hwrite]
    exact nofun
  · rw [Directory.lookup_write_of_ne hwrite hsame]
    exact h other hother

/-- The files of the value have been written to the directory, and nothing else. -/
structure Written (format : BlockFormat) (s : Schema α) (x : α) (dir written : Directory) :
    Prop where
  holds : Holds format s written x
  free : written.Free
  others : ∀ name, name ∉ caseFiles → written.lookup name = dir.lookup name

theorem writeCase_of_fits (hfits : s.Fits x) (hlegible : Legible format s x)
    (hfree : dir.Free) : ∃ written, writeCase format s x dir = (.ok (), written) ∧
      Written format s x dir written := by
  obtain ⟨bytes, hencode⟩ := Schema.exists_encode_iff.2 hfits
  obtain ⟨block, hcompress, -⟩ := hlegible.block bytes hencode
  obtain ⟨t, ht⟩ := Shape.exists_renders hfits.check
  have hyaml : s.toYaml x = .ok (Text.Yaml.FlowLine.print t) :=
    map_eq_ok.2 ⟨t, toTree_eq_ok.2 ht, rfl⟩
  have hprepare := prepare_eq_ok.2 ⟨⟨bytes, hencode, hcompress⟩, hyaml⟩
  obtain ⟨root, hroot⟩ : ∃ root, s.hashTreeRoot x = .ok root :=
    exists_hashTreeRoot hfits.check hlegible.storable
  obtain ⟨first, hfirst, hfree⟩ := hfree.exists_write (show valueFile ∈ caseFiles by decide)
    (Text.Yaml.FlowLine.print t).toUTF8.toList
  obtain ⟨second, hsecond, hfree⟩ := hfree.exists_write (show serializedFile ∈ caseFiles by decide)
    block
  obtain ⟨third, hthird, hfree⟩ := hfree.exists_write (show rootsFile ∈ caseFiles by decide)
    (rootsText root).toUTF8.toList
  have hothers (name : String) (hname : name ∉ caseFiles) :
      third.lookup name = dir.lookup name := by
    simp only [caseFiles, List.mem_cons, List.not_mem_nil, or_false, not_or] at hname
    obtain ⟨hvalue, hserialized, hroots⟩ := hname
    rw [Directory.lookup_write_of_ne hthird hroots,
      Directory.lookup_write_of_ne hsecond hserialized,
      Directory.lookup_write_of_ne hfirst hvalue]
  refine ⟨third, ?_, ⟨⟨_, hyaml, ?_⟩, ⟨bytes, block, hencode, hcompress, ?_⟩,
    ⟨root, hroot, ?_⟩⟩, hfree, hothers⟩
  · simp only [writeCase, hprepare, rootsOf, hroot, hfirst, hsecond, hthird]
  · rw [Directory.read_eq_ok, Directory.lookup_write_of_ne hthird (by decide),
      Directory.lookup_write_of_ne hsecond (by decide), Directory.lookup_write_self hfirst]
  · rw [Directory.read_eq_ok, Directory.lookup_write_of_ne hthird (by decide),
      Directory.lookup_write_self hsecond]
  · rw [Directory.read_eq_ok, Directory.lookup_write_self hthird]

/-! ## Further writes -/

/-- The case passes, and it can be written again. -/
structure Standing (format : BlockFormat) (s : Schema α) (path : String) (dir : Directory) :
    Prop where
  free : dir.Free
  passes : (runCase format s path dir).result = .ok ()

/-- The directory after values have been written to the case one after the other, some of them
    perhaps in vain. -/
def rewrites (format : BlockFormat) (s : Schema α) (path : String) (xs : List α)
    (dir : Directory) : Directory :=
  xs.foldl (fun dir x => (writeCaseAt format s x path (some (.case dir))).2) dir

section Runs

variable {path : String} (hrebuilds : s.Rebuilds)
  (hnames : s.shape.Names fun name => Text.Yaml.isIdentifier name = true)

include hrebuilds hnames

theorem Written.standing {written : Directory} (h : Written format s x dir written)
    (hlegible : Legible format s x) : Standing format s path written :=
  ⟨h.free, result_runCase.2 (h.holds.checkCase hrebuilds hnames hlegible)⟩

/-- A write that fails leaves the case as it was, and any other makes it the case of the value. -/
theorem Standing.write (h : Standing format s path dir) (hlegible : Legible format s x) :
    Standing format s path (writeCase format s x dir).2 := by
  cases hencode : s.encode x with
  | error e =>
    rw [writeCase_of_encode_error hencode]
    exact h
  | ok bytes =>
    have hfits := Schema.exists_encode_iff.1 ⟨bytes, hencode⟩
    obtain ⟨written, hwrite, hwritten⟩ := writeCase_of_fits hfits hlegible h.free
    rw [hwrite]
    exact hwritten.standing hrebuilds hnames hlegible

/-- A case that passes does so after any writes. -/
theorem Standing.rewrites {xs : List α} (h : Standing format s path dir)
    (hlegible : ∀ x ∈ xs, Legible format s x) :
    Standing format s path (rewrites format s path xs dir) := by
  induction xs generalizing dir with
  | nil => exact h
  | cons x xs ih =>
    have hfirst := h.write hrebuilds hnames (hlegible x List.mem_cons_self)
    exact ih hfirst fun y hy => hlegible y (List.mem_cons_of_mem _ hy)

end Runs

/-- The directory at the path of a case, which is made if nothing is there. -/
def opened : Option CaseEntry → Option Directory
  | none => some []
  | some (.case dir) => some dir
  | some .plainFile => none

theorem writeCaseAt_eq {entry : Option CaseEntry} (h : opened entry = some dir) (s : Schema α)
    (x : α) (path : String) : writeCaseAt format s x path entry = writeCase format s x dir := by
  match entry, h with
  | none, rfl => rfl
  | some (.case _), rfl => rfl

/-- A value that cannot be encoded is an error, and the directory is left as it was. Any other value
    is written in all three forms, and the case passes, as it does after any further writes, of the
    same value or of others. -/
theorem runCase_of_writeCaseAt {s : Schema α} (hrebuilds : s.Rebuilds)
    (hnames : s.shape.Names fun name => Text.Yaml.isIdentifier name = true) {x : α}
    (hlegible : Legible format s x) (path : String) {entry : Option CaseEntry} {dir : Directory}
    (hopened : opened entry = some dir) (hfree : dir.Free) :
    (¬s.Fits x → ∃ e, writeCaseAt format s x path entry = (.error (.encode e), dir)) ∧
      (s.Fits x → ∃ written, writeCaseAt format s x path entry = (.ok (), written) ∧
        Written format s x dir written ∧ (runCase format s path written).result = .ok () ∧
        ∀ ys, (∀ y ∈ ys, Legible format s y) →
          (runCase format s path (rewrites format s path ys written)).result = .ok ()) := by
  rw [writeCaseAt_eq hopened]
  constructor
  · intro hfits
    cases hencode : s.encode x with
    | error e => exact ⟨e, writeCase_of_encode_error hencode dir⟩
    | ok bytes => exact absurd (Schema.exists_encode_iff.1 ⟨bytes, hencode⟩) hfits
  · intro hfits
    obtain ⟨written, hwrite, hwritten⟩ := writeCase_of_fits hfits hlegible hfree
    have hstanding : Standing format s path written := hwritten.standing hrebuilds hnames hlegible
    refine ⟨written, hwrite, hwritten, hstanding.passes, fun ys hys => ?_⟩
    exact (hstanding.rewrites hrebuilds hnames hys).passes

/-- The ticks are lost from the binary file, and an old file is in the place of the text. -/
theorem runCase_of_writeCaseAt_ticks :
    let s := Schema.record "log" (.cons "ticks" "ticks" (.list (.record "tick" .nil) 9)
      (.cons "slot" "slot" (.uint .u16) .nil))
    let x : BoundedList Unit 9 × BitVec 16 × Unit := (⟨[(), ()], by decide⟩, 7, ())
    let dir : Directory := [("meta.yaml", .file [1]), (valueFile, .file [255])]
    s.decode [6, 0, 0, 0, 7, 0] = .ok (⟨[], by decide⟩, 7, ()) ∧
      ∃ written, writeCaseAt Snappy.format s x "log" (some (.case dir)) = (.ok (), written) ∧
        (∃ block, Snappy.format.decompress block = .ok [6, 0, 0, 0, 7, 0] ∧
          written.read serializedFile = .ok block) ∧
        (runCase Snappy.format s "log" written).result = .ok () ∧
        (runCase Snappy.format s "log" (rewrites Snappy.format s "log" [x, x] written)).result
          = .ok () := by
  intro s x dir
  have hbinary : s.encode x = .ok [6, 0, 0, 0, 7, 0] ∧
      Ssz.decode s.shape [6, 0, 0, 0, 7, 0] = .ok (.container [.list [], .uint .u16 7]) := by
    decide +kernel +revert
  obtain ⟨hencode, hdecode⟩ := hbinary
  have hlawful : s.Lawful := Fields.Lawful.record
    (.cons (.list (Fields.Lawful.record Fields.lawful_nil "tick") 9)
      (.cons (Schema.lawful_uint .u16) Fields.lawful_nil)) "log"
  have hnames : s.shape.Names fun name => Text.Yaml.isIdentifier name = true := by
    refine .container (by decide) (by decide) fun field hfield => ?_
    rcases List.mem_cons.1 hfield with rfl | hfield
    · exact .list (.container (by decide) nofun nofun)
    · cases List.mem_singleton.1 hfield
      exact .uint
  have hkeeps : Snappy.format.Keeps [6, 0, 0, 0, 7, 0] := Snappy.keeps (by decide)
  have hlegible : Legible Snappy.format s x := by
    refine ⟨fun t ht => ?_, ?_, fun bytes hbytes => ?_⟩
    · cases ht
      decide
    · refine .container fun v hv => ?_
      rcases List.mem_cons.1 hv with rfl | hv
      · refine .list (by decide) fun item hitem => ?_
        obtain ⟨_, -, rfl⟩ := List.mem_map.1 hitem
        exact .container nofun
      · cases List.mem_singleton.1 hv
        exact .uint
    · cases hencode.symm.trans hbytes
      exact hkeeps
  have hfree : dir.Free := by
    show ∀ name ∈ caseFiles, dir.lookup name ≠ some .directory
    decide
  have hfits := Schema.exists_encode_iff.1 ⟨_, hencode⟩
  obtain ⟨written, hwrite, hwritten, hpasses, hagain⟩ :=
    (@runCase_of_writeCaseAt _ Snappy.format s hlawful.rebuilds hnames x hlegible "log"
      (some (.case dir)) dir rfl hfree).2 hfits
  obtain ⟨bytes, block, hbytes, hcompress, hread⟩ := hwritten.holds.serialized
  cases hencode.symm.trans hbytes
  obtain ⟨other, hother, hdecompress⟩ := hkeeps
  cases hcompress.symm.trans hother
  have hlost : s.ofValue (.container [.list [], .uint .u16 7]) = .ok (⟨[], by decide⟩, 7, ()) :=
    hlawful.ofValue_eq_ok.2 rfl
  refine ⟨Schema.decode_eq_ok.2 ⟨_, hdecode, hlost⟩, written, hwrite,
    ⟨block, hdecompress, hread⟩, hpasses, hagain [x, x] fun y hy => ?_⟩
  rw [(List.mem_pair.1 hy).elim id id]
  exact hlegible

end Fixture

end Ssz

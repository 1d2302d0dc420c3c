-- SUMMARY: A value is read back from the YAML line that is written for it.
import Ssz.Proofs.Text.Reads
import Ssz.Proofs.Text.Yaml.Parsing
import Ssz.Proofs.Text.Yaml.Schema

/-!
# The YAML round trip

Nothing that is written is escaped, so what comes back depends on how the schema
reads bare words. Decimal strings that fit 64 bits come back as numbers, which
the reader accepts in their place; all other strings come back as they were.
-/

namespace Ssz

open Text

namespace Text.Yaml

/-! ## Spelling -/

/-- What becomes of a string. -/
def spelling (s : String) : Tree :=
  match Decimal.read Number.bound s.toList with
  | .ok n => .number (.natural n)
  | .error _ => .string s

theorem spelling_of_lt {n : Nat} (h : n < Number.bound) :
    spelling (Decimal.render n) = .number (.natural n) := by
  rw [spelling, Decimal.toList_render, Decimal.read_digits h]

theorem spelling_of_ge {n : Nat} (h : Number.bound ≤ n) :
    spelling (Decimal.render n) = .string (Decimal.render n) := by
  rw [spelling, Decimal.toList_render, Decimal.read_digits_of_ge h]

theorem read_marked (bytes : Bytes) :
    Decimal.read Number.bound (Hex.marked bytes) = .error .invalidDigit := rfl

theorem spelling_hex (bytes : Bytes) :
    spelling (Hex.renderMarked bytes) = .string (Hex.renderMarked bytes) := by
  rw [spelling, Hex.toList_renderMarked, read_marked]

/-- Numbers are accepted in place of decimal strings. -/
theorem readable_spelling : Readable .yaml spelling where
  uint width n label := by
    by_cases h : n.toNat < Number.bound
    · have haccepts : Dialect.yaml.acceptsNumbers = true := rfl
      rw [spelling_of_lt h, uintOf, if_pos haccepts, readUint_render, inField]
    · rw [spelling_of_ge (Nat.not_lt.1 h), uintOf, readUint_render, inField]
  hex := spelling_hex

/-! ## Data -/

open FlowLine

theorem treeOfScalar_string (s : String) :
    Datum.treeOfScalar (.string s.toList) = .ok (.string s) :=
  congrArg (fun s => Except.ok (Tree.string s)) String.ofList_toList

/-- A string is quoted just if it would not be kept. -/
theorem ofScalar?_stringStyle {s : String} (h : ScalarText s) :
    ∃ scalar, Datum.ofScalar? none (stringStyle s.toList) s.toList = some scalar ∧
      Datum.treeOfScalar scalar = .ok (spelling s) := by
  have hempty : s.toList.isEmpty = false := List.isEmpty_eq_false_iff.2 h.ne_nil
  cases h with
  | decimal n =>
    rw [stringStyle, Decimal.isNumeral, hempty, Decimal.toList_render]
    by_cases hn : n < Number.bound
    · rw [spelling_of_lt hn, Decimal.read_digits hn]
      exact ⟨_, Core.resolve_digits hn, rfl⟩
    · have hge := Nat.not_lt.1 hn
      rw [spelling_of_ge hge, Decimal.read_digits_of_ge hge, ← Decimal.toList_render]
      exact ⟨_, rfl, treeOfScalar_string _⟩
  | hex bytes =>
    rw [stringStyle, Decimal.isNumeral, hempty, spelling_hex, Hex.toList_renderMarked, read_marked,
      ← Hex.toList_renderMarked]
    exact ⟨_, rfl, treeOfScalar_string _⟩

/-- The node of a tree means the tree, with its strings respelled. -/
def Means (t : Tree) : Prop :=
  ∃ d, Datum.ofNode? (treeNode t) = some d ∧ d.toTree = .ok (t.respell spelling)

theorem means_items {items : List Tree} (h : ∀ t ∈ items, Means t) :
    ∃ ds, Datum.ofItems? (itemNodes items) = some ds ∧
      Datum.toTrees ds = .ok (Tree.respellItems spelling items) := by
  induction items with
  | nil => exact ⟨[], rfl, rfl⟩
  | cons t items ih =>
    rw [List.forall_mem_cons] at h
    obtain ⟨d, hnode, htree⟩ := h.1
    obtain ⟨ds, hnodes, htrees⟩ := ih h.2
    refine ⟨d :: ds, ?_, ?_⟩
    · rw [itemNodes, Datum.ofItems?, hnode, hnodes]
      rfl
    · rw [Datum.toTrees, htree, htrees]
      rfl

/-- The datum of a key. -/
def keyDatum (key : String) : Datum := .scalar (.string key.toList)

theorem means_entries {entries : List (String × Tree)}
    (hkeys : ∀ entry ∈ entries, isIdentifier entry.1 = true)
    (h : ∀ entry ∈ entries, Means entry.2) :
    ∃ ds, Datum.ofEntries? (entryNodes entries) = some ds ∧
      Datum.toEntries ds = .ok (Tree.respellEntries spelling entries) ∧
      ds.map Prod.fst = entries.map fun entry => keyDatum entry.1 := by
  induction entries with
  | nil => exact ⟨[], rfl, rfl, rfl⟩
  | cons entry entries ih =>
    obtain ⟨key, t⟩ := entry
    rw [List.forall_mem_cons] at hkeys h
    obtain ⟨d, hnode, htree⟩ := h.1
    obtain ⟨ds, hnodes, htrees, hfst⟩ := ih hkeys.2 h.2
    have hkey : Datum.ofNode? (.scalar none .plain key.toList) = some (keyDatum key) := by
      have hresolve := Core.resolve_identifier (identifier_of_isIdentifier hkeys.1)
      rw [Datum.ofNode?, Datum.ofScalar?, Datum.ofUntagged?, hresolve]
      rfl
    refine ⟨(keyDatum key, d) :: ds, ?_, ?_, ?_⟩
    · rw [entryNodes, Datum.ofEntries?, hkey, hnode, hnodes]
      rfl
    · simp only [keyDatum, Datum.toEntries, htree, htrees, String.ofList_toList]
      rfl
    · rw [List.map_cons, List.map_cons, hfst]

theorem same_of_ne {key key' : String} (h : key ≠ key') :
    Datum.same (keyDatum key) (keyDatum key') = false := by
  have hne : Scalar.string key.toList ≠ .string key'.toList := fun heq =>
    h (String.toList_inj.1 (Scalar.string.inj heq))
  exact beq_eq_false_iff_ne.2 hne

theorem distinctKeys_of_nodup {keys : List String} {ds : List (Datum × Datum)}
    (hds : ds.map Prod.fst = keys.map keyDatum) (h : keys.Nodup) :
    Datum.distinctKeys ds = true := by
  induction ds generalizing keys with
  | nil => rfl
  | cons d ds ih =>
    obtain ⟨datum, value⟩ := d
    cases keys with
    | nil => cases hds
    | cons key keys =>
      obtain ⟨rfl, htail⟩ := List.cons.inj hds
      obtain ⟨hnew, hnodup⟩ := List.nodup_cons.1 h
      have hany : (ds.any fun d => Datum.same (keyDatum key) d.1) = false := by
        rw [List.any_eq_false]
        intro d hmem
        have hdatum : d.1 ∈ keys.map keyDatum := htail ▸ List.mem_map_of_mem (f := Prod.fst) hmem
        obtain ⟨key', hkey', heq⟩ := List.mem_map.1 hdatum
        have hne : key ≠ key' := fun heq => hnew (heq ▸ hkey')
        rw [← heq]
        exact Bool.eq_false_iff.1 (same_of_ne hne)
      have hcons : Datum.distinctKeys ((keyDatum key, value) :: ds)
          = (!(ds.any fun d => Datum.same (keyDatum key) d.1) && Datum.distinctKeys ds) := rfl
      rw [hcons, hany, ih htail hnodup]
      rfl

theorem means_of_writable {t : Tree} (h : Writable t) : Means t := by
  induction h with
  | null => exact ⟨_, rfl, rfl⟩
  | bool b => cases b <;> exact ⟨_, rfl, rfl⟩
  | string hs =>
    obtain ⟨scalar, hscalar, htree⟩ := ofScalar?_stringStyle hs
    refine ⟨.scalar scalar, ?_, htree⟩
    rw [treeNode, Datum.ofNode?, hscalar]
    rfl
  | array _ ih =>
    obtain ⟨ds, hnodes, htrees⟩ := means_items ih
    refine ⟨.sequence ds, ?_, ?_⟩
    · rw [treeNode, Datum.ofNode?, hnodes]
      rfl
    · rw [Datum.toTree, htrees]
      rfl
  | @object entries hnodup hkeys _ ih =>
    obtain ⟨ds, hnodes, htrees, hfst⟩ := means_entries hkeys ih
    have hdistinct : Datum.distinctKeys ds = true := by
      refine distinctKeys_of_nodup ?_ hnodup
      rw [hfst, List.map_map]
      rfl
    refine ⟨.mapping ds, ?_, ?_⟩
    · rw [treeNode, Datum.ofNode?, hnodes]
      simp only [Option.bind_eq_bind, Option.bind_some, hdistinct, if_true]
      rfl
    · have hkeep : Tree.ofEntries (Tree.respellEntries spelling entries)
          = Tree.respellEntries spelling entries :=
        Tree.ofEntries_of_nodup (Tree.keys_respellEntries entries ▸ hnodup)
      rw [Datum.toTree, htrees, Tree.respell]
      exact congrArg (fun entries => Except.ok (Tree.object entries)) hkeep

/-! ## Whole texts -/

theorem toTree_untag : (d : Datum) → d.untag.toTree = d.toTree
  | .scalar _ => rfl
  | .sequence _ => rfl
  | .mapping _ => rfl
  | .tagged _ d => toTree_untag d
termination_by structural d => d

theorem toTree_of_isNull {d : Datum} (h : d.isNull = true) : d.toTree = .ok .null := by
  unfold Datum.isNull at h
  split at h
  · rename_i heq
    rw [← toTree_untag, heq]
    rfl
  · cases h

theorem isWhiteSpace_of_startsToken {c : Char} (h : Lexer.startsToken c = true) :
    isWhiteSpace c = false := by
  have hsmall : c.toNat < 128 := by
    simp only [Lexer.startsToken, isInline, Bool.and_eq_true, decide_eq_true_eq] at h
    omega
  exact of_toNat_lt (fun c => Lexer.startsToken c = true → isWhiteSpace c = false) (by decide)
    hsmall h

theorem isBlank_line {t : Tree} (h : Writable t) : isBlank (printTree t ++ ['\n']) = false := by
  obtain ⟨c, cs, hprint, hc⟩ := exists_printTree h
  rw [hprint, List.cons_append, isBlank, List.all_cons, isWhiteSpace_of_startsToken hc,
    Bool.false_and]

theorem treeOfYaml_print {t : Tree} (h : Writable t) (hdepth : t.depth ≤ Node.maxDepth)
    (hnull : t.respell spelling ≠ .null) :
    treeOfYaml (print t).toList = .ok (t.respell spelling) := by
  obtain ⟨d, hnode, htree⟩ := means_of_writable h
  have hpresent : d.isNull = false := by
    rw [Bool.eq_false_iff]
    intro hd
    exact hnull (Except.ok.inj (htree.symm.trans (toTree_of_isNull hd)))
  rw [print, String.toList_ofList, treeOfYaml, isBlank_line h, nodeOf_line h hdepth]
  simp [hnode, hpresent, htree]

end Text.Yaml

theorem Shape.Renders.writable {shape : Shape} {v : Value} {t : Tree} (h : shape.Renders v t)
    (hnames : shape.Names fun name => Text.Yaml.isIdentifier name = true) : Text.Yaml.Writable t :=
  h.regular Text.Yaml.ScalarText.decimal Text.Yaml.ScalarText.hex (by decide) (by decide) hnames

/-- The line of a rendered value is read back to the value. -/
theorem Shape.Renders.fromYaml_print {shape : Shape} {v : Value} {t : Tree}
    (h : shape.Renders v t) (hnames : shape.Names fun name => Text.Yaml.isIdentifier name = true)
    (hdepth : t.depth ≤ Text.Yaml.Node.maxDepth) :
    fromYaml shape (Text.Yaml.FlowLine.print t) = .ok v := by
  have hnull : t.respell Text.Yaml.spelling ≠ .null := by
    intro hnull
    have hpresent := h.present Text.Yaml.readable_spelling shape.name
    rw [hnull] at hpresent
    cases hpresent
  rw [fromYaml, Text.Yaml.treeOfYaml_print (h.writable hnames) hdepth hnull]
  exact h.ofTree_respell Text.Yaml.readable_spelling hnames shape.name

/-- A well-formed value whose fields are named by identifiers is written as one line of YAML, and
    the line is read back to the value, unless its tree nests more deeply than YAML is read. -/
theorem fromYaml_toYaml {shape : Shape} {v : Value}
    (hnames : shape.Names fun name => Text.Yaml.isIdentifier name = true)
    (hcheck : shape.check v = .ok ()) (hdepth : ∀ t, toTree shape v = .ok t → t.depth ≤ 128) :
    ∃ text, toYaml shape v = .ok text ∧
      (∃ line, text.toList = line ++ ['\n'] ∧ ∀ c ∈ line, Text.Yaml.isBreak c = false) ∧
      fromYaml shape text = .ok v := by
  obtain ⟨t, ht⟩ := Shape.exists_renders hcheck
  have htree : toTree shape v = .ok t := toTree_eq_ok.2 ht
  have hwrite : toYaml shape v = .ok (Text.Yaml.FlowLine.print t) := by
    rw [toYaml, htree]
    rfl
  have hbreak (c : Char) (hc : c ∈ Text.Yaml.FlowLine.printTree t) : Text.Yaml.isBreak c = false :=
    Text.Yaml.isBreak_of_isInline
      (Text.Yaml.FlowLine.isInline_printTree (ht.writable hnames) c hc)
  exact ⟨_, hwrite, ⟨Text.Yaml.FlowLine.printTree t, String.toList_ofList, hbreak⟩,
    ht.fromYaml_print hnames (hdepth t htree)⟩

theorem fromYaml_toYaml_record :
    let shape : Shape := .container "record" [⟨"slot", "slot", .uint .u64⟩,
      ⟨"total_difficulty", "total_difficulty", .uint .u256⟩,
      ⟨"notes", "notes", .list (.byteList 4) 3⟩, ⟨"flags", "flags", .bitList 10⟩,
      ⟨"choice", "choice", .union [none, some (.list (.vector .bool 0) 2)]⟩]
    let v : Value := .container
      [.uint .u64 (BitVec.allOnes 64), .uint .u256 (BitVec.ofNat 256 0x10000000000000000),
        .list [.bytes [], .bytes [7, 9]], .bits (.ofList [true, false, true]), .union 0 none]
    ∃ text, toYaml shape v = .ok text ∧
      (∃ line, text.toList = line ++ ['\n'] ∧ ∀ c ∈ line, Text.Yaml.isBreak c = false) ∧
      fromYaml shape text = .ok v := by
  intro shape v
  have hnames : shape.Names fun name => Text.Yaml.isIdentifier name = true := by
    refine .container (by decide) (by decide) fun field hfield => ?_
    simp only [List.mem_cons, List.not_mem_nil, or_false] at hfield
    rcases hfield with rfl | rfl | rfl | rfl | rfl
    · exact .uint
    · exact .uint
    · exact .list .byteList
    · exact .bitList
    · refine .union fun choice hchoice => ?_
      simp only [List.mem_cons, reduceCtorEq, Option.some.injEq, List.not_mem_nil, or_false,
        false_or] at hchoice
      exact hchoice ▸ .list (.vector .bool)
  refine fromYaml_toYaml hnames rfl fun t ht => ?_
  cases ht
  decide

end Ssz

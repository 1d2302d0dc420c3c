-- SUMMARY: The characters of a flow line: names and scalars, and the classes they belong to.
import Ssz.Proofs.Text.Scalars
import Ssz.Proofs.Text.Tree
import Ssz.Text.Blank
import Ssz.Text.Yaml.Character
import Ssz.Text.Yaml.Core
import Ssz.Text.Yaml.FlowLine

/-!
# Flow lines

What is written is one line of printable characters. Names and scalars are made
of letters, digits and the underscore alone, none of which means anything to the
lexer; everything that does is put in by the writer.
-/

namespace Ssz.Text.Yaml

/-! ## Characters -/

/-- A character that a name may start with. -/
def isLetter (c : Char) : Bool := ('a' ≤ c && c ≤ 'z') || ('A' ≤ c && c ≤ 'Z') || c = '_'

/-- A character of a name or of a scalar. -/
def isPlainChar (c : Char) : Bool := isLetter c || Core.isDigit c

/-- A printable character that takes one byte. -/
def isInline (c : Char) : Bool := 0x20 ≤ c.toNat && c.toNat ≤ 0x7E

/-- What holds of the first 128 characters one by one. -/
theorem of_toNat_lt (p : Char → Prop) (h : ∀ n < 128, p (Char.ofNat n)) {c : Char}
    (hc : c.toNat < 128) : p c := by
  have hchar := h c.toNat hc
  rwa [Char.ofNat_toNat] at hchar

theorem toNat_isPlainChar {c : Char} (h : isPlainChar c = true) :
    48 ≤ c.toNat ∧ c.toNat ≤ 122 := by
  simp only [isPlainChar, isLetter, Core.isDigit, Bool.or_eq_true, Bool.and_eq_true,
    decide_eq_true_eq] at h
  obtain ((⟨hlow, hhigh⟩ | ⟨hlow, hhigh⟩) | rfl) | ⟨hlow, hhigh⟩ := h
  · exact ⟨Nat.le_trans (by decide) (UInt32.le_iff_toNat_le.1 hlow), UInt32.le_iff_toNat_le.1 hhigh⟩
  · exact ⟨Nat.le_trans (by decide) (UInt32.le_iff_toNat_le.1 hlow),
      Nat.le_trans (UInt32.le_iff_toNat_le.1 hhigh) (by decide)⟩
  · decide
  · exact ⟨UInt32.le_iff_toNat_le.1 hlow,
      Nat.le_trans (UInt32.le_iff_toNat_le.1 hhigh) (by decide)⟩

/-- A character of a name is none of those that mean something. -/
theorem ne_of_isPlainChar {c : Char} (h : isPlainChar c = true) {d : Char}
    (hd : isPlainChar d = false) : c ≠ d := by
  intro heq
  rw [heq, hd] at h
  cases h

theorem isPlainChar_of_isDigit {c : Char} (h : c.isDigit = true) : isPlainChar c = true := by
  simp only [Char.isDigit, Bool.and_eq_true, decide_eq_true_eq] at h
  simp only [isPlainChar, Core.isDigit, Bool.or_eq_true, Bool.and_eq_true, decide_eq_true_eq]
  exact .inr h

theorem isInline_of_isPlainChar {c : Char} (h : isPlainChar c = true) : isInline c = true := by
  have hc := toNat_isPlainChar h
  simp only [isInline, Bool.and_eq_true, decide_eq_true_eq]
  omega

theorem isBreak_of_isInline {c : Char} (h : isInline c = true) : isBreak c = false := by
  have hne {d : Char} (hd : isInline d = false) : c ≠ d := by
    intro heq
    rw [heq, hd] at h
    cases h
  simp only [isBreak, hne (d := '\n') rfl, hne (d := '\r') rfl, hne (d := '\u0085') rfl,
    hne (d := '\u2028') rfl, hne (d := '\u2029') rfl, decide_false, Bool.or_self]

theorem isAllowed_of_isInline {c : Char} (h : isInline c = true) : isAllowed c = true := by
  simp only [isInline, Bool.and_eq_true, decide_eq_true_eq] at h
  simp only [isAllowed, Bool.or_eq_true, Bool.and_eq_true, decide_eq_true_eq]
  omega

theorem utf8Size_of_isInline {c : Char} (h : isInline c = true) : c.utf8Size = 1 := by
  simp only [isInline, Bool.and_eq_true, decide_eq_true_eq] at h
  have hsmall : c.val ≤ 0x7F := UInt32.le_iff_toNat_le.2 (Nat.le_trans h.2 (by decide))
  exact Char.utf8Size_eq_one_iff.2 hsmall

/-! ## Names and scalars -/

/-- The spellings of null, true and false. -/
def reservedWords : List String :=
  ["~", "null", "Null", "NULL", "true", "True", "TRUE", "false", "False", "FALSE"]

/-- Whether a name is an identifier that reads as a string, and short enough to stand before a
    colon. -/
def isIdentifier (name : String) : Bool :=
  name.toList.head?.any isLetter && name.toList.all isPlainChar && name.length < 1024
    && !reservedWords.contains name

/-- The strings that stand for numbers and bytes. -/
inductive ScalarText : String → Prop
  | decimal (n : Nat) : ScalarText (Decimal.render n)
  | hex (bytes : Bytes) : ScalarText (Hex.renderMarked bytes)

theorem isPlainChar_digitChar : ∀ d < 16, isPlainChar (Nat.digitChar d) = true := by decide

theorem isPlainChar_of_mem_hexDigits {bytes : Bytes} {c : Char} (h : c ∈ Hex.digits bytes) :
    isPlainChar c = true := by
  obtain ⟨b, -, hc⟩ := List.mem_flatMap.1 h
  have hb : b.toNat < 256 := b.toNat_lt
  simp only [List.mem_cons, List.not_mem_nil, or_false] at hc
  obtain rfl | rfl := hc
  · exact isPlainChar_digitChar _ (by omega)
  · exact isPlainChar_digitChar _ (Nat.mod_lt _ (by decide))

theorem ScalarText.isPlainChar {s : String} (h : ScalarText s) :
    ∀ c ∈ s.toList, isPlainChar c = true := by
  intro c hc
  cases h with
  | decimal n =>
    rw [Decimal.toList_render] at hc
    exact isPlainChar_of_isDigit (Decimal.isDigit_of_mem_digits hc)
  | hex bytes =>
    rw [Hex.toList_renderMarked, Hex.marked, List.mem_cons, List.mem_cons] at hc
    obtain rfl | rfl | hc := hc
    · rfl
    · rfl
    · exact isPlainChar_of_mem_hexDigits hc

theorem ScalarText.ne_nil {s : String} (h : ScalarText s) : s.toList ≠ [] := by
  cases h with
  | decimal n =>
    rw [Decimal.toList_render]
    exact Decimal.digits_ne_nil n
  | hex bytes =>
    rw [Hex.toList_renderMarked]
    exact List.cons_ne_nil _ _

/-- What there is to an identifier. -/
structure Identifier (name : List Char) : Prop where
  ne_nil : name ≠ []
  head : ∀ c ∈ name.head?, isLetter c = true
  plain : ∀ c ∈ name, isPlainChar c = true
  short : name.length < 1024
  meaning : name ∉ reservedWords.map String.toList

theorem identifier_of_isIdentifier {name : String} (h : isIdentifier name = true) :
    Identifier name.toList := by
  simp only [isIdentifier, Bool.and_eq_true, List.all_eq_true, decide_eq_true_eq,
    Bool.not_eq_true', List.contains_eq_mem, decide_eq_false_iff_not, Option.any_eq_true] at h
  obtain ⟨⟨⟨⟨c, hhead, hletter⟩, hplain⟩, hshort⟩, hmeaning⟩ := h
  constructor
  case ne_nil =>
    intro hnil
    rw [hnil] at hhead
    cases hhead
  case head =>
    intro d hd
    cases hhead.symm.trans hd
    exact hletter
  case plain => exact hplain
  case short => exact hshort
  case meaning =>
    intro hmem
    obtain ⟨word, hword, heq⟩ := List.mem_map.1 hmem
    exact hmeaning (String.toList_inj.1 heq ▸ hword)

/-! ## Written trees -/

/-- The trees that values are rendered to, with identifiers for names. -/
abbrev Writable (t : Tree) : Prop := t.Regular ScalarText fun name => isIdentifier name = true

namespace FlowLine

theorem isInline_printString {s : String} (h : ScalarText s) :
    ∀ c ∈ printString s.toList, isInline c = true := by
  have hs : ∀ c ∈ s.toList, isInline c = true := fun c hc =>
    isInline_of_isPlainChar (h.isPlainChar c hc)
  intro c hc
  unfold printString at hc
  split at hc
  · exact hs c hc
  · simp only [List.mem_append, List.mem_cons, List.not_mem_nil, or_false] at hc
    obtain (rfl | hc) | rfl := hc
    · rfl
    · exact hs c hc
    · rfl

theorem isInline_name {name : String} (h : isIdentifier name = true) :
    ∀ c ∈ name.toList, isInline c = true := fun c hc =>
  isInline_of_isPlainChar ((identifier_of_isIdentifier h).plain c hc)

theorem isInline_printItems {items : List Tree}
    (h : ∀ t ∈ items, ∀ c ∈ printTree t, isInline c = true) :
    ∀ c ∈ printItems items, isInline c = true := by
  induction items with
  | nil => simp [printItems, isInline]
  | cons t items ih =>
    rw [List.forall_mem_cons] at h
    intro c hc
    simp only [printItems, List.mem_append, List.mem_cons, List.cons_append] at hc
    obtain rfl | rfl | hc | hc := hc
    · rfl
    · rfl
    · exact h.1 c hc
    · exact ih h.2 c hc

theorem isInline_printEntries {entries : List (String × Tree)}
    (hkeys : ∀ entry ∈ entries, isIdentifier entry.1 = true)
    (h : ∀ entry ∈ entries, ∀ c ∈ printTree entry.2, isInline c = true) :
    ∀ c ∈ printEntries entries, isInline c = true := by
  induction entries with
  | nil => simp [printEntries, isInline]
  | cons entry entries ih =>
    rw [List.forall_mem_cons] at hkeys h
    intro c hc
    simp only [printEntries, List.mem_append, List.mem_cons, List.cons_append,
      List.append_assoc] at hc
    obtain rfl | rfl | hc | rfl | rfl | hc | hc := hc
    · rfl
    · rfl
    · exact isInline_name hkeys.1 c hc
    · rfl
    · rfl
    · exact h.1 c hc
    · exact ih hkeys.2 h.2 c hc

/-- What is written is printable throughout, so it has no line break. -/
theorem isInline_printTree {t : Tree} (h : Writable t) :
    ∀ c ∈ printTree t, isInline c = true := by
  induction h with
  | null => exact List.all_eq_true.1 rfl
  | bool b => cases b <;> exact List.all_eq_true.1 rfl
  | string hs => exact isInline_printString hs
  | @array items _ ih =>
    intro c hc
    cases items with
    | nil =>
      simp only [printTree, List.mem_cons, List.not_mem_nil, or_false] at hc
      obtain rfl | rfl := hc <;> rfl
    | cons t items =>
      rw [List.forall_mem_cons] at ih
      simp only [printTree, List.mem_append, List.mem_cons, List.cons_append] at hc
      obtain rfl | hc | hc := hc
      · rfl
      · exact ih.1 c hc
      · exact isInline_printItems ih.2 c hc
  | @object entries _ hkeys _ ih =>
    intro c hc
    cases entries with
    | nil =>
      simp only [printTree, List.mem_cons, List.not_mem_nil, or_false] at hc
      obtain rfl | rfl := hc <;> rfl
    | cons entry entries =>
      rw [List.forall_mem_cons] at hkeys ih
      simp only [printTree, List.mem_append, List.mem_cons, List.cons_append,
        List.append_assoc] at hc
      obtain rfl | hc | rfl | rfl | hc | hc := hc
      · rfl
      · exact isInline_name hkeys.1 c hc
      · rfl
      · rfl
      · exact ih.1 c hc
      · exact isInline_printEntries hkeys.2 ih.2 c hc

end FlowLine

/-! ## Cells of a line -/

/-- The cells of the first line of a text, from character `k` on. -/
def lineCells (k : Nat) : List Char → List Cell
  | [] => []
  | c :: cs => ⟨c, k, 0, k⟩ :: lineCells (k + 1) cs

@[simp] theorem length_lineCells (k : Nat) (cs : List Char) :
    (lineCells k cs).length = cs.length := by
  induction cs generalizing k with
  | nil => rfl
  | cons c cs ih => rw [lineCells, List.length_cons, List.length_cons, ih]

theorem layOut_line {cs : List Char} (h : ∀ c ∈ cs, isInline c = true) (k : Nat) :
    Cell.layOut k 0 k (cs ++ ['\n']) = lineCells k (cs ++ ['\n']) := by
  induction cs generalizing k with
  | nil => rfl
  | cons c cs ih =>
    rw [List.forall_mem_cons] at h
    have hbreak := isBreak_of_isInline h.1
    simp only [List.cons_append, Cell.layOut, lineCells, hbreak, Bool.false_and, Bool.false_eq_true,
      if_false, utf8Size_of_isInline h.1, ih h.2]

theorem ofText_line {cs : List Char} (h : ∀ c ∈ cs, isInline c = true) :
    Cell.ofText (cs ++ ['\n']) = lineCells 0 (cs ++ ['\n']) := layOut_line h 0

theorem all_isAllowed_line {cs : List Char} (h : ∀ c ∈ cs, isInline c = true) :
    (cs ++ ['\n']).all isAllowed = true := by
  rw [List.all_append, Bool.and_eq_true, List.all_eq_true]
  exact ⟨fun c hc => isAllowed_of_isInline (h c hc), rfl⟩

end Ssz.Text.Yaml

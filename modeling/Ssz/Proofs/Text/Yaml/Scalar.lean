-- SUMMARY: Reading plain and quoted scalars made of letters and digits.
import Ssz.Proofs.Text.Yaml.Line
import Ssz.Text.Yaml.Lexer.Scalar

/-!
# Scalars of a flow line

A word of letters and digits is read in one piece, plain up to where a plain
scalar has to end, and quoted up to its closing quote. A plain scalar that ends
its line takes the line break with it.
-/

namespace Ssz.Text.Yaml

theorem lineCells_append (k : Nat) (cs ds : List Char) :
    lineCells k (cs ++ ds) = lineCells k cs ++ lineCells (k + cs.length) ds := by
  induction cs generalizing k with
  | nil => rfl
  | cons c cs ih =>
    rw [List.cons_append, lineCells, lineCells, ih, List.length_cons, List.cons_append,
      Nat.add_assoc, Nat.add_comm 1]

theorem isSpace_of_isPlainChar {c : Char} (h : isPlainChar c = true) : isSpace c = false := by
  simp only [isSpace, ne_of_isPlainChar h (d := ' ') rfl, ne_of_isPlainChar h (d := '\t') rfl,
    decide_false, Bool.or_self]

theorem endsFlowPlain_of_isPlainChar {c : Char} (h : isPlainChar c = true) :
    endsFlowPlain c = false := by
  simp only [endsFlowPlain, ne_of_isPlainChar h (d := ',') rfl, ne_of_isPlainChar h (d := '[') rfl,
    ne_of_isPlainChar h (d := ']') rfl, ne_of_isPlainChar h (d := '\x7b') rfl,
    ne_of_isPlainChar h (d := '\x7d') rfl, decide_false, Bool.or_self]

theorem atMarker_of_ne {c : Cell} {d : Char} (h : c.char ≠ d) (rest : List Cell) :
    atMarker d (c :: rest) = false := by
  unfold atMarker
  split
  · rename_i heq
    cases heq
    simp [h]
  · rfl

section Words

variable {flow : Bool} {word : List Char} {rest : List Cell}

/-- A piece of a plain scalar goes on to where it has to end. -/
theorem plainPiece_word (hword : ∀ c ∈ word, isPlainChar c = true)
    (hend : plainPiece flow rest = some ([], rest)) (k : Nat) :
    plainPiece flow (lineCells k word ++ rest) = some (word, rest) := by
  induction word generalizing k with
  | nil => exact hend
  | cons c word ih =>
    rw [List.forall_mem_cons] at hword
    have hbreak := isBreak_of_isInline (isInline_of_isPlainChar hword.1)
    simp only [lineCells, List.cons_append, plainPiece, isSpace_of_isPlainChar hword.1, hbreak,
      ne_of_isPlainChar hword.1 (d := ':') rfl, endsFlowPlain_of_isPlainChar hword.1,
      ih hword.2 (k + 1)]
    simp

theorem atDocumentMarker_word (hne : word ≠ []) (hword : ∀ c ∈ word, isPlainChar c = true)
    (k : Nat) : atDocumentMarker (lineCells k word ++ rest) = false := by
  obtain ⟨c, word, rfl⟩ := List.exists_cons_of_ne_nil hne
  have hmarker {d : Char} (hd : isPlainChar d = false) :
      atMarker d (⟨c, k, 0, k⟩ :: (lineCells (k + 1) word ++ rest)) = false :=
    atMarker_of_ne (ne_of_isPlainChar (hword c List.mem_cons_self) hd) _
  rw [lineCells, List.cons_append, atDocumentMarker, hmarker rfl, hmarker rfl, Bool.or_self]

theorem startsWith_comment_word (hne : word ≠ []) (hword : ∀ c ∈ word, isPlainChar c = true)
    (k : Nat) : startsWith '#' (lineCells k word ++ rest) = false := by
  obtain ⟨c, word, rfl⟩ := List.exists_cons_of_ne_nil hne
  simp only [lineCells, List.cons_append, startsWith,
    ne_of_isPlainChar (hword c List.mem_cons_self) (d := '#') rfl, decide_false]

/-- A plain scalar that ends without a blank is read in one piece. -/
theorem readPlain_word (hne : word ≠ []) (hword : ∀ c ∈ word, isPlainChar c = true)
    (hend : plainPiece flow rest = some ([], rest)) (hspace : startsSpace rest = false)
    (hbreak : startsBreak rest = false) (fuel : Nat) (indent : Int) (k : Nat) :
    readPlain (fuel + 1) flow indent (lineCells k word ++ rest) = some (word, false, rest) := by
  simp [readPlain, plainFrom, atDocumentMarker_word hne hword, startsWith_comment_word hne hword,
    plainPiece_word hword hend, hspace, hbreak, hne, Gap.text, Gap.none]

/-- A plain scalar on a line of its own takes the line break with it. -/
theorem readPlain_last (hne : word ≠ []) (hword : ∀ c ∈ word, isPlainChar c = true) (fuel : Nat)
    (indent : Int) (k : Nat) :
    readPlain (fuel + 3) false indent (lineCells k (word ++ ['\n'])) = some (word, true, []) := by
  have hend (k : Nat) : plainPiece false [⟨'\n', k, 0, k⟩] = some ([], [⟨'\n', k, 0, k⟩]) := rfl
  have hgap (k : Nat) : readGap indent (fuel + 2) ⟨[], [], [], false⟩ [⟨'\n', k, 0, k⟩]
      = some (⟨[], ['\n'], [], true⟩, []) := rfl
  have hrest : plainFrom false indent (fuel + 2) word ⟨[], ['\n'], [], true⟩ []
      = some (word, true, []) := rfl
  have hstarts (k : Nat) : startsSpace [⟨'\n', k, 0, k⟩] = false ∧
      startsBreak [⟨'\n', k, 0, k⟩] = true := ⟨rfl, rfl⟩
  rw [lineCells_append, readPlain, plainFrom]
  simp [atDocumentMarker_word hne hword, startsWith_comment_word hne hword, lineCells,
    plainPiece_word hword (hend _), hstarts, hgap, hrest, hne, Gap.text, Gap.none]

theorem quotedPiece_word {q : Cell} (hq : q.char = '\'') (hrest : startsWith '\'' rest = false)
    (hword : ∀ c ∈ word, isPlainChar c = true) {fuel : Nat} (hfuel : word.length < fuel) (k : Nat) :
    quotedPiece true fuel (lineCells k word ++ q :: rest) = some (word, false, q :: rest) := by
  induction word generalizing k fuel with
  | nil =>
    obtain ⟨fuel, rfl⟩ := Nat.exists_eq_succ_of_ne_zero (Nat.ne_of_gt hfuel)
    simp [lineCells, quotedPiece, hq, hrest, isSpace, isBreak]
  | cons c word ih =>
    obtain ⟨fuel, rfl⟩ := Nat.exists_eq_succ_of_ne_zero (Nat.ne_of_gt (Nat.zero_lt_of_lt hfuel))
    rw [List.forall_mem_cons] at hword
    have hbreak := isBreak_of_isInline (isInline_of_isPlainChar hword.1)
    have hquote := ne_of_isPlainChar hword.1 (d := '\'') rfl
    simp [lineCells, quotedPiece, isSpace_of_isPlainChar hword.1, hbreak, hquote,
      ih hword.2 (Nat.lt_of_succ_lt_succ hfuel)]

theorem readQuotedScalar_word {q : Cell} (hq : q.char = '\'') (hrest : startsWith '\'' rest = false)
    (hne : word ≠ []) (hword : ∀ c ∈ word, isPlainChar c = true) {fuel : Nat}
    (hfuel : word.length < fuel) (k : Nat) :
    readQuotedScalar (fuel + 1) true (lineCells k word ++ q :: rest) = some (word, rest) := by
  have hcells : (lineCells k word ++ q :: rest).isEmpty = false := by
    cases word <;> rfl
  simp [readQuotedScalar, quotedFrom, atDocumentMarker_word hne hword, hcells,
    quotedPiece_word hq hrest hword hfuel, startsWith, hq]

end Words

end Ssz.Text.Yaml

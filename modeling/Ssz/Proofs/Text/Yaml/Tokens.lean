-- SUMMARY: The tokens of a flow line.
import Ssz.Proofs.Text.Yaml.Lexer

/-!
# Tokens of flow lines

The lexer goes through a written tree as the writer did. Inside a flow collection
a tree is followed by a comma or a bracket, where a plain scalar has to end; a
scalar that is a whole line ends with it.
-/

namespace Ssz.Text.Yaml

namespace FlowLine

/-- The style in which a string is written. -/
def stringStyle (s : List Char) : Style :=
  if Decimal.isNumeral Number.bound s then .plain else .quoted

mutual

/-- The tokens of a printed tree. -/
def treeTokens : Tree → List Token
  | .null => [.scalar .plain ['n', 'u', 'l', 'l']]
  | .bool true => [.scalar .plain ['t', 'r', 'u', 'e']]
  | .bool false => [.scalar .plain ['f', 'a', 'l', 's', 'e']]
  | .number n => [.scalar .plain n.render.toList]
  | .string s => [.scalar (stringStyle s.toList) s.toList]
  | .array [] => [.flowSequenceStart, .flowSequenceEnd]
  | .array (t :: items) => .flowSequenceStart :: treeTokens t ++ itemTokens items
  | .object [] => [.flowMappingStart, .flowMappingEnd]
  | .object ((key, t) :: entries) =>
    .flowMappingStart :: .key :: .scalar .plain key.toList :: .value :: treeTokens t
      ++ entryTokens entries
termination_by structural t => t

def itemTokens : List Tree → List Token
  | [] => [.flowSequenceEnd]
  | t :: items => .flowEntry :: treeTokens t ++ itemTokens items
termination_by structural items => items

def entryTokens : List (String × Tree) → List Token
  | [] => [.flowMappingEnd]
  | (key, t) :: entries =>
    .flowEntry :: .key :: .scalar .plain key.toList :: .value :: treeTokens t ++ entryTokens entries
termination_by structural entries => entries

end

/-! ## What the parts start with -/

theorem exists_printItems (items : List Tree) :
    ∃ d cs, printItems items = d :: cs ∧ endsFlowPlain d = true := by
  cases items with
  | nil => exact ⟨_, _, rfl, rfl⟩
  | cons t items => exact ⟨_, _, rfl, rfl⟩

theorem exists_printEntries (entries : List (String × Tree)) :
    ∃ d cs, printEntries entries = d :: cs ∧ endsFlowPlain d = true := by
  cases entries with
  | nil => exact ⟨_, _, rfl, rfl⟩
  | cons entry entries => exact ⟨_, _, rfl, rfl⟩

theorem exists_name {name : String} (h : isIdentifier name = true) :
    ∃ c cs, name.toList = c :: cs ∧ Lexer.startsToken c = true := by
  have hname := identifier_of_isIdentifier h
  obtain ⟨c, cs, heq⟩ := List.exists_cons_of_ne_nil hname.ne_nil
  refine ⟨c, cs, heq, Lexer.startsToken_of_isPlainChar (hname.plain c ?_)⟩
  rw [heq]
  exact List.mem_cons_self

theorem exists_printTree {t : Tree} (h : Writable t) :
    ∃ c cs, printTree t = c :: cs ∧ Lexer.startsToken c = true := by
  cases h with
  | null => exact ⟨_, _, rfl, rfl⟩
  | bool b => cases b <;> exact ⟨_, _, rfl, rfl⟩
  | @string s hs =>
    obtain ⟨c, cs, heq⟩ := List.exists_cons_of_ne_nil hs.ne_nil
    unfold printTree printString
    split
    · refine ⟨c, cs, heq, Lexer.startsToken_of_isPlainChar (hs.isPlainChar c ?_)⟩
      rw [heq]
      exact List.mem_cons_self
    · exact ⟨_, _, rfl, rfl⟩
  | @array items => cases items <;> exact ⟨_, _, rfl, rfl⟩
  | @object entries => cases entries <;> exact ⟨_, _, rfl, rfl⟩

end FlowLine

namespace Lexer

open FlowLine

variable {fuel depth : Nat} {keyAllowed : Bool} {cs : List Char} {read : List Token}

/-- Inside a flow collection, the lexer goes from the start of the tree to what follows it. -/
def ReadsTree (t : Tree) : Prop :=
  ∀ fuel depth keyAllowed d cs read, endsFlowPlain d = true →
    Moves (At fuel (depth + 1) (printTree t ++ d :: cs) keyAllowed read)
      (At fuel (depth + 1) (d :: cs) false ((treeTokens t).reverse ++ read))

/-- A tree after a blank. -/
theorem moves_spaced {t : Tree} (hwritable : Writable t) (h : ReadsTree t) {d : Char}
    (hd : endsFlowPlain d = true) :
    Moves (At fuel (depth + 1) (' ' :: (printTree t ++ d :: cs)) keyAllowed read)
      (At fuel (depth + 1) (d :: cs) false ((treeTokens t).reverse ++ read)) := by
  obtain ⟨c, cs', heq, hc⟩ := exists_printTree hwritable
  have hspace : Moves (At fuel (depth + 1) (' ' :: (printTree t ++ d :: cs)) keyAllowed read)
      (At fuel (depth + 1) (printTree t ++ d :: cs) keyAllowed read) := by
    rw [heq]
    exact moves_space hc
  exact hspace.trans (h fuel depth keyAllowed d cs read hd)

theorem moves_items {items : List Tree} (hwritable : ∀ t ∈ items, Writable t)
    (h : ∀ t ∈ items, ReadsTree t) :
    Moves (At fuel (depth + 1) (printItems items ++ cs) false read)
      (At fuel depth cs false ((itemTokens items).reverse ++ read)) := by
  induction items generalizing read with
  | nil => exact moves_closeSequence
  | cons t items ih =>
    rw [List.forall_mem_cons] at hwritable h
    obtain ⟨d, cs', heq, hd⟩ := exists_printItems items
    have htree : Moves (At fuel (depth + 1) (' ' :: (printTree t ++ (printItems items ++ cs))) true
          (.flowEntry :: read))
        (At fuel (depth + 1) (printItems items ++ cs) false
          ((treeTokens t).reverse ++ .flowEntry :: read)) := by
      rw [heq]
      exact moves_spaced hwritable.1 h.1 hd
    simp only [printItems, itemTokens, List.cons_append, List.append_assoc, List.reverse_cons,
      List.reverse_append, List.nil_append]
    exact moves_comma.trans (htree.trans (ih hwritable.2 h.2))

theorem moves_array {items : List Tree} (hwritable : ∀ t ∈ items, Writable t)
    (h : ∀ t ∈ items, ReadsTree t) :
    Moves (At fuel depth (printTree (.array items) ++ cs) keyAllowed read)
      (At fuel depth cs false ((treeTokens (.array items)).reverse ++ read)) := by
  cases items with
  | nil => exact moves_openSequence.trans moves_closeSequence
  | cons t items =>
    rw [List.forall_mem_cons] at hwritable h
    obtain ⟨d, cs', heq, hd⟩ := exists_printItems items
    have htree : Moves (At fuel (depth + 1) (printTree t ++ (printItems items ++ cs)) true
          (.flowSequenceStart :: read))
        (At fuel (depth + 1) (printItems items ++ cs) false
          ((treeTokens t).reverse ++ .flowSequenceStart :: read)) := by
      rw [heq]
      exact h.1 fuel depth true d _ _ hd
    simp only [printTree, treeTokens, List.cons_append, List.append_assoc, List.reverse_cons,
      List.reverse_append, List.nil_append]
    exact moves_openSequence.trans (htree.trans (moves_items hwritable.2 h.2))

/-- An entry, from its name on. -/
theorem moves_entry {key : String} {t : Tree} (hkey : isIdentifier key = true)
    (hwritable : Writable t) (h : ReadsTree t) {d : Char} (hd : endsFlowPlain d = true) :
    Moves (At fuel (depth + 1) (key.toList ++ ':' :: ' ' :: (printTree t ++ d :: cs)) true read)
      (At fuel (depth + 1) (d :: cs) false
        ((treeTokens t).reverse ++ .value :: .scalar .plain key.toList :: .key :: read)) :=
  (moves_key (identifier_of_isIdentifier hkey)).trans (moves_spaced hwritable h hd)

theorem moves_entries {entries : List (String × Tree)}
    (hkeys : ∀ entry ∈ entries, isIdentifier entry.1 = true)
    (hwritable : ∀ entry ∈ entries, Writable entry.2) (h : ∀ entry ∈ entries, ReadsTree entry.2) :
    Moves (At fuel (depth + 1) (printEntries entries ++ cs) false read)
      (At fuel depth cs false ((entryTokens entries).reverse ++ read)) := by
  induction entries generalizing read with
  | nil => exact moves_closeMapping
  | cons entry entries ih =>
    obtain ⟨key, t⟩ := entry
    rw [List.forall_mem_cons] at hkeys hwritable h
    obtain ⟨d, cs', heq, hd⟩ := exists_printEntries entries
    obtain ⟨c, name, hname, hc⟩ := exists_name hkeys.1
    have hspace : Moves
        (At fuel (depth + 1) (' ' :: (key.toList ++ ':' :: ' ' ::
          (printTree t ++ (printEntries entries ++ cs)))) true (.flowEntry :: read))
        (At fuel (depth + 1) (key.toList ++ ':' :: ' ' ::
          (printTree t ++ (printEntries entries ++ cs))) true (.flowEntry :: read)) := by
      rw [hname]
      exact moves_space hc
    have hentry : Moves
        (At fuel (depth + 1) (key.toList ++ ':' :: ' ' ::
          (printTree t ++ (printEntries entries ++ cs))) true (.flowEntry :: read))
        (At fuel (depth + 1) (printEntries entries ++ cs) false ((treeTokens t).reverse ++
          .value :: .scalar .plain key.toList :: .key :: .flowEntry :: read)) := by
      rw [heq]
      exact moves_entry hkeys.1 hwritable.1 h.1 hd
    simp only [printEntries, entryTokens, List.cons_append, List.append_assoc, List.reverse_cons,
      List.reverse_append, List.nil_append]
    exact moves_comma.trans (hspace.trans (hentry.trans (ih hkeys.2 hwritable.2 h.2)))

theorem moves_object {entries : List (String × Tree)}
    (hkeys : ∀ entry ∈ entries, isIdentifier entry.1 = true)
    (hwritable : ∀ entry ∈ entries, Writable entry.2) (h : ∀ entry ∈ entries, ReadsTree entry.2) :
    Moves (At fuel depth (printTree (.object entries) ++ cs) keyAllowed read)
      (At fuel depth cs false ((treeTokens (.object entries)).reverse ++ read)) := by
  cases entries with
  | nil => exact moves_openMapping.trans moves_closeMapping
  | cons entry entries =>
    obtain ⟨key, t⟩ := entry
    rw [List.forall_mem_cons] at hkeys hwritable h
    obtain ⟨d, cs', heq, hd⟩ := exists_printEntries entries
    have hentry : Moves
        (At fuel (depth + 1) (key.toList ++ ':' :: ' ' ::
          (printTree t ++ (printEntries entries ++ cs))) true (.flowMappingStart :: read))
        (At fuel (depth + 1) (printEntries entries ++ cs) false ((treeTokens t).reverse ++
          .value :: .scalar .plain key.toList :: .key :: .flowMappingStart :: read)) := by
      rw [heq]
      exact moves_entry hkeys.1 hwritable.1 h.1 hd
    simp only [printTree, treeTokens, List.cons_append, List.append_assoc, List.reverse_cons,
      List.reverse_append, List.nil_append]
    exact moves_openMapping.trans (hentry.trans (moves_entries hkeys.2 hwritable.2 h.2))

theorem readsTree {t : Tree} (h : Writable t) : ReadsTree t := by
  induction h with
  | null => exact fun _ _ _ _ _ _ hd => moves_plain (by decide) (List.all_eq_true.1 rfl) hd
  | bool b =>
    cases b <;> exact fun _ _ _ _ _ _ hd => moves_plain (by decide) (List.all_eq_true.1 rfl) hd
  | @string s hs =>
    intro fuel depth keyAllowed d cs read hd
    have hquote : d ≠ '\'' := by
      intro heq
      rw [heq] at hd
      cases hd
    unfold printTree treeTokens printString stringStyle
    split
    · exact moves_plain hs.ne_nil hs.isPlainChar hd
    · simpa using moves_quoted hs.ne_nil hs.isPlainChar hquote
  | array hitems ih => exact fun _ _ _ _ _ _ _ => moves_array hitems ih
  | object _ hkeys hentries ih => exact fun _ _ _ _ _ _ _ => moves_object hkeys hentries ih

/-- A tree on a line of its own. -/
theorem moves_line {t : Tree} (h : Writable t) :
    Moves (At fuel 0 (printTree t ++ ['\n']) keyAllowed read)
      (At fuel 0 [] true ((treeTokens t).reverse ++ read)) := by
  cases h with
  | null => exact moves_plain_last (by decide) (List.all_eq_true.1 rfl)
  | bool b => cases b <;> exact moves_plain_last (by decide) (List.all_eq_true.1 rfl)
  | @string s hs =>
    unfold printTree treeTokens printString stringStyle
    split
    · exact moves_plain_last hs.ne_nil hs.isPlainChar
    · simpa using (moves_quoted hs.ne_nil hs.isPlainChar (by decide)).trans moves_break
  | array hitems =>
    exact (moves_array hitems fun t ht => readsTree (hitems t ht)).trans moves_break
  | object _ hkeys hentries =>
    exact (moves_object hkeys hentries fun entry hentry =>
      readsTree (hentries entry hentry)).trans moves_break

end Lexer

/-- The tokens of a flow line are those of its tree. -/
theorem tokens?_line {t : Tree} (h : Writable t) :
    tokens? (FlowLine.printTree t ++ ['\n']) = some (FlowLine.treeTokens t ++ [.streamEnd]) := by
  have hinline := FlowLine.isInline_printTree h
  have hstart : Lexer.At ((FlowLine.printTree t ++ ['\n']).length + 2) 0
      (FlowLine.printTree t ++ ['\n']) true [] (Lexer.start (FlowLine.printTree t ++ ['\n'])) := by
    refine ⟨0, none, [], Lexer.free_none, by simp, rfl, by omega, ?_⟩
    rw [Lexer.start, ofText_line hinline]
    rfl
  obtain ⟨lx, ⟨n, hn, hrun⟩, hend⟩ := Lexer.moves_line h _ hstart
  have hcells : (Lexer.start (FlowLine.printTree t ++ ['\n'])).rest.length
      = (FlowLine.printTree t ++ ['\n']).length := by
    rw [Lexer.start, ofText_line hinline, length_lineCells]
  -- No more rounds than characters were taken, so there is one left for the end.
  obtain ⟨steps, hsteps⟩ :
      ∃ steps, (FlowLine.printTree t ++ ['\n']).length + 2 = steps + 1 + n :=
    ⟨(FlowLine.printTree t ++ ['\n']).length + 1 - n, by omega⟩
  rw [tokens?, all_isAllowed_line hinline, if_pos rfl, hsteps, hrun, Lexer.run_end hend]
  simp

end Ssz.Text.Yaml

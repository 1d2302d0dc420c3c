-- SUMMARY: The node of a flow line: its tokens are parsed to events, and those composed.
import Ssz.Proofs.Text.Yaml.Composition
import Ssz.Proofs.Text.Yaml.Tokens
import Ssz.Text.Codec

/-!
# Parsing flow lines

The grammar takes a token in every round that does not end an entry, so the
number of tokens is fuel enough. Keys are announced by the lexer, and no place of
a key or of a value is left empty.
-/

namespace Ssz.Text.Yaml

/-! ## Nodes of trees -/

namespace FlowLine

mutual

/-- The node of a printed tree. -/
def treeNode : Tree → Node
  | .null => .scalar none .plain ['n', 'u', 'l', 'l']
  | .bool true => .scalar none .plain ['t', 'r', 'u', 'e']
  | .bool false => .scalar none .plain ['f', 'a', 'l', 's', 'e']
  | .number n => .scalar none .plain n.render.toList
  | .string s => .scalar none (stringStyle s.toList) s.toList
  | .array items => .sequence none (itemNodes items)
  | .object entries => .mapping none (entryNodes entries)
termination_by structural t => t

def itemNodes : List Tree → List Node
  | [] => []
  | t :: items => treeNode t :: itemNodes items
termination_by structural items => items

def entryNodes : List (String × Tree) → List (Node × Node)
  | [] => []
  | (key, t) :: entries => (.scalar none .plain key.toList, treeNode t) :: entryNodes entries
termination_by structural entries => entries

end

mutual

theorem depth_treeNode : (t : Tree) → (treeNode t).depth = t.depth
  | .null => rfl
  | .bool true => rfl
  | .bool false => rfl
  | .number _ => rfl
  | .string _ => rfl
  | .array items => congrArg (· + 1) (depth_itemNodes items)
  | .object entries => congrArg (· + 1) (depth_entryNodes entries)
termination_by structural t => t

theorem depth_itemNodes : (items : List Tree) →
    Node.depthItems (itemNodes items) = Tree.depthItems items
  | [] => rfl
  | t :: items => congrArg₂ max (depth_treeNode t) (depth_itemNodes items)
termination_by structural items => items

theorem depth_entryNodes : (entries : List (String × Tree)) →
    Node.depthEntries (entryNodes entries) = Tree.depthEntries entries
  | [] => rfl
  | (_, t) :: entries =>
    (Nat.zero_max _).trans (congrArg₂ max (depth_treeNode t) (depth_entryNodes entries))
termination_by structural entries => entries

end

end FlowLine

/-! ## Events of trees -/

namespace Event

open FlowLine

/-- A tree starts with a scalar or a bracket. -/
theorem exists_treeTokens (t : Tree) :
    (∃ style text, treeTokens t = [.scalar style text]) ∨
      (∃ rest, treeTokens t = .flowSequenceStart :: rest) ∨
      ∃ rest, treeTokens t = .flowMappingStart :: rest := by
  cases t with
  | null | number n | string s => exact .inl ⟨_, _, rfl⟩
  | bool b => cases b <;> exact .inl ⟨_, _, rfl⟩
  | array items => cases items <;> exact .inr (.inl ⟨_, rfl⟩)
  | object entries => cases entries <;> exact .inr (.inr ⟨_, rfl⟩)

theorem length_itemTokens_pos (items : List Tree) : 0 < (itemTokens items).length := by
  cases items <;> exact Nat.zero_lt_succ _

variable {handles : Handles} {fuel : Nat} {rest : List Token}

/-- The tokens of the tree are parsed to the events of its node, wherever a node may stand. -/
def ParsesTree (t : Tree) : Prop :=
  ∀ handles fuel block indentless rest, (treeTokens t).length < fuel →
    node handles fuel block indentless (treeTokens t ++ rest) = some ((treeNode t).events, rest)

/-- The first item is parsed like one after a comma. -/
theorem flowItems_first (t : Tree) :
    flowItems handles fuel true (treeTokens t ++ rest)
      = flowItems handles fuel false (.flowEntry :: (treeTokens t ++ rest)) := by
  obtain ⟨style, text, h⟩ | ⟨tail, h⟩ | ⟨tail, h⟩ := exists_treeTokens t <;>
    rw [h] <;> cases fuel <;> rfl

theorem flowItems_next (t : Tree) :
    flowItems handles (fuel + 1) false (.flowEntry :: (treeTokens t ++ rest)) = do
      let (item, rest) ← node handles fuel false false (treeTokens t ++ rest)
      let (items, rest) ← flowItems handles fuel false rest
      return (item ++ items, rest) := by
  obtain ⟨style, text, h⟩ | ⟨tail, h⟩ | ⟨tail, h⟩ := exists_treeTokens t <;> rw [h] <;> rfl

/-- The first entry is parsed like one after a comma. -/
theorem flowEntries_first : flowEntries handles fuel true (.key :: rest)
    = flowEntries handles fuel false (.flowEntry :: .key :: rest) := by
  cases fuel <;> rfl

theorem flowEntries_next (key : List Char) (t : Tree) :
    flowEntries handles (fuel + 2) false
        (.flowEntry :: .key :: .scalar .plain key :: .value :: (treeTokens t ++ rest)) = do
      let (value, rest) ← node handles (fuel + 1) false false (treeTokens t ++ rest)
      let (entries, rest) ← flowEntries handles (fuel + 1) false rest
      return (.scalar .none .plain key :: (value ++ entries), rest) := by
  obtain ⟨style, text, h⟩ | ⟨tail, h⟩ | ⟨tail, h⟩ := exists_treeTokens t <;> rw [h] <;> rfl

theorem flowItems_itemTokens {items : List Tree} (h : ∀ t ∈ items, ParsesTree t)
    (hfuel : (itemTokens items).length ≤ fuel) :
    flowItems handles fuel false (itemTokens items ++ rest)
      = some (Node.itemEvents (itemNodes items), rest) := by
  induction items generalizing fuel with
  | nil =>
    obtain ⟨fuel, rfl⟩ := Nat.exists_eq_add_of_le' hfuel
    rfl
  | cons t items ih =>
    rw [List.forall_mem_cons] at h
    have hpos := length_itemTokens_pos items
    simp only [itemTokens, List.cons_append, List.length_cons, List.length_append] at hfuel
    obtain ⟨fuel, rfl⟩ : ∃ n, fuel = n + 1 := Nat.exists_eq_succ_of_ne_zero (by omega)
    have ht := h.1 handles fuel false false (itemTokens items ++ rest) (by omega)
    have hitems := ih h.2 (by omega : (itemTokens items).length ≤ fuel)
    simp only [itemTokens, List.cons_append, List.append_assoc, flowItems_next, ht,
      Option.bind_eq_bind, Option.bind_some, hitems]
    rfl

theorem flowEntries_entryTokens {entries : List (String × Tree)}
    (h : ∀ entry ∈ entries, ParsesTree entry.2) (hfuel : (entryTokens entries).length ≤ fuel) :
    flowEntries handles fuel false (entryTokens entries ++ rest)
      = some (Node.entryEvents (entryNodes entries), rest) := by
  induction entries generalizing fuel with
  | nil =>
    obtain ⟨fuel, rfl⟩ := Nat.exists_eq_add_of_le' hfuel
    rfl
  | cons entry entries ih =>
    obtain ⟨key, t⟩ := entry
    obtain ⟨ht, hentries⟩ := List.forall_mem_cons.1 h
    simp only [entryTokens, List.cons_append, List.length_cons, List.length_append] at hfuel
    obtain ⟨fuel, rfl⟩ : ∃ n, fuel = n + 2 := ⟨fuel - 2, by omega⟩
    have hvalue := ht handles (fuel + 1) false false (entryTokens entries ++ rest)
      (by dsimp only; omega)
    have hrest := ih hentries (by omega : (entryTokens entries).length ≤ fuel + 1)
    simp only [entryTokens, List.cons_append, List.append_assoc, flowEntries_next, hvalue,
      Option.bind_eq_bind, Option.bind_some, hrest]
    rfl

theorem node_sequence (block indentless : Bool) (tokens : List Token) :
    node handles (fuel + 1) block indentless (.flowSequenceStart :: tokens) = do
      let (items, rest) ← flowItems handles fuel true tokens
      return (.sequenceStart .none :: items, rest) := rfl

theorem node_mapping (block indentless : Bool) (tokens : List Token) :
    node handles (fuel + 1) block indentless (.flowMappingStart :: tokens) = do
      let (entries, rest) ← flowEntries handles fuel true tokens
      return (.mappingStart .none :: entries, rest) := rfl

theorem parsesTree_array {items : List Tree} (h : ∀ t ∈ items, ParsesTree t) :
    ParsesTree (.array items) := by
  intro handles fuel block indentless rest hfuel
  obtain ⟨fuel, rfl⟩ := Nat.exists_eq_succ_of_ne_zero (Nat.ne_of_gt (Nat.zero_lt_of_lt hfuel))
  cases items with
  | nil =>
    obtain ⟨fuel, rfl⟩ := Nat.exists_eq_add_of_le' (Nat.lt_of_succ_lt_succ hfuel)
    rfl
  | cons t items =>
    simp only [treeTokens, List.cons_append, List.length_cons, List.length_append] at hfuel
    have hitems : flowItems handles fuel false (itemTokens (t :: items) ++ rest) = _ :=
      flowItems_itemTokens h (by
        simp only [itemTokens, List.cons_append, List.length_cons, List.length_append]
        omega)
    rw [itemTokens, List.cons_append, List.cons_append, List.append_assoc,
      ← flowItems_first] at hitems
    rw [treeTokens, List.cons_append, List.cons_append, List.append_assoc, node_sequence, hitems]
    rfl

theorem parsesTree_object {entries : List (String × Tree)}
    (h : ∀ entry ∈ entries, ParsesTree entry.2) : ParsesTree (.object entries) := by
  intro handles fuel block indentless rest hfuel
  obtain ⟨fuel, rfl⟩ := Nat.exists_eq_succ_of_ne_zero (Nat.ne_of_gt (Nat.zero_lt_of_lt hfuel))
  cases entries with
  | nil =>
    obtain ⟨fuel, rfl⟩ := Nat.exists_eq_add_of_le' (Nat.lt_of_succ_lt_succ hfuel)
    rfl
  | cons entry entries =>
    obtain ⟨key, t⟩ := entry
    simp only [treeTokens, List.cons_append, List.length_cons, List.length_append] at hfuel
    have hentries : flowEntries handles fuel false (entryTokens ((key, t) :: entries) ++ rest)
        = _ :=
      flowEntries_entryTokens h (by
        simp only [entryTokens, List.cons_append, List.length_cons, List.length_append]
        omega)
    simp only [entryTokens, List.cons_append] at hentries
    rw [← flowEntries_first] at hentries
    simp only [treeTokens, List.cons_append]
    rw [node_mapping, hentries]
    rfl

theorem parsesTree_scalar {t : Tree} {style : Style} {text : List Char}
    (htokens : treeTokens t = [.scalar style text]) (hnode : treeNode t = .scalar none style text) :
    ParsesTree t := by
  intro handles fuel block indentless rest hfuel
  obtain ⟨fuel, rfl⟩ := Nat.exists_eq_succ_of_ne_zero (Nat.ne_of_gt (Nat.zero_lt_of_lt hfuel))
  rw [htokens, hnode]
  rfl

mutual

theorem parsesTree : (t : Tree) → ParsesTree t
  | .null => parsesTree_scalar rfl rfl
  | .bool true => parsesTree_scalar rfl rfl
  | .bool false => parsesTree_scalar rfl rfl
  | .number _ => parsesTree_scalar rfl rfl
  | .string _ => parsesTree_scalar rfl rfl
  | .array items => parsesTree_array (parsesTree_items items)
  | .object entries => parsesTree_object (parsesTree_entries entries)
termination_by structural t => t

theorem parsesTree_items : (items : List Tree) → ∀ t ∈ items, ParsesTree t
  | [] => fun _ h => nomatch h
  | t :: items => List.forall_mem_cons.2 ⟨parsesTree t, parsesTree_items items⟩
termination_by structural items => items

theorem parsesTree_entries :
    (entries : List (String × Tree)) → ∀ entry ∈ entries, ParsesTree entry.2
  | [] => fun _ h => nomatch h
  | (_, t) :: entries => List.forall_mem_cons.2 ⟨parsesTree t, parsesTree_entries entries⟩
termination_by structural entries => entries

end

theorem ofTokens?_treeTokens (t : Tree) :
    ofTokens? (treeTokens t ++ [.streamEnd]) = some (treeNode t).events := by
  have hparses (fuel : Nat) (hfuel : (treeTokens t).length < fuel) :=
    parsesTree t standardHandles fuel true false [.streamEnd] hfuel
  have hsome : treeTokens t ++ [.streamEnd] ≠ [.streamEnd] := by
    obtain ⟨style, text, h⟩ | ⟨tail, h⟩ | ⟨tail, h⟩ := exists_treeTokens t <;> simp [h]
  have hexplicit : startsExplicit (treeTokens t ++ [.streamEnd]) = false := by
    obtain ⟨style, text, h⟩ | ⟨tail, h⟩ | ⟨tail, h⟩ := exists_treeTokens t <;> rw [h] <;> rfl
  simp only [ofTokens?, hsome, hexplicit, List.length_append, if_false, Bool.false_eq_true]
  rw [hparses _ (by omega)]
  rfl

end Event

/-- The node of a flow line is that of its tree. -/
theorem nodeOf_line {t : Tree} (h : Writable t) (hdepth : t.depth ≤ Node.maxDepth) :
    nodeOf (FlowLine.printTree t ++ ['\n']) = some (some (FlowLine.treeNode t)) := by
  have hnode : Node.ofEvents? (FlowLine.treeNode t).events = some (FlowLine.treeNode t) :=
    Node.ofEvents?_events (FlowLine.depth_treeNode t ▸ hdepth)
  have hsome : ((FlowLine.treeNode t).events : List Event.Named) ≠ [] :=
    List.ne_nil_of_length_pos (Node.length_events_pos _)
  rw [nodeOf, tokens?_line h]
  change Option.bind (Event.ofTokens? _) _ = _
  rw [Event.ofTokens?_treeTokens]
  simp [hsome, hnode]

end Ssz.Text.Yaml

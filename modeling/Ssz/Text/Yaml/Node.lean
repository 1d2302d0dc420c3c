-- SUMMARY: Nodes: YAML documents as trees, with every alias replaced by what it stands for.
import Ssz.Text.Yaml.Event

/-!
# Nodes

Anchors are numbered by how many names there were before, and an alias stands
for the last node of its number. Replacing aliases is bounded in two ways: by the
depth of the result, and by the number of aliases that are followed.
-/

namespace Ssz.Text.Yaml

inductive Node where
  | scalar (tag : Option Bytes) (style : Style) (text : List Char)
  | sequence (tag : Option Bytes) (items : List Node)
  | mapping (tag : Option Bytes) (entries : List (Node × Node))
  deriving Repr

namespace Node

/-- How many collections may be nested. -/
def maxDepth : Nat := 128

/-- How many aliases may be followed, for each event of the document. -/
def aliasesPerEvent : Nat := 100

/-! ## Anchors -/

/-- The anchor of the node that begins with an event. -/
def anchorOf : Event.Named → Option (List Char)
  | .scalar p _ _ | .sequenceStart p | .mappingStart p => p.anchor
  | _ => none

/-- The number of each name of an anchor. -/
abbrev Names := List (List Char × Nat)

/-- Number a name once more. -/
def number (names : Names) (name : List Char) : Names :=
  (name, names.length) :: names.filter (·.1 ≠ name)

def relabel (names : Names) : Event.Named → Option (Event Nat)
  | .alias name => (names.lookup name).map .alias
  | .scalar p style text => some (.scalar p style text)
  | .sequenceStart p => some (.sequenceStart p)
  | .sequenceEnd => some .sequenceEnd
  | .mappingStart p => some (.mappingStart p)
  | .mappingEnd => some .mappingEnd

/-- Replace names by numbers, and note at which event the node of each number begins. -/
def resolveAnchors (names : Names) (position : Nat) (starts : List (Nat × Nat)) :
    List Event.Named → Option (List (Event Nat) × List (Nat × Nat))
  | [] => some ([], starts)
  | e :: rest => do
    let relabelled ← relabel names e
    let (names', starts') := match anchorOf e with
      | some name => (number names name, (names.length, position) :: starts)
      | none => (names, starts)
    let (es, starts) ← resolveAnchors names' (position + 1) starts' rest
    return (relabelled :: es, starts)

/-! ## Composition -/

/-- What is left of the events, and of the aliases that may be followed. -/
structure Remaining where
  events : List (Event Nat)
  aliases : Nat

mutual

/-- Compose the node at the start of the events. -/
def compose (at? : Nat → Option (List (Event Nat))) :
    (fuel depth : Nat) → Remaining → Option (Node × Remaining)
  | 0, _, _ => none
  | fuel + 1, depth, ⟨events, aliases⟩ =>
    match events with
    | .alias target :: rest =>
      match aliases with
      | 0 => none
      | aliases + 1 => do
        let (node, after) ← compose at? fuel depth ⟨← at? target, aliases⟩
        return (node, ⟨rest, after.aliases⟩)
    | .scalar p style text :: rest => some (.scalar p.tag style text, ⟨rest, aliases⟩)
    | .sequenceStart p :: rest =>
      match depth with
      | 0 => none
      | depth + 1 => do
        let (items, after) ← composeItems at? fuel depth ⟨rest, aliases⟩
        return (.sequence p.tag items, after)
    | .mappingStart p :: rest =>
      match depth with
      | 0 => none
      | depth + 1 => do
        let (entries, after) ← composeEntries at? fuel depth ⟨rest, aliases⟩
        return (.mapping p.tag entries, after)
    | _ => none
termination_by structural fuel => fuel

def composeItems (at? : Nat → Option (List (Event Nat))) :
    (fuel depth : Nat) → Remaining → Option (List Node × Remaining)
  | 0, _, _ => none
  | fuel + 1, depth, r =>
    match r.events with
    | .sequenceEnd :: rest => some ([], ⟨rest, r.aliases⟩)
    | _ => do
      let (node, after) ← compose at? fuel depth r
      let (nodes, after) ← composeItems at? fuel depth after
      return (node :: nodes, after)
termination_by structural fuel => fuel

def composeEntries (at? : Nat → Option (List (Event Nat))) :
    (fuel depth : Nat) → Remaining → Option (List (Node × Node) × Remaining)
  | 0, _, _ => none
  | fuel + 1, depth, r =>
    match r.events with
    | .mappingEnd :: rest => some ([], ⟨rest, r.aliases⟩)
    | _ => do
      let (key, after) ← compose at? fuel depth r
      let (value, after) ← compose at? fuel depth after
      let (entries, after) ← composeEntries at? fuel depth after
      return ((key, value) :: entries, after)
termination_by structural fuel => fuel

end

/-- The node of a document. Along any path every step takes an event of one of the nested
    collections, so the fuel is enough. -/
def ofEvents? (events : List Event.Named) : Option Node := do
  let (events, starts) ← resolveAnchors [] 0 [] events
  let at? (target : Nat) := (starts.lookup target).map events.drop
  let fuel := (maxDepth + 2) * (2 * events.length + 4)
  let (node, _) ← compose at? fuel maxDepth ⟨events, aliasesPerEvent * events.length⟩
  return node

/-! ## Local tags -/

def tag : Node → Option Bytes
  | .scalar tag .. | .sequence tag _ | .mapping tag _ => tag

/-- The byte that local tags start with. -/
def localMark : UInt8 := 0x21

/-- The text of a tag, if it is text. -/
def tagText? (tag : Bytes) : Option String := String.fromUTF8? ⟨tag.toArray⟩

/-- Whether a tag is one that a document gives its own meaning. It has to be text. -/
def isLocal (tag : Option Bytes) : Bool :=
  tag.any fun tag => tag.head? = some localMark && (tagText? tag).isSome

end Node

end Ssz.Text.Yaml

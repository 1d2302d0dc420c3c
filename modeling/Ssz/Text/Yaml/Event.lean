-- SUMMARY: Events: the nodes of a YAML document in the order in which they begin and end.
import Ssz.Text.Hex
import Ssz.Text.Yaml.Token

/-!
# Events

The tokens of a document are read by the grammar of the format. Every node of
the result has its tag resolved against the directives of the document. An empty
place where a node may stand is an empty plain scalar.
-/

namespace Ssz.Text.Yaml

/-- What may stand in front of a node. -/
structure Properties where
  anchor : Option (List Char)
  /-- The tag, with its handle replaced. -/
  tag : Option Bytes
  deriving DecidableEq, Repr

def Properties.none : Properties := ⟨Option.none, Option.none⟩

/-- An event. Aliases refer to nodes by their anchors, or otherwise as `α` says. -/
inductive Event (α : Type) where
  | alias (target : α)
  | scalar (properties : Properties) (style : Style) (text : List Char)
  | sequenceStart (properties : Properties)
  | sequenceEnd
  | mappingStart (properties : Properties)
  | mappingEnd
  deriving DecidableEq, Repr

namespace Event

/-- An event whose aliases give the name of an anchor. -/
abbrev Named := Event (List Char)

/-- The node that stands for nothing. -/
def empty : Named := .scalar .none .plain []

/-- Events read so far, with the tokens after them. -/
abbrev Result := Option (List Named × List Token)

/-! ## Tags -/

/-- What the handles of tags stand for. -/
abbrev Handles := List (List Char × Bytes)

/-- The handles that need no directive. -/
def standardHandles : Handles :=
  [(['!'], Hex.utf8 ['!']), (['!', '!'], Hex.utf8 "tag:yaml.org,2002:".toList)]

/-- A tag in full. Without a handle it is complete. -/
def resolveTag (handles : Handles) (handle : List Char) (suffix : Bytes) : Option Bytes :=
  if handle.isEmpty then some suffix else (handles.lookup handle).map (· ++ suffix)

/-- Read the anchor and the tag of a node, in either order. -/
def properties (handles : Handles) : List Token → Option (Properties × List Token)
  | .anchor name :: .tag handle suffix :: rest
  | .tag handle suffix :: .anchor name :: rest => do
    return (⟨some name, ← resolveTag handles handle suffix⟩, rest)
  | .anchor name :: rest => some (⟨some name, Option.none⟩, rest)
  | .tag handle suffix :: rest => do
    return (⟨Option.none, ← resolveTag handles handle suffix⟩, rest)
  | rest => some (.none, rest)

/-! ## Nodes -/

/-- Tokens that end an entry of a block mapping. -/
def endsBlockEntry : List Token → Bool
  | .key :: _ | .value :: _ | .blockEnd :: _ => true
  | _ => false

/-- Tokens that end an entry of a sequence that is indented no further than its key. -/
def endsIndentlessEntry (tokens : List Token) : Bool :=
  tokens.head? = some .blockEntry || endsBlockEntry tokens

/-- Tokens that end a key or a value inside brackets that close with `close`. -/
def endsFlowPart (close : Token) (tokens : List Token) : Bool :=
  tokens.head? = some .flowEntry || tokens.head? = some close

mutual

/-- Read a node. `block` says whether block collections may stand here, and `indentless` whether
    a sequence may be indented no further than the key before it. -/
def node (handles : Handles) : (fuel : Nat) → (block indentless : Bool) → List Token → Result
  | 0, _, _, _ => .none
  | _ + 1, _, _, .alias name :: rest => some ([.alias name], rest)
  | fuel + 1, block, indentless, tokens => do
    let (p, rest) ← properties handles tokens
    match rest with
    | .blockEntry :: _ =>
      if indentless then
        let (items, rest) ← indentlessEntries handles fuel rest
        return (.sequenceStart p :: items, rest)
      else if p = .none then .none
      else return ([.scalar p .plain []], rest)
    | .scalar style text :: rest => return ([.scalar p style text], rest)
    | .flowSequenceStart :: rest => do
      let (items, rest) ← flowItems handles fuel true rest
      return (.sequenceStart p :: items, rest)
    | .flowMappingStart :: rest => do
      let (entries, rest) ← flowEntries handles fuel true rest
      return (.mappingStart p :: entries, rest)
    | .blockSequenceStart :: tail =>
      if block then
        let (items, rest) ← blockEntries handles fuel tail
        return (.sequenceStart p :: items, rest)
      else if p = .none then .none
      else return ([.scalar p .plain []], rest)
    | .blockMappingStart :: tail =>
      if block then
        let (entries, rest) ← blockPairs handles fuel tail
        return (.mappingStart p :: entries, rest)
      else if p = .none then .none
      else return ([.scalar p .plain []], rest)
    | rest => if p = .none then .none else return ([.scalar p .plain []], rest)
termination_by structural fuel => fuel

/-- The entries of a block sequence and its end. -/
def blockEntries (handles : Handles) : (fuel : Nat) → List Token → Result
  | fuel + 1, .blockEntry :: rest => do
    let absent := rest.head? = some .blockEntry || rest.head? = some .blockEnd
    let (item, rest) ← if absent then some ([empty], rest) else node handles fuel true false rest
    let (items, rest) ← blockEntries handles fuel rest
    return (item ++ items, rest)
  | _ + 1, .blockEnd :: rest => some ([.sequenceEnd], rest)
  | _, _ => .none
termination_by structural fuel => fuel

/-- The entries of a sequence that is indented no further than its key. -/
def indentlessEntries (handles : Handles) : (fuel : Nat) → List Token → Result
  | 0, _ => .none
  | fuel + 1, .blockEntry :: rest => do
    let (item, rest) ←
      if endsIndentlessEntry rest then some ([empty], rest) else node handles fuel true false rest
    let (items, rest) ← indentlessEntries handles fuel rest
    return (item ++ items, rest)
  | _ + 1, rest => some ([.sequenceEnd], rest)
termination_by structural fuel => fuel

/-- The entries of a block mapping and its end. -/
def blockPairs (handles : Handles) : (fuel : Nat) → List Token → Result
  | fuel + 1, .key :: rest => do
    let (key, rest) ←
      if endsBlockEntry rest then some ([empty], rest) else node handles fuel true true rest
    let (value, rest) ← match rest with
      | .value :: rest =>
        if endsBlockEntry rest then some ([empty], rest) else node handles fuel true true rest
      | rest => some ([empty], rest)
    let (entries, rest) ← blockPairs handles fuel rest
    return (key ++ value ++ entries, rest)
  | _ + 1, .blockEnd :: rest => some ([.mappingEnd], rest)
  | _, _ => .none
termination_by structural fuel => fuel

/-- The items of a flow sequence and its end. A key makes a mapping of one entry. -/
def flowItems (handles : Handles) : (fuel : Nat) → (first : Bool) → List Token → Result
  | 0, _, _ => .none
  | _ + 1, _, .flowSequenceEnd :: rest => some ([.sequenceEnd], rest)
  | fuel + 1, first, tokens => do
    let rest ← match first, tokens with
      | true, rest => some rest
      | false, .flowEntry :: rest => some rest
      | false, _ => Option.none
    match rest with
    | .flowSequenceEnd :: rest => return ([.sequenceEnd], rest)
    | .key :: rest => do
      let (pair, rest) ← flowPair handles fuel rest
      let (items, rest) ← flowItems handles fuel false rest
      return (.mappingStart .none :: pair ++ .mappingEnd :: items, rest)
    | rest => do
      let (item, rest) ← node handles fuel false false rest
      let (items, rest) ← flowItems handles fuel false rest
      return (item ++ items, rest)
termination_by structural fuel => fuel

/-- The key and the value of a mapping that is an item of a flow sequence. The token after an
    absent key is lost. -/
def flowPair (handles : Handles) : (fuel : Nat) → List Token → Result
  | 0, _ => .none
  | fuel + 1, tokens => do
    let (key, rest) ←
      if tokens.head? = some .value || endsFlowPart .flowSequenceEnd tokens then
        some ([empty], tokens.tail)
      else node handles fuel false false tokens
    let (value, rest) ← match rest with
      | .value :: rest =>
        if endsFlowPart .flowSequenceEnd rest then some ([empty], rest)
        else node handles fuel false false rest
      | rest => some ([empty], rest)
    return (key ++ value, rest)
termination_by structural fuel => fuel

/-- The entries of a flow mapping and its end. A node without a colon is a key. -/
def flowEntries (handles : Handles) : (fuel : Nat) → (first : Bool) → List Token → Result
  | 0, _, _ => .none
  | _ + 1, _, .flowMappingEnd :: rest => some ([.mappingEnd], rest)
  | fuel + 1, first, tokens => do
    let rest ← match first, tokens with
      | true, rest => some rest
      | false, .flowEntry :: rest => some rest
      | false, _ => Option.none
    match rest with
    | .flowMappingEnd :: rest => return ([.mappingEnd], rest)
    | .key :: rest => do
      let (key, rest) ←
        if rest.head? = some .value || endsFlowPart .flowMappingEnd rest then some ([empty], rest)
        else node handles fuel false false rest
      let (value, rest) ← match rest with
        | .value :: rest =>
          if endsFlowPart .flowMappingEnd rest then some ([empty], rest)
          else node handles fuel false false rest
        | rest => some ([empty], rest)
      let (entries, rest) ← flowEntries handles fuel false rest
      return (key ++ value ++ entries, rest)
    | rest => do
      let (key, rest) ← node handles fuel false false rest
      let (entries, rest) ← flowEntries handles fuel false rest
      return (key ++ empty :: entries, rest)
termination_by structural fuel => fuel

end

/-! ## Documents -/

/-- Read the directives in front of a document. There is at most one version, which is one of the
    two that are supported, and each handle is declared at most once. -/
def directives : (version : Bool) → (declared : Handles) → List Token →
    Option (Handles × List Token)
  | version, declared, .versionDirective major minor :: rest =>
    if version || major ≠ 1 || (minor ≠ 1 && minor ≠ 2) then Option.none
    else directives true declared rest
  | version, declared, .tagDirective handle uri :: rest =>
    if (declared.lookup handle).isSome then Option.none
    else directives version (declared ++ [(handle, uri)]) rest
  | _, declared, rest => some (declared ++ standardHandles, rest)

/-- Tokens before which an explicit document has no content. -/
def endsDocument : List Token → Bool
  | .versionDirective .. :: _ | .tagDirective .. :: _ | .documentStart :: _ | .documentEnd :: _
  | .streamEnd :: _ => true
  | _ => false

/-- Tokens that begin an explicit document. -/
def startsExplicit : List Token → Bool
  | .versionDirective .. :: _ | .tagDirective .. :: _ | .documentStart :: _ => true
  | _ => false

/-- After the only document there are at most marks of its end. -/
def endsStream : List Token → Bool
  | .documentEnd :: rest => endsStream rest
  | [.streamEnd] => true
  | _ => false

/-- The events of a stream of at most one document. Every step of the grammar takes a token or
    goes from one rule to another, of which there are at most two in a row. -/
def ofTokens? (tokens : List Token) : Option (List Named) := do
  let fuel := 4 * tokens.length + 4
  if tokens = [.streamEnd] then return []
  let (events, rest) ←
    if startsExplicit tokens then do
      let (handles, rest) ← directives false [] tokens
      match rest with
      | .documentStart :: rest =>
        if endsDocument rest then some ([empty], rest) else node handles fuel true false rest
      | _ => Option.none
    else node standardHandles fuel true false tokens
  if endsStream rest then return events else Option.none

end Event

end Ssz.Text.Yaml

-- SUMMARY: Splitting YAML text into tokens.
import Ssz.Text.Yaml.Character
import Ssz.Text.Yaml.Lexer.Scalar
import Ssz.Text.Yaml.Lexer.Tag
import Ssz.Text.Yaml.Token

/-!
# Lexing YAML

The lexer keeps the indentations of the open block collections and, for each
level of flow collections, the place where a key without a question mark may
have begun. When a colon follows on the same line and close enough, the token of
a key is put in at that place.
-/

namespace Ssz.Text.Yaml

/-- A place where a key may have begun. -/
structure KeyStart where
  /-- Whether there has to be a key, because nothing else may stand here. -/
  required : Bool
  /-- The number of tokens before it. -/
  position : Nat
  cell : Cell

/-- How many bytes a key may take from its start to its colon. -/
def maxKeyLength : Nat := 1024

structure Lexer where
  rest : List Cell
  /-- Depth of flow collections around the next token. -/
  flowDepth : Nat
  /-- Column of the innermost block collection, or -1. -/
  indent : Int
  outer : List Int
  /-- Whether a key without a question mark may begin at the next token. -/
  keyAllowed : Bool
  /-- For each level of flow collections, innermost first, where a key may have begun. -/
  keyStarts : List (Option KeyStart)
  /-- The tokens so far, latest first. -/
  tokens : List Token
  count : Nat
  /-- More than the number of cells of the whole text. -/
  fuel : Nat

namespace Lexer

def start (text : List Char) : Lexer where
  rest := Cell.ofText text
  flowDepth := 0
  indent := -1
  outer := []
  keyAllowed := true
  keyStarts := [none]
  tokens := []
  count := 0
  fuel := text.length + 2

def emit (lx : Lexer) (t : Token) : Lexer :=
  { lx with tokens := t :: lx.tokens, count := lx.count + 1 }

/-- Put tokens in before the latest `count - position` ones. -/
def insertAt (lx : Lexer) (position : Nat) (ts : List Token) : Lexer :=
  let later := lx.count - position
  { lx with
    tokens := lx.tokens.take later ++ ts.reverse ++ lx.tokens.drop later
    count := lx.count + ts.length }

def inFlow (lx : Lexer) : Bool := lx.flowDepth != 0

/-! ## Indentation -/

/-- Close the block collections that are indented further than `column`. -/
def closeBlocks (column : Int) : (outer : List Int) → Lexer → Lexer
  | [], lx => lx
  | i :: outer, lx =>
    if column < lx.indent then
      closeBlocks column outer { lx.emit .blockEnd with indent := i, outer }
    else lx

/-- Indentation means nothing inside flow collections. -/
def unindent (column : Int) (lx : Lexer) : Lexer :=
  if lx.inFlow then lx else closeBlocks column lx.outer lx

/-- Whether a block collection opens at this column. -/
def opensBlock (lx : Lexer) (column : Nat) : Bool := !lx.inFlow && lx.indent < (column : Int)

def pushIndent (lx : Lexer) (column : Nat) : Lexer :=
  { lx with indent := column, outer := lx.indent :: lx.outer }

/-- Open a block collection at this column, unless it is open already. -/
def openBlock (lx : Lexer) (column : Nat) (t : Token) : Lexer :=
  if lx.opensBlock column then (lx.pushIndent column).emit t else lx

/-! ## Places of keys -/

/-- Give up the place of a key. One that is required must not be given up. -/
def dropKey (lx : Lexer) : Option Lexer :=
  match lx.keyStarts with
  | some key :: outer => if key.required then none else some { lx with keyStarts := none :: outer }
  | _ => some lx

/-- Remember that a key may begin at this cell. -/
def noteKey (lx : Lexer) (c : Cell) : Option Lexer :=
  if lx.keyAllowed then do
    let required := !lx.inFlow && lx.indent = (c.column : Int)
    let lx ← lx.dropKey
    return { lx with keyStarts := some ⟨required, lx.count, c⟩ :: lx.keyStarts.tail }
  else some lx

/-- Whether a key that began there can no longer end at this cell. -/
def KeyStart.isStale (key : KeyStart) (c : Cell) : Bool :=
  key.cell.line < c.line || key.cell.index + maxKeyLength < c.index

/-- Give up the places that are too far back. -/
def dropStale (lx : Lexer) (c : Cell) : Option Lexer := do
  let kept ← lx.keyStarts.mapM fun start =>
    match start with
    | some key =>
      if KeyStart.isStale key c then (if key.required then none else some none) else some start
    | none => some none
  return { lx with keyStarts := kept }

/-! ## Between tokens -/

/-- Pass over blanks, comments, line breaks and the mark that may start a line. A tab may not
    indent a key. -/
def skipGap : (fuel : Nat) → Lexer → Lexer
  | 0, lx => lx
  | fuel + 1, lx =>
    match lx.rest with
    | [] => lx
    | c :: rest =>
      if c.column = 0 && c.char = byteOrderMark then skipGap fuel { lx with rest }
      else if c.char = ' ' || (c.char = '\t' && (lx.inFlow || !lx.keyAllowed)) then
        skipGap fuel { lx with rest }
      else if c.char = '#' then skipGap fuel { lx with rest := skipToBreak rest }
      else if isBreak c.char then
        skipGap fuel
          { lx with rest := (takeBreak lx.rest).2, keyAllowed := lx.keyAllowed || !lx.inFlow }
      else lx

/-! ## Tokens -/

/-- A line that starts or ends a document. -/
def documentMarker (lx : Lexer) (t : Token) : Option Lexer := do
  let lx ← (lx.unindent (-1)).dropKey
  return { lx.emit t with rest := lx.rest.drop 3, keyAllowed := false }

def directive (lx : Lexer) : Option Lexer := do
  let lx ← (lx.unindent (-1)).dropKey
  let (t, rest) ← readDirective lx.fuel lx.rest.tail
  return { lx.emit t with rest, keyAllowed := false }

def openFlow (lx : Lexer) (c : Cell) (t : Token) : Option Lexer := do
  let lx ← lx.noteKey c
  return { lx.emit t with
    rest := lx.rest.tail, flowDepth := lx.flowDepth + 1, keyStarts := none :: lx.keyStarts
    keyAllowed := true }

def closeFlow (lx : Lexer) (t : Token) : Option Lexer := do
  let lx ← lx.dropKey
  return { lx.emit t with
    rest := lx.rest.tail, flowDepth := lx.flowDepth - 1
    keyStarts := if lx.inFlow then lx.keyStarts.tail else lx.keyStarts
    keyAllowed := false }

def flowEntry (lx : Lexer) : Option Lexer := do
  let lx ← lx.dropKey
  return { lx.emit .flowEntry with rest := lx.rest.tail, keyAllowed := true }

def blockEntry (lx : Lexer) (c : Cell) : Option Lexer := do
  if !lx.inFlow && !lx.keyAllowed then none
  let lx ← (lx.openBlock c.column .blockSequenceStart).dropKey
  return { lx.emit .blockEntry with rest := lx.rest.tail, keyAllowed := true }

/-- A question mark that announces a key. -/
def explicitKey (lx : Lexer) (c : Cell) : Option Lexer := do
  if !lx.inFlow && !lx.keyAllowed then none
  let lx ← (lx.openBlock c.column .blockMappingStart).dropKey
  return { lx.emit .key with rest := lx.rest.tail, keyAllowed := !lx.inFlow }

/-- A colon: the end of a key that has begun before, or a value on its own. -/
def value (lx : Lexer) (c : Cell) : Option Lexer :=
  match lx.keyStarts with
  | some key :: outer =>
    let column := key.cell.column
    let opened :=
      if lx.opensBlock column then
        (lx.pushIndent column).insertAt key.position [.blockMappingStart, .key]
      else lx.insertAt key.position [.key]
    some { opened.emit .value with
      rest := lx.rest.tail, keyStarts := none :: outer, keyAllowed := false }
  | _ => do
    if !lx.inFlow && !lx.keyAllowed then none
    let lx := lx.openBlock c.column .blockMappingStart
    return { lx.emit .value with rest := lx.rest.tail, keyAllowed := !lx.inFlow }

def anchor (lx : Lexer) (c : Cell) (token : List Char → Token) : Option Lexer := do
  let lx ← lx.noteKey c
  let (name, rest) ← readAnchor lx.rest.tail
  return { lx.emit (token name) with rest, keyAllowed := false }

def tag (lx : Lexer) (c : Cell) : Option Lexer := do
  let lx ← lx.noteKey c
  let (t, rest) ← readTag lx.fuel lx.inFlow lx.rest
  return { lx.emit t with rest, keyAllowed := false }

def blockScalar (lx : Lexer) (literal : Bool) : Option Lexer := do
  let lx ← lx.dropKey
  let (text, rest) ← readBlockScalar lx.fuel literal lx.indent lx.rest.tail
  return { lx.emit (.scalar .quoted text) with rest, keyAllowed := true }

def quotedScalar (lx : Lexer) (c : Cell) (single : Bool) : Option Lexer := do
  let lx ← lx.noteKey c
  let (text, rest) ← readQuotedScalar lx.fuel single lx.rest.tail
  return { lx.emit (.scalar .quoted text) with rest, keyAllowed := false }

def plainScalar (lx : Lexer) (c : Cell) : Option Lexer := do
  let lx ← lx.noteKey c
  let (text, broken, rest) ← readPlain lx.fuel lx.inFlow (lx.indent + 1) lx.rest
  return { lx.emit (.scalar .plain text) with rest, keyAllowed := broken }

/-- Characters that never start a plain scalar, besides the three that depend on what follows. -/
def indicators : List Char :=
  [',', '[', ']', '\x7b', '\x7d', '#', '&', '*', '!', '|', '>', '\'', '"', '%', '@', '\x60']

/-- Whether a plain scalar starts at this cell. -/
def startsPlain (lx : Lexer) (c : Cell) (next : List Cell) : Bool :=
  if c.char = '-' then !startsSpace next
  else if c.char = '?' || c.char = ':' then !lx.inFlow && !atGap next
  else !(isSpace c.char || isBreak c.char || indicators.contains c.char)

/-- Read the token at this cell. -/
def step (lx : Lexer) (c : Cell) (next : List Cell) : Option Lexer :=
  let spaced := atGap next
  if c.column = 0 && c.char = '%' then lx.directive
  else if atMarker '-' lx.rest then lx.documentMarker .documentStart
  else if atMarker '.' lx.rest then lx.documentMarker .documentEnd
  else if c.char = '[' then lx.openFlow c .flowSequenceStart
  else if c.char = '\x7b' then lx.openFlow c .flowMappingStart
  else if c.char = ']' then lx.closeFlow .flowSequenceEnd
  else if c.char = '\x7d' then lx.closeFlow .flowMappingEnd
  else if c.char = ',' then lx.flowEntry
  else if c.char = '-' && spaced then lx.blockEntry c
  else if c.char = '?' && (lx.inFlow || spaced) then lx.explicitKey c
  else if c.char = ':' && (lx.inFlow || spaced) then lx.value c
  else if c.char = '*' then lx.anchor c .alias
  else if c.char = '&' then lx.anchor c .anchor
  else if c.char = '!' then lx.tag c
  else if c.char = '|' && !lx.inFlow then lx.blockScalar true
  else if c.char = '>' && !lx.inFlow then lx.blockScalar false
  else if c.char = '\'' then lx.quotedScalar c true
  else if c.char = '"' then lx.quotedScalar c false
  else if lx.startsPlain c next then lx.plainScalar c
  else none

/-- Read all tokens. Each takes at least one character. -/
def run : (fuel : Nat) → Lexer → Option (List Token)
  | 0, _ => none
  | fuel + 1, lx =>
    let lx := skipGap lx.fuel lx
    match lx.rest with
    | [] => do
      let lx ← (lx.unindent (-1)).dropKey
      return (lx.emit .streamEnd).tokens.reverse
    | c :: next => do
      let lx ← lx.dropStale c
      run fuel (← (lx.unindent c.column).step c next)

end Lexer

/-- The tokens of a text, if it can be split into tokens. -/
def tokens? (text : List Char) : Option (List Token) :=
  if text.all isAllowed then Lexer.run (text.length + 2) (Lexer.start text) else none

end Ssz.Text.Yaml

-- SUMMARY: Reading scalars from cells: plain, quoted and block scalars.
import Ssz.Text.Hex
import Ssz.Text.Yaml.Character

/-!
# Scalars

A scalar may span lines. Inside plain and quoted scalars a single line break
reads as a space and further ones are kept; the blanks around breaks are
dropped. A block scalar keeps its lines, or folds them in the same way. The fuel
of every loop is larger than the number of cells, and each step takes a cell.
-/

namespace Ssz.Text.Yaml

/-! ## Gaps -/

/-- Blanks and line breaks between two pieces of a scalar: the blanks before the first break, that
    break, and the breaks after it. -/
structure Gap where
  spaces : List Char
  first : List Char
  more : List Char
  /-- Whether there is a break at all. -/
  broken : Bool

namespace Gap

def none : Gap := ⟨[], [], [], false⟩

/-- What the gap reads as. -/
def text (gap : Gap) : List Char :=
  if !gap.broken then gap.spaces
  else if gap.first = ['\n'] then (if gap.more.isEmpty then [' '] else gap.more)
  else gap.first ++ gap.more

end Gap

/-- Read a gap. In a plain scalar, a tab left of column `indent` at the start of a line is a
    fault. -/
def readGap (indent : Int) : (fuel : Nat) → Gap → List Cell → Option (Gap × List Cell)
  | 0, gap, cells => some (gap, cells)
  | _ + 1, gap, [] => some (gap, [])
  | fuel + 1, gap, c :: rest =>
    if isSpace c.char then
      if gap.broken then
        if c.char = '\t' && (c.column : Int) < indent then Option.none
        else readGap indent fuel gap rest
      else readGap indent fuel { gap with spaces := gap.spaces ++ [c.char] } rest
    else if isBreak c.char then
      let (b, rest) := takeBreak (c :: rest)
      if gap.broken then readGap indent fuel { gap with more := gap.more ++ b } rest
      else readGap indent fuel { gap with spaces := [], first := b, broken := true } rest
    else some (gap, c :: rest)

/-! ## Plain scalars -/

/-- Characters that end a plain scalar inside a flow collection. -/
def endsFlowPlain (c : Char) : Bool :=
  c = ',' || c = '[' || c = ']' || c = '\x7b' || c = '\x7d'

/-- Read a piece of a plain scalar, up to a blank or a character that ends it. -/
def plainPiece (flow : Bool) : List Cell → Option (List Char × List Cell)
  | [] => some ([], [])
  | c :: rest =>
    if isSpace c.char || isBreak c.char then some ([], c :: rest)
    else if flow && c.char = ':' && rest.head?.any (fun d => d.char = '?' || endsFlowPlain d.char)
    then none
    else if c.char = ':' && atGap rest then some ([], c :: rest)
    else if flow && endsFlowPlain c.char then some ([], c :: rest)
    else (plainPiece flow rest).map fun (piece, rest) => (c.char :: piece, rest)

/-- Go on reading a plain scalar after `text` and a gap. Gives also whether a line break was the
    last thing read. -/
def plainFrom (flow : Bool) (indent : Int) :
    (fuel : Nat) → (text : List Char) → Gap → List Cell → Option (List Char × Bool × List Cell)
  | 0, text, gap, cells => some (text, gap.broken, cells)
  | fuel + 1, text, gap, cells =>
    if atDocumentMarker cells || startsWith '#' cells then some (text, gap.broken, cells)
    else do
      let (piece, rest) ← plainPiece flow cells
      if piece.isEmpty then return (text, gap.broken, rest)
      let text := text ++ gap.text ++ piece
      if !(startsSpace rest || startsBreak rest) then return (text, false, rest)
      let (gap, rest) ← readGap indent fuel Gap.none rest
      let outdented := rest.head?.any fun c => (c.column : Int) < indent
      if !flow && outdented then return (text, gap.broken, rest)
      plainFrom flow indent fuel text gap rest

/-- Read a plain scalar whose lines start at column `indent` or right of it. -/
def readPlain (fuel : Nat) (flow : Bool) (indent : Int) (cells : List Cell) :
    Option (List Char × Bool × List Cell) :=
  plainFrom flow indent fuel [] Gap.none cells

/-! ## Quoted scalars -/

/-- What an escape of a single character stands for. -/
def simpleEscape? : Char → Option Char
  | '0' => some '\x00'
  | 'a' => some '\x07'
  | 'b' => some '\x08'
  | 't' | '\t' => some '\t'
  | 'n' => some '\n'
  | 'v' => some '\x0b'
  | 'f' => some '\x0c'
  | 'r' => some '\r'
  | 'e' => some '\x1b'
  | ' ' => some ' '
  | '"' => some '"'
  | '/' => some '/'
  | '\\' => some '\\'
  | 'N' => some '\u0085'
  | '_' => some '\u00a0'
  | 'L' => some '\u2028'
  | 'P' => some '\u2029'
  | _ => none

/-- How many digits follow the mark of a numeric escape. -/
def codeLength? : Char → Option Nat
  | 'x' => some 2
  | 'u' => some 4
  | 'U' => some 8
  | _ => none

/-- The value of a hexadecimal digit. -/
def hexValue? (c : Char) : Option Nat :=
  if c.toNat < 128 then (Hex.nibble? (UInt8.ofNat c.toNat)).map UInt8.toNat else none

/-- Read a number of exactly `count` hexadecimal digits. -/
def readHexCode : (count n : Nat) → List Cell → Option (Nat × List Cell)
  | 0, n, cells => some (n, cells)
  | _ + 1, _, [] => none
  | count + 1, n, c :: rest => do readHexCode count (16 * n + (← hexValue? c.char)) rest

/-- Read the character that a backslash introduces. -/
def readEscape : List Cell → Option (Char × List Cell)
  | [] => none
  | c :: rest =>
    match simpleEscape? c.char, codeLength? c.char with
    | some d, _ => some (d, rest)
    | none, some count => do
      let (code, rest) ← readHexCode count 0 rest
      if (0xD800 ≤ code ∧ code ≤ 0xDFFF) ∨ 0x10FFFF < code then none
      else return (Char.ofNat code, rest)
    | none, none => none

/-- Read a piece of a quoted scalar, up to a blank, a break or the closing quote. An escaped line
    break ends the piece too; the flag says so. -/
def quotedPiece (single : Bool) :
    (fuel : Nat) → List Cell → Option (List Char × Bool × List Cell)
  | 0, _ => none
  | _ + 1, [] => some ([], false, [])
  | fuel + 1, c :: rest =>
    if isSpace c.char || isBreak c.char then some ([], false, c :: rest)
    else if single && c.char = '\'' then
      if startsWith '\'' rest then
        (quotedPiece single fuel rest.tail).map fun (piece, b, rest) => ('\'' :: piece, b, rest)
      else some ([], false, c :: rest)
    else if !single && c.char = '"' then some ([], false, c :: rest)
    else if !single && c.char = '\\' then
      if startsBreak rest then some ([], true, (takeBreak rest).2)
      else do
        let (d, rest) ← readEscape rest
        let (piece, b, rest) ← quotedPiece single fuel rest
        return (d :: piece, b, rest)
    else (quotedPiece single fuel rest).map fun (piece, b, rest) => (c.char :: piece, b, rest)

/-- Go on reading a quoted scalar, up to and with its closing quote. -/
def quotedFrom (single : Bool) :
    (fuel : Nat) → (text : List Char) → List Cell → Option (List Char × List Cell)
  | 0, _, _ => none
  | fuel + 1, text, cells =>
    if atDocumentMarker cells || cells.isEmpty then none
    else do
      let (piece, escaped, rest) ← quotedPiece single fuel cells
      let text := text ++ piece
      if startsWith (if single then '\'' else '"') rest then return (text, rest.tail)
      let (gap, rest) ← readGap 0 fuel { Gap.none with broken := escaped } rest
      quotedFrom single fuel (text ++ gap.text) rest

/-- Read a quoted scalar after its opening quote. -/
def readQuotedScalar (fuel : Nat) (single : Bool) (cells : List Cell) :
    Option (List Char × List Cell) :=
  quotedFrom single fuel [] cells

/-! ## Block scalars -/

/-- What becomes of the line breaks at the end of a block scalar. -/
inductive Chomping where
  | strip
  | clip
  | keep
  deriving DecidableEq

def readChomping : List Cell → Option Chomping × List Cell
  | [] => (none, [])
  | c :: rest =>
    if c.char = '+' then (some .keep, rest)
    else if c.char = '-' then (some .strip, rest)
    else (none, c :: rest)

/-- An indentation indicator is a digit other than zero. -/
def readIndentation : List Cell → Option (Option Nat × List Cell)
  | [] => some (none, [])
  | c :: rest =>
    if c.char = '0' then none
    else if '1' ≤ c.char ∧ c.char ≤ '9' then some (some (c.char.toNat - '0'.toNat), rest)
    else some (none, c :: rest)

/-- Read the two indicators of a block scalar, in either order. -/
def readIndicators (cells : List Cell) : Option (Chomping × Option Nat × List Cell) :=
  match readChomping cells with
  | (some chomping, rest) => do
    let (indentation, rest) ← readIndentation rest
    return (chomping, indentation, rest)
  | (none, rest) => do
    match ← readIndentation rest with
    | (none, rest) => return (.clip, none, rest)
    | (some indentation, rest) =>
      let (chomping, rest) := readChomping rest
      return (chomping.getD .clip, some indentation, rest)

/-- The rest of a line that may hold a comment and nothing else. -/
def finishLine (cells : List Cell) : Option (List Cell) :=
  let cells := skipSpaces cells
  let cells := if startsWith '#' cells then skipToBreak cells else cells
  if cells.isEmpty then some []
  else if startsBreak cells then some (takeBreak cells).2
  else none

/-- Read the blank lines before a line of a block scalar. With `indent` unknown, spaces are
    passed over without a limit and the rightmost column is kept in `deepest`. -/
def blankLines (indent : Option Nat) :
    (fuel deepest : Nat) → (breaks : List Char) → List Cell → Option (Nat × List Char × List Cell)
  | 0, deepest, breaks, cells => some (deepest, breaks, cells)
  | fuel + 1, deepest, breaks, cells =>
    let within (c : Cell) : Bool := indent.all (c.column < ·)
    let rest := cells.dropWhile fun c => within c && c.char = ' '
    match rest with
    | [] => some (deepest, breaks, [])
    | c :: _ =>
      let deepest := max deepest c.column
      if within c && c.char = '\t' then none
      else if isBreak c.char then
        let (b, rest) := takeBreak rest
        blankLines indent fuel deepest (breaks ++ b) rest
      else some (deepest, breaks, rest)

/-- The line breaks at the end of a block scalar that belong to it. -/
def Chomping.ending (pending breaks : List Char) : Chomping → List Char
  | .strip => []
  | .clip => pending
  | .keep => pending ++ breaks

/-- The lines of a block scalar. `pending` is the break after the line before, `breaks` the blank
    lines after that, and `spaced` says whether that line started with a blank. -/
def blockLines (literal : Bool) (chomping : Chomping) (indent : Nat) :
    (fuel : Nat) → (text pending breaks : List Char) → (spaced : Bool) → List Cell →
      Option (List Char × List Cell)
  | 0, _, _, _, _, _ => none
  | fuel + 1, text, pending, breaks, spaced, cells =>
    if cells.head?.any (·.column = indent) then do
      let spacedNow := startsSpace cells
      let folds := !literal && pending = ['\n'] && !spaced && !spacedNow
      let joint := if folds then (if breaks.isEmpty then [' '] else []) else pending
      let (line, rest) := takeRun (!isBreak ·) cells
      let (b, rest) := if rest.isEmpty then ([], []) else takeBreak rest
      let (_, more, rest) ← blankLines (some indent) fuel 0 [] rest
      blockLines literal chomping indent fuel (text ++ joint ++ breaks ++ line) b more spacedNow
        rest
    else some (text ++ chomping.ending pending breaks, cells)

/-- Read a block scalar after its first character, inside a collection of indentation `parent`. -/
def readBlockScalar (fuel : Nat) (literal : Bool) (parent : Int) (cells : List Cell) :
    Option (List Char × List Cell) := do
  let (chomping, indentation, rest) ← readIndicators cells
  let rest ← finishLine rest
  let given := indentation.map fun n => if 0 ≤ parent then parent.toNat + n else n
  let (deepest, breaks, rest) ← blankLines given fuel 0 [] rest
  let indent := given.getD (max deepest (max (parent + 1).toNat 1))
  blockLines literal chomping indent fuel [] [] breaks false rest

end Ssz.Text.Yaml

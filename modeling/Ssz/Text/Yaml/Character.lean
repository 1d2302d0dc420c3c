-- SUMMARY: Character classes of YAML, and the characters of a text with their positions.

/-!
# Characters of YAML texts

The lexer works on cells, which are characters together with their place in the
text. Indentation is read off the columns, which count characters, and the limit
on the length of a key off the indices, which count bytes.
-/

namespace Ssz.Text.Yaml

/-! ## Classes -/

/-- Characters that may occur in a text at all. -/
def isAllowed (c : Char) : Bool :=
  let n := c.toNat
  n = 0x09 || n = 0x0A || n = 0x0D || (0x20 ≤ n && n ≤ 0x7E) || n = 0x85
    || (0xA0 ≤ n && n ≤ 0xD7FF) || (0xE000 ≤ n && n ≤ 0xFFFD) || 0x10000 ≤ n

/-- A space or a tab. -/
def isSpace (c : Char) : Bool := c = ' ' || c = '\t'

/-- A character that ends a line. -/
def isBreak (c : Char) : Bool :=
  c = '\n' || c = '\r' || c = '\u0085' || c = '\u2028' || c = '\u2029'

/-- A character of an anchor, a directive or the handle of a tag. -/
def isWord (c : Char) : Bool :=
  ('0' ≤ c && c ≤ '9') || ('A' ≤ c && c ≤ 'Z') || ('a' ≤ c && c ≤ 'z') || c = '_' || c = '-'

/-- The mark that may stand at the start of a line, where it takes a column. -/
def byteOrderMark : Char := '\uFEFF'

/-! ## Cells -/

structure Cell where
  char : Char
  /-- How many bytes of UTF-8 come before it. -/
  index : Nat
  line : Nat
  /-- How many characters of its line come before it. -/
  column : Nat
  deriving Repr

namespace Cell

/-- The cells of a text that starts at the given position. A carriage return and the line feed
    after it end one line. -/
def layOut (index line column : Nat) : List Char → List Cell
  | [] => []
  | c :: cs =>
    let opensPair := c = '\r' && cs.head? = some '\n'
    ⟨c, index, line, column⟩ ::
      if isBreak c && !opensPair then layOut (index + c.utf8Size) (line + 1) 0 cs
      else layOut (index + c.utf8Size) line (column + 1) cs

/-- The cells of a whole text. -/
def ofText (text : List Char) : List Cell := layOut 0 0 0 text

end Cell

/-- Whether these cells start with a blank or a line break, or there are none. -/
def atGap : List Cell → Bool
  | [] => true
  | c :: _ => isSpace c.char || isBreak c.char

/-- Whether the next character is `c`. -/
def startsWith (c : Char) : List Cell → Bool
  | [] => false
  | d :: _ => d.char = c

def startsSpace : List Cell → Bool
  | [] => false
  | c :: _ => isSpace c.char

def startsBreak : List Cell → Bool
  | [] => false
  | c :: _ => isBreak c.char

/-- Whether a line that marks the start or the end of a document begins here. -/
def atMarker (c : Char) : List Cell → Bool
  | x :: y :: z :: rest =>
    x.column = 0 && x.char = c && y.char = c && z.char = c && atGap rest
  | _ => false

def atDocumentMarker (cells : List Cell) : Bool := atMarker '-' cells || atMarker '.' cells

/-- Split off a line break. It reads as a line feed, unless it is one of the two separators of
    Unicode. -/
def takeBreak : List Cell → List Char × List Cell
  | [] => ([], [])
  | c :: rest =>
    if c.char = '\r' && startsWith '\n' rest then (['\n'], rest.tail)
    else if c.char = '\u2028' || c.char = '\u2029' then ([c.char], rest)
    else (['\n'], rest)

/-- Split off the longest run of characters of a class. -/
def takeRun (p : Char → Bool) (cells : List Cell) : List Char × List Cell :=
  let (run, rest) := cells.span (p ·.char)
  (run.map Cell.char, rest)

/-- The cells from the next line break on. -/
def skipToBreak (cells : List Cell) : List Cell := cells.dropWhile (!isBreak ·.char)

def skipSpaces (cells : List Cell) : List Cell := cells.dropWhile (isSpace ·.char)

end Ssz.Text.Yaml

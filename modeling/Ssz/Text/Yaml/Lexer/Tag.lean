-- SUMMARY: Reading anchors, tags and directives from cells.
import Ssz.Text.Hex
import Ssz.Text.Yaml.Character
import Ssz.Text.Yaml.Lexer.Scalar
import Ssz.Text.Yaml.Token

/-!
# Anchors, tags and directives

A tag is a handle and a suffix. The handle is looked up among the tag directives
of the document; here it is only read.
-/

namespace Ssz.Text.Yaml

/-! ## Anchors -/

/-- Characters that may follow an anchor. -/
def endsAnchor (cells : List Cell) : Bool :=
  atGap cells
    || cells.head?.any fun c => ['?', ':', ',', ']', '\x7d', '%', '@', '\x60'].contains c.char

/-- Read the name of an anchor or an alias. -/
def readAnchor (cells : List Cell) : Option (List Char × List Cell) :=
  let (name, rest) := takeRun isWord cells
  if name.isEmpty || !endsAnchor rest then none else some (name, rest)

/-! ## Tags -/

/-- Characters of a URI besides words; brackets and commas only between angle brackets. -/
def isUri (verbatim : Bool) (c : Char) : Bool :=
  isWord c || [';', '/', '?', ':', '@', '&', '=', '+', '$', '.', '%', '!', '~', '*', '\'', '(',
    ')'].contains c || (verbatim && [',', '[', ']'].contains c)

/-- Read one byte that is written as two digits after a percent sign. -/
def readByte (cells : List Cell) : Option (UInt8 × List Cell) :=
  if startsWith '%' cells then
    (readHexCode 2 0 cells.tail).map fun (n, rest) => (UInt8.ofNat n, rest)
  else none

/-- How many bytes follow the first byte of a character in UTF-8. -/
def trailingBytes? (first : UInt8) : Option Nat :=
  if first < 0x80 then some 0
  else if 0xC0 ≤ first ∧ first < 0xE0 then some 1
  else if 0xE0 ≤ first ∧ first < 0xF0 then some 2
  else if 0xF0 ≤ first ∧ first < 0xF8 then some 3
  else none

/-- Read the bytes after the first one of a character. -/
def readTrailing : (count : Nat) → List Cell → Option (Bytes × List Cell)
  | 0, cells => some ([], cells)
  | count + 1, cells => do
    let (b, rest) ← readByte cells
    if 0x80 ≤ b ∧ b < 0xC0 then
      (readTrailing count rest).map fun (bytes, rest) => (b :: bytes, rest)
    else none

/-- Read a character that is written as its bytes. Only their number is checked, so that they may
    be longer than they need be or stand for no character. -/
def readPercent (cells : List Cell) : Option (Bytes × List Cell) := do
  let (first, rest) ← readByte cells
  let (trailing, rest) ← readTrailing (← trailingBytes? first) rest
  return (first :: trailing, rest)

/-- Read the bytes of a URI. -/
def readUri (verbatim : Bool) : (fuel : Nat) → List Cell → Option (Bytes × List Cell)
  | 0, cells => some ([], cells)
  | _ + 1, [] => some ([], [])
  | fuel + 1, c :: rest =>
    if c.char = '%' then do
      let (bytes, rest) ← readPercent (c :: rest)
      let (uri, rest) ← readUri verbatim fuel rest
      return (bytes ++ uri, rest)
    else if isUri verbatim c.char then
      (readUri verbatim fuel rest).map fun (uri, rest) => (Hex.utf8 [c.char] ++ uri, rest)
    else some ([], c :: rest)

/-- What counts of a URI: the bytes before the first zero. -/
def beforeZero (uri : Bytes) : Bytes := uri.takeWhile (· ≠ 0)

/-- The bytes of an exclamation mark alone. -/
def markAlone : Bytes := Hex.utf8 ['!']

/-- Read a handle: an exclamation mark, a word and perhaps another mark. -/
def readHandle (cells : List Cell) : Option (List Char × List Cell) :=
  if startsWith '!' cells then
    let (word, rest) := takeRun isWord cells.tail
    if startsWith '!' rest then some ('!' :: word ++ ['!'], rest.tail) else some ('!' :: word, rest)
  else none

/-- Read a tag in one of its forms: a URI between angle brackets, a suffix after a handle, or a
    suffix after a single mark. The mark alone has no handle. -/
def readTagParts (fuel : Nat) (cells : List Cell) : Option (List Char × Bytes × List Cell) := do
  if startsWith '<' cells.tail then
    let (uri, rest) ← readUri true fuel cells.tail.tail
    if uri.isEmpty || !startsWith '>' rest then none else return ([], beforeZero uri, rest.tail)
  else
    let (handle, rest) ← readHandle cells
    if 1 < handle.length && handle.getLast? = some '!' then
      let (suffix, rest) ← readUri false fuel rest
      if suffix.isEmpty then none else return (handle, beforeZero suffix, rest)
    else
      let (more, rest) ← readUri false fuel rest
      let suffix := beforeZero (Hex.utf8 handle.tail ++ more)
      if suffix.isEmpty then return ([], markAlone, rest) else return (['!'], suffix, rest)

/-- Read a tag and make sure that it ends. -/
def readTag (fuel : Nat) (flow : Bool) (cells : List Cell) : Option (Token × List Cell) := do
  let (handle, suffix, rest) ← readTagParts fuel cells
  if atGap rest || (flow && startsWith ',' rest) then return (.tag handle suffix, rest) else none

/-! ## Directives -/

/-- Read a version number of at most nine digits. -/
def readVersionNumber (cells : List Cell) : Option (Nat × List Cell) :=
  let (digits, rest) := takeRun (fun c => '0' ≤ c ∧ c ≤ '9') cells
  if digits.isEmpty || 9 < digits.length then none
  else some (digits.foldl (fun n c => 10 * n + (c.toNat - '0'.toNat)) 0, rest)

def readVersion (cells : List Cell) : Option (Token × List Cell) := do
  let (major, rest) ← readVersionNumber (skipSpaces cells)
  if startsWith '.' rest then
    let (minor, rest) ← readVersionNumber rest.tail
    return (.versionDirective major minor, rest)
  else none

def readTagDirective (fuel : Nat) (cells : List Cell) : Option (Token × List Cell) := do
  let (handle, rest) ← readHandle (skipSpaces cells)
  if 1 < handle.length && handle.getLast? ≠ some '!' then none
  if !startsSpace rest then none
  let (uri, rest) ← readUri true fuel (skipSpaces rest)
  if uri.isEmpty || !atGap rest then none
  return (.tagDirective handle (beforeZero uri), rest)

/-- Read a directive after its percent sign, with the rest of its line. -/
def readDirective (fuel : Nat) (cells : List Cell) : Option (Token × List Cell) := do
  let (name, rest) := takeRun isWord cells
  if !atGap rest then none
  let (token, rest) ←
    if name = ['Y', 'A', 'M', 'L'] then readVersion rest
    else if name = ['T', 'A', 'G'] then readTagDirective fuel rest
    else none
  return (token, ← finishLine rest)

end Ssz.Text.Yaml

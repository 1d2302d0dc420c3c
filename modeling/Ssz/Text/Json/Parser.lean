-- SUMMARY: Reading a text tree from JSON text.
import Ssz.Text.Hex
import Ssz.Text.Json.Numeral

/-!
# Reading JSON

A text that is the start of some JSON text is told apart from one that no
continuation could mend. At most 127 arrays and objects may be nested.
-/

namespace Ssz.Text.Json

/-- How many arrays and objects may be nested. -/
def maxDepth : Nat := 127

/-- The text from its first character that is not blank. -/
def skipBlank : List Char → List Char
  | ' ' :: cs | '\n' :: cs | '\t' :: cs | '\r' :: cs => skipBlank cs
  | cs => cs

/-! ## Words and strings -/

/-- Read the rest of a word. -/
def readWord : (word : List Char) → List Char → Except Fault (List Char)
  | [], rest => .ok rest
  | _ :: _, [] => .error .incomplete
  | w :: word, c :: cs => if c = w then readWord word cs else .error .invalid

/-- The value of a hexadecimal digit. -/
def hexDigit? (c : Char) : Option Nat :=
  if c.toNat < 128 then (Hex.nibble? (UInt8.ofNat c.toNat)).map UInt8.toNat else none

/-- Read the four digits of an escape. The text is too short if it has fewer than four bytes. -/
def readCode (text : List Char) : Except Fault (Nat × List Char) :=
  if (Hex.utf8 (text.take 4)).length < 4 then .error .incomplete
  else
    match text with
    | a :: b :: c :: d :: rest =>
      match hexDigit? a, hexDigit? b, hexDigit? c, hexDigit? d with
      | some a, some b, some c, some d => .ok (((a * 16 + b) * 16 + c) * 16 + d, rest)
      | _, _, _, _ => .error .invalid
    | _ => .error .invalid

/-- The character of a surrogate pair. -/
def ofSurrogates (high low : Nat) : Char :=
  Char.ofNat (0x10000 + (high - 0xD800) * 0x400 + (low - 0xDC00))

/-- Read the second half of a surrogate pair. -/
def readLowSurrogate (high : Nat) : List Char → Except Fault (Char × List Char)
  | [] => .error .incomplete
  | '\\' :: cs =>
    match cs with
    | [] => .error .incomplete
    | 'u' :: cs => do
      let (low, rest) ← readCode cs
      if 0xDC00 ≤ low ∧ low ≤ 0xDFFF then return (ofSurrogates high low, rest)
      else throw .invalid
    | _ => .error .invalid
  | _ => .error .invalid

/-- Read the character that a backslash introduces. -/
def readEscape : List Char → Except Fault (Char × List Char)
  | [] => .error .incomplete
  | '"' :: cs => .ok ('"', cs)
  | '\\' :: cs => .ok ('\\', cs)
  | '/' :: cs => .ok ('/', cs)
  | 'b' :: cs => .ok ('\x08', cs)
  | 'f' :: cs => .ok ('\x0c', cs)
  | 'n' :: cs => .ok ('\n', cs)
  | 'r' :: cs => .ok ('\r', cs)
  | 't' :: cs => .ok ('\t', cs)
  | 'u' :: cs => do
    let (code, rest) ← readCode cs
    if 0xDC00 ≤ code ∧ code ≤ 0xDFFF then throw .invalid
    else if 0xD800 ≤ code ∧ code ≤ 0xDBFF then readLowSurrogate code rest
    else return (Char.ofNat code, rest)
  | _ => .error .invalid

/-- Read a string up to its closing quote. Each character takes at least one step. -/
def readString : (fuel : Nat) → List Char → Except Fault (List Char × List Char)
  | 0, _ => .error .incomplete
  | _ + 1, [] => .error .incomplete
  | fuel + 1, c :: cs =>
    if c = '"' then .ok ([], cs)
    else if c = '\\' then do
      let (c, rest) ← readEscape cs
      let (s, rest) ← readString fuel rest
      return (c :: s, rest)
    else if c.toNat < 0x20 then .error .invalid
    else do
      let (s, rest) ← readString fuel cs
      return (c :: s, rest)

/-- Read a string after its opening quote. -/
def readQuoted (fuel : Nat) (text : List Char) : Except Fault (String × List Char) := do
  let (s, rest) ← readString fuel text
  return (String.ofList s, rest)

/-- Read a key, its colon and the blanks around it. -/
def readKey (fuel : Nat) : List Char → Except Fault (String × List Char)
  | '"' :: cs => do
    let (key, rest) ← readQuoted fuel cs
    match skipBlank rest with
    | ':' :: cs => return (key, cs)
    | [] => throw .incomplete
    | _ => throw .invalid
  | [] => .error .incomplete
  | _ => .error .invalid

/-! ## Values -/

mutual

/-- Read a value, with at most `depth` arrays and objects nested. -/
def readValue : (fuel depth : Nat) → List Char → Except Fault (Tree × List Char)
  | 0, _, _ => .error .invalid
  | fuel + 1, depth, text =>
    match skipBlank text with
    | [] => .error .incomplete
    | 'n' :: cs => do return (.null, ← readWord ['u', 'l', 'l'] cs)
    | 't' :: cs => do return (.bool true, ← readWord ['r', 'u', 'e'] cs)
    | 'f' :: cs => do return (.bool false, ← readWord ['a', 'l', 's', 'e'] cs)
    | '"' :: cs => do
      let (s, rest) ← readQuoted fuel cs
      return (.string s, rest)
    | '[' :: cs =>
      if depth = 0 then .error .invalid
      else
        match skipBlank cs with
        | ']' :: rest => .ok (.array [], rest)
        | [] => .error .incomplete
        | cs => do
          let (items, rest) ← readItems fuel (depth - 1) cs
          return (.array items, rest)
    | '\x7b' :: cs =>
      if depth = 0 then .error .invalid
      else
        match skipBlank cs with
        | '\x7d' :: rest => .ok (.object [], rest)
        | cs => do
          let (entries, rest) ← readEntries fuel (depth - 1) cs
          return (.object (Tree.ofEntries entries), rest)
    | c :: cs =>
      if c = '-' ∨ (Decimal.digit? c).isSome then do
        let (n, rest) ← readNumber (c :: cs)
        return (.number n, rest)
      else .error .invalid
termination_by structural fuel => fuel

/-- Read items, of which there is at least one, and the end of the array. -/
def readItems : (fuel depth : Nat) → List Char → Except Fault (List Tree × List Char)
  | 0, _, _ => .error .invalid
  | fuel + 1, depth, text => do
    let (t, rest) ← readValue fuel depth text
    match skipBlank rest with
    | ']' :: rest => return ([t], rest)
    | ',' :: cs =>
      let (items, rest) ← readItems fuel depth cs
      return (t :: items, rest)
    | [] => throw .incomplete
    | _ => throw .invalid
termination_by structural fuel => fuel

/-- Read entries, of which there is at least one, and the end of the object. -/
def readEntries : (fuel depth : Nat) → List Char → Except Fault (List (String × Tree) × List Char)
  | 0, _, _ => .error .invalid
  | fuel + 1, depth, text => do
    let (key, rest) ← readKey fuel text
    let (t, rest) ← readValue fuel depth rest
    match skipBlank rest with
    | '\x7d' :: rest => return ([(key, t)], rest)
    | ',' :: cs =>
      let (entries, rest) ← readEntries fuel depth (skipBlank cs)
      return ((key, t) :: entries, rest)
    | [] => throw .incomplete
    | _ => throw .invalid
termination_by structural fuel => fuel

end

/-- Nothing but blanks may follow a value. -/
def expectEnd (text : List Char) : Except Fault Unit :=
  if (skipBlank text).isEmpty then .ok () else .error .invalid

/-- Read a text that holds one value. Every two steps take at least one character. -/
def parse (text : List Char) : Except Fault Tree := do
  let (t, rest) ← readValue (2 * text.length + 2) maxDepth text
  expectEnd rest
  return t

/-- Read the string that a text starts with. A value of another kind gives none, and of an array
    or an object only the bracket is read. -/
def readLeadingString (text : List Char) : Except Fault (Option String × List Char) :=
  match skipBlank text with
  | '"' :: cs => do
    let (s, rest) ← readQuoted (cs.length + 1) cs
    return (some s, rest)
  | '[' :: cs | '\x7b' :: cs => .ok (none, cs)
  | cs => do
    let (_, rest) ← readValue 1 0 cs
    return (none, rest)

end Ssz.Text.Json

-- SUMMARY: Compact JSON text of a text tree.
import Ssz.Text.Tree

/-!
# Writing JSON

Texts hold no blank outside strings. In a string only the quote, the backslash
and the control characters below the blank are escaped.
-/

namespace Ssz.Text.Json

/-- A character of a string, escaped where it has to be. -/
def escape (c : Char) : List Char :=
  match c with
  | '"' => ['\\', '"']
  | '\\' => ['\\', '\\']
  | '\x08' => ['\\', 'b']
  | '\x0c' => ['\\', 'f']
  | '\n' => ['\\', 'n']
  | '\r' => ['\\', 'r']
  | '\t' => ['\\', 't']
  | c =>
    if c.toNat < 0x20 then
      ['\\', 'u', '0', '0', Nat.digitChar (c.toNat / 16), Nat.digitChar (c.toNat % 16)]
    else [c]

/-- A string between quotes. -/
def quote (s : List Char) : List Char := '"' :: s.flatMap escape ++ ['"']

mutual

def printTree : Tree → List Char
  | .null => ['n', 'u', 'l', 'l']
  | .bool true => ['t', 'r', 'u', 'e']
  | .bool false => ['f', 'a', 'l', 's', 'e']
  | .number n => n.render.toList
  | .string s => quote s.toList
  | .array [] => ['[', ']']
  | .array (t :: items) => '[' :: printTree t ++ printItems items
  | .object [] => ['\x7b', '\x7d']
  | .object ((key, t) :: entries) =>
    '\x7b' :: quote key.toList ++ ':' :: printTree t ++ printEntries entries
termination_by structural t => t

/-- The items after the first, and the end of the array. -/
def printItems : List Tree → List Char
  | [] => [']']
  | t :: items => ',' :: printTree t ++ printItems items
termination_by structural items => items

/-- The entries after the first, and the end of the object. -/
def printEntries : List (String × Tree) → List Char
  | [] => ['\x7d']
  | (key, t) :: entries => ',' :: quote key.toList ++ ':' :: printTree t ++ printEntries entries
termination_by structural entries => entries

end

/-- The compact text of a tree. -/
def print (t : Tree) : String := String.ofList (printTree t)

end Ssz.Text.Json

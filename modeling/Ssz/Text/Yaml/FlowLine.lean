-- SUMMARY: Flow lines, the single-line YAML texts of text trees.
import Ssz.Text.Tree

/-!
# Flow lines

A tree is written as one line in flow style. Hexadecimal strings and numbers too
large for 64 bits are quoted; smaller decimal strings are bare. Nothing is
escaped, and keys are written as they stand.
-/

namespace Ssz.Text.Yaml.FlowLine

/-- A string, bare if it is a decimal number that fits 64 bits. -/
def printString (s : List Char) : List Char :=
  if Decimal.isNumeral Number.bound s then s else '\'' :: s ++ ['\'']

mutual

def printTree : Tree → List Char
  | .null => ['n', 'u', 'l', 'l']
  | .bool true => ['t', 'r', 'u', 'e']
  | .bool false => ['f', 'a', 'l', 's', 'e']
  | .number n => n.render.toList
  | .string s => printString s.toList
  | .array [] => ['[', ']']
  | .array (t :: items) => '[' :: printTree t ++ printItems items
  | .object [] => ['\x7b', '\x7d']
  | .object ((key, t) :: entries) =>
    '\x7b' :: key.toList ++ ':' :: ' ' :: printTree t ++ printEntries entries
termination_by structural t => t

/-- The items after the first, and the end of the sequence. -/
def printItems : List Tree → List Char
  | [] => [']']
  | t :: items => ',' :: ' ' :: printTree t ++ printItems items
termination_by structural items => items

/-- The entries after the first, and the end of the mapping. -/
def printEntries : List (String × Tree) → List Char
  | [] => ['\x7d']
  | (key, t) :: entries =>
    ',' :: ' ' :: key.toList ++ ':' :: ' ' :: printTree t ++ printEntries entries
termination_by structural entries => entries

end

/-- The line of a tree, with its line feed. -/
def print (t : Tree) : String := String.ofList (printTree t ++ ['\n'])

end Ssz.Text.Yaml.FlowLine

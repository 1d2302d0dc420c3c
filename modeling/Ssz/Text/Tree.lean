-- SUMMARY: Text trees, the common form of JSON and YAML texts.
import Ssz.Text.Binary64
import Ssz.Text.Decimal

/-!
# Text trees

JSON and YAML texts are read into one kind of tree and written from it. Objects
keep their entries in the order in which their keys first appeared, and a later
entry of a key replaces an earlier one.
-/

namespace Ssz.Text

/-- A number of a text. Whole numbers of 64 bits are exact. -/
inductive Number where
  | natural (n : Nat)
  /-- The number `-n`. -/
  | negative (n : Nat)
  | float (x : Binary64)
  deriving DecidableEq, Repr

/-- One more than the greatest whole number that is kept exact, `2 ^ 64`. -/
def Number.bound : Nat := 0x10000000000000000

/-- Magnitude of the least whole number that is kept exact, `2 ^ 63`. -/
def Number.maxNegative : Nat := 0x8000000000000000

def Number.render : Number → String
  | .natural n => Decimal.render n
  | .negative n => s!"-{Decimal.render n}"
  | .float x => x.render

inductive Tree where
  | null
  | bool (b : Bool)
  | number (n : Number)
  | string (s : String)
  | array (items : List Tree)
  | object (entries : List (String × Tree))
  deriving Inhabited, Repr

namespace Tree

/-- What kind of tree this is, for messages. -/
def kind : Tree → String
  | .null => "null"
  | .bool _ => "boolean"
  | .number _ => "number"
  | .string _ => "string"
  | .array _ => "array"
  | .object _ => "object"

/-- Set the entry of a key, in its place if there is one and at the end otherwise. -/
def insert (key : String) (t : Tree) : List (String × Tree) → List (String × Tree)
  | [] => [(key, t)]
  | (k, u) :: entries => if k = key then (k, t) :: entries else (k, u) :: insert key t entries

/-- Entries with each key once, the last one of a key in the place of its first. -/
def ofEntries (entries : List (String × Tree)) : List (String × Tree) :=
  entries.foldl (fun acc (key, t) => insert key t acc) []

end Tree

end Ssz.Text

-- SUMMARY: Hexadecimal forms of byte strings of a fixed length: roots, keys and signatures.
import Ssz.Text.Hex
import Ssz.Text.Json.Parser
import Ssz.Text.Json.Printer

/-!
# Fixed byte strings as text

Roots, public keys and signatures are byte strings of a fixed length. They are
shown as marked hexadecimal text, and read with or without the mark. In JSON
they are strings of that text.
-/

namespace Ssz.ByteVector

open Text

variable {n : Nat}

/-! ## Digits -/

/-- Lowercase digits without the mark. -/
def toHex (x : ByteVector n) : String := Hex.render x.toList

/-- Lowercase digits with the mark. -/
def display (x : ByteVector n) : String := Hex.renderMarked x.toList

/-- The name of the type and the first eight bytes. -/
def summary (name : String) (x : ByteVector n) : String :=
  s!"{name}({Hex.renderMarked (x.toList.take 8)})"

/-- Read digits of exactly `n` bytes. -/
def ofHex (n : Nat) (text : String) : Except HexError (ByteVector n) := do
  match ofList? n (← Hex.readMarked text.toList) with
  | some x => return x
  | none => throw .invalidLength

/-! ## JSON strings -/

/-- Why a JSON text is not a string of digits. -/
inductive JsonError where
  | notWellFormed
  /-- A value that is no string, or a string that does not hold the digits. -/
  | wrongContents
  deriving DecidableEq, Repr

def toJson (x : ByteVector n) : String := Json.print (.string x.display)

/-- Read a JSON string of digits. Its contents are looked at before what follows it. -/
def ofJson (n : Nat) (text : String) : Except JsonError (ByteVector n) :=
  match Json.readLeadingString text.toList with
  | .error _ => .error .notWellFormed
  | .ok (none, _) => .error .wrongContents
  | .ok (some digits, rest) =>
    match ofHex n digits, Json.expectEnd rest with
    | .error _, _ => .error .wrongContents
    | .ok _, .error _ => .error .notWellFormed
    | .ok x, .ok () => .ok x

end Ssz.ByteVector

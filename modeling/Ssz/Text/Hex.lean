-- SUMMARY: Hexadecimal text: writing bytes, and reading them with the position of the first fault.
import Ssz.Bytes

/-!
# Hexadecimal text

Bytes are written as two lowercase digits each and read in either case. Faults
are reported by the byte of the text at which they occur, and such a byte is
quoted as the character of the same code.
-/

namespace Ssz

/-- Why a text does not denote bytes. -/
inductive HexError where
  | oddLength
  | invalidCharacter (c : UInt8) (index : Nat)
  | invalidLength
  deriving DecidableEq, Repr

namespace Hex

/-! ## Wording -/

/-- The lowercase hex digits of a small number, without leading zeros. -/
def shortDigits (b : UInt8) : List Char :=
  if b < 16 then [Nat.digitChar b.toNat]
  else [Nat.digitChar (b.toNat / 16), Nat.digitChar (b.toNat % 16)]

/-- Whether the character with this code is printed as it stands. Control characters, the
    no-break space and the soft hyphen are not. -/
def isPrintable (b : UInt8) : Bool :=
  (0x20 ≤ b && b < 0x7F) || (0xA0 < b && b ≠ 0xAD)

/-- The character with this code between single quotes. -/
def quoteChar (b : UInt8) : String :=
  let inner : List Char :=
    if b = 0x00 then ['\\', '0']
    else if b = 0x09 then ['\\', 't']
    else if b = 0x0A then ['\\', 'n']
    else if b = 0x0D then ['\\', 'r']
    else if b = 0x27 then ['\\', '\'']
    else if b = 0x5C then ['\\', '\\']
    else if isPrintable b then [Char.ofNat b.toNat]
    else ['\\', 'u', '\x7b'] ++ shortDigits b ++ ['\x7d']
  String.ofList ('\'' :: inner ++ ['\''])

end Hex

def HexError.message : HexError → String
  | .oddLength => "Odd number of digits"
  | .invalidCharacter c index => s!"Invalid character {Hex.quoteChar c} at position {index}"
  | .invalidLength => "Invalid string length"

namespace Hex

/-! ## Writing -/

/-- The digits of bytes, two each. -/
def digits (bytes : Bytes) : List Char :=
  bytes.flatMap fun b => [Nat.digitChar (b.toNat / 16), Nat.digitChar (b.toNat % 16)]

def render (bytes : Bytes) : String := String.ofList (digits bytes)

/-- Digits with the mark of hexadecimal in front. -/
def marked (bytes : Bytes) : List Char := '0' :: 'x' :: digits bytes

def renderMarked (bytes : Bytes) : String := String.ofList (marked bytes)

/-! ## Reading -/

/-- The value of a digit, given by its code. -/
def nibble? (b : UInt8) : Option UInt8 :=
  if 0x30 ≤ b ∧ b ≤ 0x39 then some (b - 0x30)
  else if 0x61 ≤ b ∧ b ≤ 0x66 then some (b - 0x61 + 10)
  else if 0x41 ≤ b ∧ b ≤ 0x46 then some (b - 0x41 + 10)
  else none

def nibble (index : Nat) (b : UInt8) : Except HexError UInt8 :=
  match nibble? b with
  | some n => .ok n
  | none => .error (.invalidCharacter b index)

/-- Read pairs of digits, the first of which is at `index`. -/
def readPairs (index : Nat) : Bytes → Except HexError Bytes
  | high :: low :: rest => do
    let h ← nibble index high
    let l ← nibble (index + 1) low
    return (16 * h + l) :: (← readPairs (index + 2) rest)
  | _ => .ok []

/-- The UTF-8 bytes of a text. -/
def utf8 (text : List Char) : Bytes := text.flatMap String.utf8EncodeChar

/-- Read bytes from their digits. -/
def read (text : List Char) : Except HexError Bytes :=
  let codes := utf8 text
  if codes.length % 2 = 1 then .error .oddLength else readPairs 0 codes

/-- The text without the mark of hexadecimal, which may be absent. -/
def unmarked : List Char → List Char
  | '0' :: 'x' :: digits => digits
  | text => text

/-- Read bytes from digits that may be marked. -/
def readMarked (text : List Char) : Except HexError Bytes := read (unmarked text)

end Hex

end Ssz

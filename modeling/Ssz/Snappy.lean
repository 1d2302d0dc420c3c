-- SUMMARY: One format of blocks: raw Snappy, with compression by literals.
import Ssz.Fixture.Case

/-!
# Snappy

A block starts with the length of its contents and goes on with elements, each of
which is a literal or a copy of bytes that came before. Compression here writes
literals only, which every reader of the format takes.

Fixtures are written and checked with any format of blocks; this is one of them.
-/

namespace Ssz.Snappy

/-- Why a block cannot be decompressed. -/
inductive SnappyError where
  | empty
  | header
  | tooBig
  | literal
  | copyRead
  | offset
  | copyWrite
  | lengthMismatch
  deriving DecidableEq, Repr

/-! ## Decompression -/

/-- Longest contents of a block. -/
def maxLength : Nat := 0xFFFFFFFF

/-- Read a length, seven bits a byte, the lowest first. The length is kept to 64 bits. -/
def readLength : (steps shift n : Nat) → Bytes → Option (Nat × Bytes)
  | 0, _, _, _ => none
  | _ + 1, _, _, [] => none
  | steps + 1, shift, n, b :: rest =>
    let bits := (b.toNat % 128) * Nat.pow 2 shift % 0x10000000000000000
    if b.toNat < 128 then some (n + bits, rest)
    else readLength steps (shift + 7) (n + bits) rest

/-- A copy element: how many bytes are copied, and from how far back. -/
structure Copy where
  length : Nat
  offset : Nat

/-- Read the rest of a copy element with this tag. -/
def readCopy (tag : Nat) (rest : Bytes) : Option (Copy × Bytes) :=
  match tag % 4 with
  | 1 =>
    match rest with
    | a :: rest => some (⟨4 + tag / 4 % 8, tag / 32 * 256 + a.toNat⟩, rest)
    | _ => none
  | 2 =>
    match rest with
    | a :: b :: rest => some (⟨1 + tag / 4, ofLittleEndian [a, b]⟩, rest)
    | _ => none
  | _ =>
    match rest with
    | a :: b :: c :: d :: rest => some (⟨1 + tag / 4, ofLittleEndian [a, b, c, d]⟩, rest)
    | _ => none

/-- Append `length` bytes, each of them the one `offset` places before it. -/
def copyBack (offset : Nat) : (length : Nat) → Array UInt8 → Array UInt8
  | 0, out => out
  | length + 1, out => copyBack offset length (out.push (out.getD (out.size - offset) 0))

/-- Read the length of a literal with this tag. It is in the tag, or in the one to four bytes
    after it; a short length may be written either way. -/
def literalLength (tag : Nat) (rest : Bytes) : Option (Nat × Bytes) :=
  let short := tag / 4 + 1
  let width := short - 60
  if width = 0 then some (short, rest)
  else if rest.length < width then none
  else some (ofLittleEndian (rest.take width) + 1, rest.drop width)

/-- Read elements until the input ends. Each takes at least one byte. -/
def readElements (expected : Nat) : (fuel : Nat) → Array UInt8 → Bytes →
    Except SnappyError (Array UInt8)
  | 0, _, _ => .error .literal
  | _ + 1, out, [] => if out.size = expected then .ok out else .error .lengthMismatch
  | fuel + 1, out, tag :: rest =>
    if tag.toNat % 4 = 0 then
      match literalLength tag.toNat rest with
      | none => .error .literal
      | some (length, rest) =>
        if expected < out.size + length ∨ rest.length < length then .error .literal
        else readElements expected fuel (out ++ (rest.take length).toArray) (rest.drop length)
    else
      match readCopy tag.toNat rest with
      | none => .error .copyRead
      | some (copy, rest) =>
        if copy.offset = 0 ∨ out.size < copy.offset then .error .offset
        else if expected < out.size + copy.length then .error .copyWrite
        else readElements expected fuel (copyBack copy.offset copy.length out) rest

/-- The contents of a block. -/
def decompress (block : Bytes) : Except SnappyError Bytes := do
  if block.isEmpty then throw .empty
  match readLength 10 0 0 block with
  | none => throw .header
  | some (expected, rest) =>
    if maxLength < expected then throw .tooBig
    else return (← readElements expected (rest.length + 1) #[] rest).toList

/-! ## Compression -/

/-- Write a length, seven bits a byte, the lowest first. -/
def writeLength : (steps n : Nat) → Bytes
  | 0, _ => []
  | steps + 1, n =>
    if n < 128 then [UInt8.ofNat n]
    else UInt8.ofNat (128 + n % 128) :: writeLength steps (n / 128)

/-- Longest literal whose length is in its tag. -/
def maxLiteral : Nat := 60

/-- A literal of one to sixty bytes. -/
def literal (bytes : Bytes) : Bytes := UInt8.ofNat (4 * (bytes.length - 1)) :: bytes

/-- Cut bytes into literals. Each takes at least one byte. -/
def literals : (fuel : Nat) → Bytes → Bytes
  | 0, _ => []
  | fuel + 1, bytes =>
    if bytes.isEmpty then []
    else literal (bytes.take maxLiteral) ++ literals fuel (bytes.drop maxLiteral)

/-- A block with these contents. -/
def compress (bytes : Bytes) : Bytes :=
  writeLength 10 bytes.length ++ literals (bytes.length + 1) bytes

/-! ## The format -/

/-- Raw Snappy as a format of blocks. -/
def format : Fixture.BlockFormat where
  compress bytes := if maxLength < bytes.length then .error "too big" else .ok (compress bytes)
  decompress block := (decompress block).mapError fun _ => "corrupt input"

end Ssz.Snappy

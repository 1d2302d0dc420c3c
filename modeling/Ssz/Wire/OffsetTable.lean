-- SUMMARY: The offset table of a composite: joining encoded parts and splitting them again.
import Ssz.Bytes
import Ssz.Error
import Ssz.Shape

/-!
# Offset tables

A composite starts with a prefix that holds each part of fixed size in place and,
for each other part, the offset at which it starts. The parts that the offsets
point at follow in order, without gaps. `OffsetTable.join` writes this layout and
`OffsetTable.split` reads it.
-/

namespace Ssz.OffsetTable

/-! ## Joining -/

/-- An encoded part, and whether its shape is of fixed size. -/
structure Segment where
  fixed : Bool
  body : Bytes
  deriving DecidableEq, Repr

/-- Bytes that a part takes in the prefix. -/
def Segment.prefixSize (segment : Segment) : Nat :=
  if segment.fixed then segment.body.length else bytesPerOffset

/-- Length of the whole prefix. -/
def prefixLength (parts : List Segment) : Nat :=
  parts.foldr (fun part size => part.prefixSize + size) 0

/-- The prefix, where the next part that is not of fixed size starts at `offset`. -/
def heads (offset : Nat) : List Segment → Except EncodeError Bytes
  | [] => .ok []
  | ⟨true, body⟩ :: parts => do return body ++ (← heads offset parts)
  | ⟨false, body⟩ :: parts =>
    if offset < Nat.pow 256 bytesPerOffset then do
      return littleEndian bytesPerOffset offset ++ (← heads (offset + body.length) parts)
    else .error (.offsetOverflow offset)

/-- The parts that the offsets point at. -/
def bodies (parts : List Segment) : Bytes := (parts.filter (!·.fixed)).flatMap Segment.body

/-- Lay out the parts of a composite. -/
def join (parts : List Segment) : Except EncodeError Bytes := do
  return (← heads (prefixLength parts) parts) ++ bodies parts

/-! ## Splitting -/

/-- The place of a part in the prefix: its size when that is fixed, or an offset. -/
abbrev Slot := Option Nat

def Slot.size (slot : Slot) : Nat := slot.getD bytesPerOffset

/-- What the prefix says of a part. -/
inductive Head where
  | inPlace (body : Bytes)
  | startsAt (offset : Nat)
  deriving DecidableEq, Repr

/-- The first offset equals the prefix length, later ones never decrease, and none points past
    the end of the input. -/
def checkOffset (length prefixLength : Nat) (previous : Option Nat) (offset : Nat) :
    Except Malformed Unit :=
  match previous with
  | none =>
    if offset ≠ prefixLength then .error (.firstOffsetMismatch offset prefixLength)
    else if length < offset then .error (.offsetOutOfRange offset length)
    else .ok ()
  | some previous =>
    if offset < previous then .error (.offsetsOutOfOrder previous offset)
    else if length < offset then .error (.offsetOutOfRange offset length)
    else .ok ()

/-- Read the prefix of an input of `length` bytes, from left to right. -/
def readHeads (length prefixLength : Nat) :
    List Slot → Bytes → (previous : Option Nat) → Except Malformed (List Head)
  | [], _, _ => .ok []
  | some size :: slots, bytes, previous => do
    return .inPlace (bytes.take size)
      :: (← readHeads length prefixLength slots (bytes.drop size) previous)
  | none :: slots, bytes, previous => do
    let offset := ofLittleEndian (bytes.take bytesPerOffset)
    checkOffset length prefixLength previous offset
    return .startsAt offset
      :: (← readHeads length prefixLength slots (bytes.drop bytesPerOffset) (some offset))

/-- Where the part before these heads ends. -/
def nextOffset (length : Nat) : List Head → Nat
  | [] => length
  | .inPlace _ :: heads => nextOffset length heads
  | .startsAt offset :: _ => offset

/-- The parts that the heads describe. -/
def cut (bytes : Bytes) : List Head → List Bytes
  | [] => []
  | .inPlace body :: heads => body :: cut bytes heads
  | .startsAt offset :: heads =>
    (bytes.drop offset).take (nextOffset bytes.length heads - offset) :: cut bytes heads

/-- Cut a composite into its parts, one per slot. Without an offset there is nothing after the
    prefix. -/
def split (slots : List Slot) (bytes : Bytes) : Except Malformed (List Bytes) := do
  let expected := slots.foldr (fun slot size => slot.size + size) 0
  if bytes.length < expected then throw (.truncated expected bytes.length)
  let heads ← readHeads bytes.length expected slots bytes none
  if slots.all Option.isSome && bytes.length ≠ expected then
    throw (.truncated expected bytes.length)
  return cut bytes heads

/-- The offset at the very start of the input. -/
def firstOffset (bytes : Bytes) : Except Malformed Nat :=
  if bytes.length < bytesPerOffset then .error (.truncated bytesPerOffset bytes.length)
  else .ok (ofLittleEndian (bytes.take bytesPerOffset))

end Ssz.OffsetTable

-- SUMMARY: Shapes: the closed description of a type's layout, with its fixed size and its name.
import Ssz.Bytes

/-!
# Shapes

A `Shape` says what the values of a protocol type look like. The binary codec,
the hasher and the textual codec all recurse over it, side by side with the
value. A shape is *fixed-size* when every value of it encodes to the same number
of bytes; that number is `Shape.fixedSize?`. Sizes are exact, however large; as they
come out in words of 64 bits they are `Shape.wordSize?`.
-/

namespace Ssz

/-- Bytes taken by an offset in the fixed prefix of a composite. -/
def bytesPerOffset : Nat := 4

/-- Bytes in a chunk, the leaf of a hash tree. -/
def bytesPerChunk : Nat := 32

/-! ## Widths of unsigned integers -/

inductive UintWidth where
  | u8 | u16 | u32 | u64 | u128 | u256
  deriving DecidableEq, Repr

namespace UintWidth

/-- Encoded size in bytes. -/
def bytes : UintWidth → Nat
  | .u8 => 1
  | .u16 => 2
  | .u32 => 4
  | .u64 => 8
  | .u128 => 16
  | .u256 => 32

def bits (w : UintWidth) : Nat := 8 * w.bytes

/-- One more than the greatest number of this width. -/
def bound (w : UintWidth) : Nat := Nat.pow 2 w.bits

/-- The name of the integer type of this width. -/
def name (w : UintWidth) : String := s!"uint{w.bits}"

end UintWidth

/-! ## Shapes -/

/-- A named field of a record. The name is the key in text; the label is what error messages
    call the field. -/
structure Field (α : Type) where
  name : String
  label : String
  shape : α
  deriving DecidableEq, Repr

inductive Shape where
  | bool
  | uint (width : UintWidth)
  /-- Exactly `length` bytes. -/
  | byteVector (length : Nat)
  /-- At most `max` bytes. -/
  | byteList (max : Nat)
  /-- Exactly `length` bits. -/
  | bitVector (length : Nat)
  /-- At most `max` bits. -/
  | bitList (max : Nat)
  /-- Exactly `length` elements. -/
  | vector (element : Shape) (length : Nat)
  /-- At most `max` elements. -/
  | list (element : Shape) (max : Nat)
  /-- Named fields in order. -/
  | container (name : String) (fields : List (Field Shape))
  /-- One of several alternatives, chosen by a selector. The empty alternative is valid only
      at selector 0. -/
  | union (alternatives : List (Option Shape))
  deriving Repr

namespace Shape

/-! ## Sizes -/

mutual

/-- Whether all values of the shape encode to the same number of bytes. -/
def isFixedSize : Shape → Bool
  | .bool | .uint _ | .byteVector _ | .bitVector _ => true
  | .byteList _ | .bitList _ | .list .. | .union _ => false
  | .vector element _ => element.isFixedSize
  | .container _ fields => fieldsAreFixedSize fields
termination_by structural s => s

def fieldsAreFixedSize : List (Field Shape) → Bool
  | [] => true
  | ⟨_, _, shape⟩ :: fields => shape.isFixedSize && fieldsAreFixedSize fields
termination_by structural fields => fields

end

mutual

/-- The encoded size in bytes of every value, if there is one. -/
def fixedSize? : Shape → Option Nat
  | .bool => some 1
  | .uint width => some width.bytes
  | .byteVector length => some length
  | .bitVector length => some (ceilDiv length 8)
  | .vector element length => element.fixedSize?.map (· * length)
  | .container _ fields => fieldsFixedSize? fields
  | .byteList _ | .bitList _ | .list .. | .union _ => none
termination_by structural s => s

def fieldsFixedSize? : List (Field Shape) → Option Nat
  | [] => some 0
  | ⟨_, _, shape⟩ :: fields =>
    match shape.fixedSize?, fieldsFixedSize? fields with
    | some size, some rest => some (size + rest)
    | _, _ => none
termination_by structural fields => fields

end

/-- Bytes taken in the fixed prefix of an enclosing composite: the shape's own size when that is
    fixed, otherwise one offset. -/
def prefixSize (shape : Shape) : Nat := shape.fixedSize?.getD bytesPerOffset

/-- Whether this is a scalar, several of which are packed into one chunk. -/
def isBasic : Shape → Bool
  | .bool | .uint _ => true
  | _ => false

/-! ## Names -/

/-- Short name, for messages. -/
def name : Shape → String
  | .bool => "bool"
  | .uint width => width.name
  | .byteVector length => s!"ByteVector[{length}]"
  | .byteList max => s!"ByteList[{max}]"
  | .bitVector length => s!"Bitvector[{length}]"
  | .bitList max => s!"Bitlist[{max}]"
  | .vector element length => s!"Vector[{element.name}, {length}]"
  | .list element max => s!"List[{element.name}, {max}]"
  | .container name _ => name
  | .union _ => "Union"

end Shape

/-- The shapes of the fields, in order. -/
def Field.shapes (fields : List (Field Shape)) : List Shape := fields.map Field.shape

end Ssz

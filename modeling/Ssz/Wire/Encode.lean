-- SUMMARY: The canonical binary encoding of a value.
import Ssz.Bits
import Ssz.WellFormed
import Ssz.Wire.OffsetTable

/-!
# Encoding

Numbers are little-endian, a boolean is one byte, byte strings and bitvectors
stand as they are, and bitlists carry a sentinel bit. Sequences of elements of
fixed size are concatenated; every other composite is laid out with an offset
table. A union is its selector followed by the chosen alternative.
-/

namespace Ssz

open OffsetTable (Segment)

namespace Shape

mutual

/-- The bytes of a well-formed value. -/
def write : Shape → Value → Except EncodeError Bytes
  | .bool, .bool b => .ok [if b then 1 else 0]
  | .uint _, .uint width n => .ok (littleEndian width.bytes n.toNat)
  | .byteVector _, .bytes contents | .byteList _, .bytes contents => .ok contents
  | .bitVector _, .bits contents => .ok contents.bytes
  | .bitList _, .bits contents => .ok contents.toWire
  | .vector element _, .list items | .list element _, .list items => do
    let bodies ← items.mapM fun item => element.write item
    if element.isFixedSize then return bodies.flatten
    else OffsetTable.join (bodies.map (Segment.mk false))
  | .container _ fields, .container values => do OffsetTable.join (← writeFields fields values)
  | .union alternatives, .union selector inner => do
    return selector :: (← writeChosen alternatives selector.toNat inner)
  | shape, v => .error (kindMismatch shape v)
termination_by structural shape => shape

def writeFields : List (Field Shape) → List Value → Except EncodeError (List Segment)
  | ⟨_, _, shape⟩ :: fields, v :: values => do
    let body ← shape.write v
    return ⟨shape.isFixedSize, body⟩ :: (← writeFields fields values)
  | _, _ => .ok []
termination_by structural fields => fields

/-- The payload of a union, of the shape at `index`. The empty alternative has none. -/
def writeChosen :
    (alternatives : List (Option Shape)) → (index : Nat) → Option Value → Except EncodeError Bytes
  | some shape :: _, 0, some inner => shape.write inner
  | _ :: alternatives, index + 1, inner => writeChosen alternatives index inner
  | _, _, _ => .ok []
termination_by structural alternatives => alternatives

end

end Shape

/-- Encode a value. A value that is not well-formed is refused before any byte is written. -/
def encode (shape : Shape) (v : Value) : Except EncodeError Bytes := do
  shape.check v
  shape.write v

end Ssz

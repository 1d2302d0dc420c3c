-- SUMMARY: Reading a value of a given shape from its canonical binary encoding.
import Ssz.Bits
import Ssz.Error
import Ssz.Value
import Ssz.Wire.OffsetTable

/-!
# Decoding

`decode` accepts exactly one byte string per value: lengths have to be exact,
booleans are 0 or 1, unused bits are clear, and offsets leave no gap and no
overlap. The input is never trusted for a count that its own length does not
bear out. Sizes are exact; `decodeRanged` counts them in words.
-/

namespace Ssz

/-- A malformed encoding as a failure of the decoder. -/
def malformed {α : Type} : Except Malformed α → Except DecodeError α
  | .ok a => .ok a
  | .error cause => .error (.malformed cause)

/-- An input whose length is fixed by the shape. -/
def expectLength (shape : Shape) (expected : Nat) (bytes : Bytes) : Except DecodeError Unit :=
  if bytes.length = expected then .ok ()
  else .error (.incorrectLength shape.name expected bytes.length)

/-- A number of elements within the maximum. -/
def checkCount (max actual : Nat) : Except Malformed Unit :=
  if max < actual then .error (.tooManyElements max actual) else .ok ()

/-- Cut the elements of a list off an input. Elements of size zero leave no trace, so a list of
    them reads back as empty. Otherwise the length of the input, or the first offset, tells how
    many there are. -/
def listParts (elementSize : Option Nat) (max : Nat) (bytes : Bytes) :
    Except Malformed (List Bytes) :=
  match elementSize with
  | some size =>
    if size = 0 then
      if bytes.isEmpty then .ok [] else .error (.notMultiple bytes.length 0)
    else if bytes.length % size ≠ 0 then .error (.notMultiple bytes.length size)
    else do
      let count := bytes.length / size
      checkCount max count
      return pieces size count bytes
  | none =>
    if bytes.isEmpty then .ok []
    else do
      let first ← OffsetTable.firstOffset bytes
      let count := first / bytesPerOffset
      if first = 0 ∨ first % bytesPerOffset ≠ 0 then
        throw (.firstOffsetMismatch first (bytesPerOffset * Nat.max count 1))
      checkCount max count
      if bytes.length < first then throw (.offsetOutOfRange first bytes.length)
      OffsetTable.split (List.replicate count none) bytes

namespace Shape

mutual

/-- Read a value of the shape that takes up the whole input. -/
def decode : Shape → Bytes → Except DecodeError Value
  | .bool, bytes => do
    expectLength .bool 1 bytes
    match bytes.headD 0 with
    | 0 => return .bool false
    | 1 => return .bool true
    | b => throw (.malformed (.invalidBool b))
  | .uint width, bytes => do
    expectLength (.uint width) width.bytes bytes
    return .uint width (BitVec.ofNat width.bits (ofLittleEndian bytes))
  | .byteVector length, bytes => do
    expectLength (.byteVector length) length bytes
    return .bytes bytes
  | .byteList max, bytes => do
    malformed (checkCount max bytes.length)
    return .bytes bytes
  | .bitVector length, bytes => do
    expectLength (.bitVector length) (ceilDiv length 8) bytes
    return .bits (← malformed (Bits.ofPacked bytes length))
  | .bitList max, bytes => do return .bits (← malformed (Bits.ofWire bytes max))
  | .vector element length, bytes => do
    let parts ← match element.fixedSize? with
      | some size => do
        expectLength (.vector element length) (size * length) bytes
        pure (pieces size length bytes)
      | none => malformed (OffsetTable.split (List.replicate length none) bytes)
    return .list (← parts.mapM fun part => element.decode part)
  | .list element max, bytes => do
    let parts ← malformed (listParts element.fixedSize? max bytes)
    return .list (← parts.mapM fun part => element.decode part)
  | .container name fields, bytes => do
    if let some size := fieldsFixedSize? fields then
      expectLength (.container name fields) size bytes
    let parts ← malformed (OffsetTable.split (fields.map (·.shape.fixedSize?)) bytes)
    return .container (← decodeFields fields parts)
  | .union alternatives, bytes =>
    match bytes with
    | [] => .error (.malformed .emptyUnion)
    | selector :: payload => do
      return .union selector (← decodeChosen selector alternatives selector.toNat payload)
termination_by structural shape => shape

/-- Each field from the part at its place. -/
def decodeFields : List (Field Shape) → List Bytes → Except DecodeError (List Value)
  | ⟨_, _, shape⟩ :: fields, part :: parts => do
    let v ← shape.decode part
    return v :: (← decodeFields fields parts)
  | _, _ => .ok []
termination_by structural fields => fields

/-- The payload of a union, read as the alternative at `index`. -/
def decodeChosen (selector : UInt8) :
    (alternatives : List (Option Shape)) → (index : Nat) → Bytes →
      Except DecodeError (Option Value)
  | some shape :: _, 0, payload => do return some (← shape.decode payload)
  | none :: _, 0, payload =>
    if selector ≠ 0 then .error (.malformed (.invalidSelector selector))
    else if payload.isEmpty then .ok none
    else .error (.malformed (.unionPayload payload.length))
  | _ :: alternatives, index + 1, payload => decodeChosen selector alternatives index payload
  | [], _, _ => .error (.malformed (.invalidSelector selector))
termination_by structural alternatives => alternatives

end

end Shape

/-- Read a value of the given shape. -/
def decode (shape : Shape) (bytes : Bytes) : Except DecodeError Value := shape.decode bytes

end Ssz

-- SUMMARY: Schemas: how the values of a type are seen as value trees of one shape.
import Ssz.Merkle.Root
import Ssz.Text.Codec
import Ssz.Typed.Collection
import Ssz.Wire.Decode
import Ssz.Wire.Encode
import Ssz.Wire.Ranged

/-!
# Schemas

A schema ties a type to a shape. It only says how values of the type become value
trees and how they are rebuilt from them; the codecs work on the trees.
-/

namespace Ssz

structure Schema (α : Type) where
  shape : Shape
  toValue : α → Value
  ofValue : Value → Except ShapeMismatch α

namespace Schema

variable {α : Type}

/-! ## Scalars and byte strings -/

def bool : Schema Bool where
  shape := .bool
  toValue := .bool
  ofValue := Value.asBool

def uint (width : UintWidth) : Schema (BitVec width.bits) where
  shape := .uint width
  toValue := .uint width
  ofValue := Value.asUint width

/-- Byte strings of a fixed length. `expected` is what a value of another length is told. -/
def bytesOfLength (n : Nat) (expected : String) : Schema (ByteVector n) where
  shape := .byteVector n
  toValue x := .bytes x.toList
  ofValue v := do
    match ByteVector.ofList? n (← v.asBytes) with
    | some x => return x
    | none => throw ⟨expected, "bytes of another length"⟩

/-- A plain array of bytes. -/
def byteArray (n : Nat) : Schema (ByteVector n) := bytesOfLength n s!"{n} bytes"

/-- A root, a public key or a signature. -/
def fixedBytes (n : Nat) : Schema (ByteVector n) := bytesOfLength n (Shape.byteVector n).name

/-! ## Collections -/

/-- A wrong number of elements, found while a value is rebuilt. -/
def withinCapacity {β : Type} : Except CapacityError β → Except ShapeMismatch β
  | .ok b => .ok b
  | .error e => .error e.toShapeMismatch

def byteList (n : Nat) : Schema (ByteList n) where
  shape := .byteList n
  toValue x := .bytes x.toList
  ofValue v := do withinCapacity (ByteList.ofList (← v.asBytes))

def bitVector (n : Nat) : Schema (BitVector n) where
  shape := .bitVector n
  toValue x := .bits x.bits
  ofValue v := do withinCapacity (BitVector.ofBits (← v.asBits))

def bitList (n : Nat) : Schema (BitList n) where
  shape := .bitList n
  toValue x := .bits x.bits
  ofValue v := do withinCapacity (BitList.ofBits (← v.asBits))

def vector (s : Schema α) (n : Nat) : Schema (FixedList α n) where
  shape := .vector s.shape n
  toValue x := .list (x.toList.map s.toValue)
  ofValue v := do
    let items ← (← v.asList).mapM s.ofValue
    withinCapacity (FixedList.ofList items)

def list (s : Schema α) (n : Nat) : Schema (BoundedList α n) where
  shape := .list s.shape n
  toValue x := .list (x.toList.map s.toValue)
  ofValue v := do
    let items ← (← v.asList).mapM s.ofValue
    withinCapacity (BoundedList.ofList items)

end Schema

/-! ## Records -/

/-- How a chain of pairs is seen as the fields of a record. -/
structure Fields (α : Type) where
  shapes : List (Field Shape)
  toValues : α → List Value
  /-- Rebuild the fields from values, one after the other. -/
  ofValues : List Value → Except ShapeMismatch α

namespace Fields

variable {α β : Type}

/-- No fields. -/
def nil : Fields Unit where
  shapes := []
  toValues _ := []
  ofValues _ := .ok ()

/-- A field in front of others. -/
def cons (name label : String) (schema : Schema α) (rest : Fields β) : Fields (α × β) where
  shapes := ⟨name, label, schema.shape⟩ :: rest.shapes
  toValues x := schema.toValue x.1 :: rest.toValues x.2
  ofValues values := do
    let (v, values) ← Value.nextField name values
    let a ← schema.ofValue v
    return (a, ← rest.ofValues values)

end Fields

namespace Schema

variable {α : Type}

def record (name : String) (fields : Fields α) : Schema α where
  shape := .container name fields.shapes
  toValue x := .container (fields.toValues x)
  ofValue v := do fields.ofValues (← v.asContainer fields.shapes.length)

/-! ## Codecs -/

/-- A value of the wrong shape, as a failure of the binary decoder. -/
def rebuilt : Except ShapeMismatch α → Except DecodeError α
  | .ok a => .ok a
  | .error cause => .error (.shapeMismatch cause)

/-- A value of the wrong shape, as a failure of a textual decoder. -/
def rebuiltFromText : Except ShapeMismatch α → Except TextError α
  | .ok a => .ok a
  | .error cause => .error (.shapeMismatch cause)

def encode (s : Schema α) (x : α) : Except EncodeError Bytes := Ssz.encode s.shape (s.toValue x)

def decode (s : Schema α) (bytes : Bytes) : Except DecodeError α := do
  rebuilt (s.ofValue (← Ssz.decode s.shape bytes))

/-- Read a value of the type by ranges of the input. -/
def decodeRanged (s : Schema α) (bytes : Bytes) : Ranged DecodeError α := do
  .ofExcept (rebuilt (s.ofValue (← Ssz.decodeRanged s.shape bytes)))

def hashTreeRoot (s : Schema α) (x : α) : Except EncodeError Chunk :=
  Ssz.hashTreeRoot s.shape (s.toValue x)

def toJson (s : Schema α) (x : α) : Except EncodeError String := Ssz.toJson s.shape (s.toValue x)

def toYaml (s : Schema α) (x : α) : Except EncodeError String := Ssz.toYaml s.shape (s.toValue x)

def fromJson (s : Schema α) (text : String) : Except TextError α := do
  rebuiltFromText (s.ofValue (← Ssz.fromJson s.shape text))

def fromYaml (s : Schema α) (text : String) : Except TextError α := do
  rebuiltFromText (s.ofValue (← Ssz.fromYaml s.shape text))

/-- Rebuild a value from a text tree of unknown format. -/
def fromTree (s : Schema α) (t : Text.Tree) : Except TextError α := do
  rebuiltFromText (s.ofValue (← ofTree .tree s.shape t))

/-- The YAML line of a value without what ends it, or the error there is instead. -/
def display (s : Schema α) (x : α) : String :=
  match s.toYaml x with
  | .ok line => String.ofList (line.toList.reverse.dropWhile isWhiteSpace).reverse
  | .error e => s!"ERR: {e.message}"

end Schema

end Ssz

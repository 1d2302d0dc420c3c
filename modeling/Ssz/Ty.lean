-- SUMMARY: Type codes, for types built from scalars, collections and records, with their schemas.
import Ssz.Schema

/-!
# Type codes

A `Ty` names a type that is built from the scalars, byte strings, collections
and records of this library. `Ty.Carrier` is the type itself, and `Ty.schema` how
its values are seen as value trees. Every carrier keeps lengths in the type, so
each of its elements is well-formed.
-/

namespace Ssz

inductive Ty where
  | bool
  | uint (width : UintWidth)
  /-- A plain array of bytes. -/
  | byteArray (length : Nat)
  /-- A byte string with a name of its own, such as a root. -/
  | fixedBytes (name : String) (length : Nat)
  | byteList (max : Nat)
  | bitVector (length : Nat)
  | bitList (max : Nat)
  | vector (element : Ty) (length : Nat)
  | list (element : Ty) (max : Nat)
  | record (name : String) (fields : List (Field Ty))

namespace Ty

/-! ## Carriers -/

mutual

/-- The type that a code stands for. A record is a chain of pairs. -/
def Carrier : Ty → Type
  | .bool => Bool
  | .uint width => BitVec width.bits
  | .byteArray length => ByteVector length
  | .fixedBytes _ length => ByteVector length
  | .byteList max => ByteList max
  | .bitVector length => BitVector length
  | .bitList max => BitList max
  | .vector element length => FixedList element.Carrier length
  | .list element max => BoundedList element.Carrier max
  | .record _ fields => FieldsCarrier fields
termination_by structural t => t

def FieldsCarrier : List (Field Ty) → Type
  | [] => Unit
  | ⟨_, _, t⟩ :: fields => t.Carrier × FieldsCarrier fields
termination_by structural fields => fields

end

mutual

/-- How the values of a type are seen as value trees. -/
def schema : (t : Ty) → Schema t.Carrier
  | .bool => Schema.bool
  | .uint width => Schema.uint width
  | .byteArray length => Schema.byteArray length
  | .fixedBytes _ length => Schema.fixedBytes length
  | .byteList max => Schema.byteList max
  | .bitVector length => Schema.bitVector length
  | .bitList max => Schema.bitList max
  | .vector element length => element.schema.vector length
  | .list element max => element.schema.list max
  | .record name fields => Schema.record name (fieldSchemas fields)
termination_by structural t => t

def fieldSchemas : (fields : List (Field Ty)) → Fields (FieldsCarrier fields)
  | [] => Fields.nil
  | ⟨name, label, t⟩ :: fields => Fields.cons name label t.schema (fieldSchemas fields)
termination_by structural fields => fields

end

mutual

/-- The value that a type starts from: zeros, and nothing where a length may vary. -/
def default : (t : Ty) → t.Carrier
  | .bool => false
  | .uint width => BitVec.ofNat width.bits 0
  | .byteArray length => ByteVector.zero length
  | .fixedBytes _ length => ByteVector.zero length
  | .byteList _ => ByteList.empty
  | .bitVector length => BitVector.zeros length
  | .bitList _ => BitList.empty
  | .vector element length => FixedList.replicate length element.default
  | .list _ _ => BoundedList.empty
  | .record _ fields => defaultFields fields
termination_by structural t => t

def defaultFields : (fields : List (Field Ty)) → FieldsCarrier fields
  | [] => ()
  | ⟨_, _, t⟩ :: fields => (t.default, defaultFields fields)
termination_by structural fields => fields

end

/-- The shape of a type's values. -/
def shape (t : Ty) : Shape := t.schema.shape

/-! ## Abbreviations -/

def uint8 : Ty := .uint .u8
def uint16 : Ty := .uint .u16
def uint32 : Ty := .uint .u32
def uint64 : Ty := .uint .u64
def uint128 : Ty := .uint .u128
def uint256 : Ty := .uint .u256

/-- A root of a hash tree. -/
def root : Ty := .fixedBytes "Root" 32

/-- A compressed BLS12-381 public key. It is not checked to be a point of the curve. -/
def publicKey : Ty := .fixedBytes "BlsPubKey" 48

/-- A compressed BLS12-381 signature. It is not checked to be a point of the curve. -/
def signature : Ty := .fixedBytes "BlsSignature" 96

end Ty

end Ssz

-- SUMMARY: Causes of failure of the codec, the hasher and the collections, with their wording.

/-!
# Errors

Each reader or writer fails for one of a few causes, and each cause carries the
numbers that its wording quotes. The wording is given once, by the `message`
function of the type.
-/

namespace Ssz

/-! ## Shapes and capacities -/

/-- A value tree does not match the shape it is read as. -/
structure ShapeMismatch where
  expected : String
  found : String
  deriving DecidableEq, Repr

def ShapeMismatch.message (e : ShapeMismatch) : String :=
  s!"shape mismatch: expected {e.expected}, found {e.found}"

/-- A bounded collection was given the wrong number of elements. -/
inductive CapacityError where
  | exact (expected actual : Nat)
  | exceeded (max actual : Nat)
  deriving DecidableEq, Repr

namespace CapacityError

def message : CapacityError → String
  | .exact expected actual => s!"expected exactly {expected} elements, got {actual}"
  | .exceeded max actual => s!"at most {max} elements allowed, got {actual}"

/-- A wrong number of elements, seen as a value of the wrong shape. -/
def toShapeMismatch : CapacityError → ShapeMismatch
  | .exact expected _ => ⟨s!"exactly {expected} elements", "sequence of another length"⟩
  | .exceeded max _ => ⟨s!"at most {max} elements", "sequence of another length"⟩

end CapacityError

/-! ## Writing and hashing -/

/-- Why a value cannot be encoded, hashed or rendered. -/
inductive EncodeError where
  | shapeMismatch (cause : ShapeMismatch)
  | wrongLength (shape : String) (expected actual : Nat)
  | tooManyElements (shape : String) (max actual : Nat)
  | invalidSelector (selector : UInt8) (alternatives : Nat)
  | offsetOverflow (offset : Nat)
  deriving DecidableEq, Repr

def EncodeError.message : EncodeError → String
  | .shapeMismatch cause => s!"malformed value: {cause.message}"
  | .wrongLength shape expected actual =>
    s!"malformed value: {shape} requires {expected} bytes, got {actual}"
  | .tooManyElements shape max actual =>
    s!"malformed value: {shape} holds at most {max} elements, got {actual}"
  | .invalidSelector selector alternatives =>
    s!"malformed value: union selector {selector} out of range for {alternatives} alternatives"
  | .offsetOverflow offset =>
    s!"malformed value: {offset} bytes cannot be addressed by a 4-byte offset"

/-! ## Reading -/

/-- Structural faults of the binary form. -/
inductive Malformed where
  | offsetsOutOfOrder (previous offset : Nat)
  | offsetOutOfRange (offset length : Nat)
  | firstOffsetMismatch (offset expected : Nat)
  | truncated (expected actual : Nat)
  | notMultiple (length size : Nat)
  | tooManyElements (max actual : Nat)
  | missingSentinel
  | bitLength (expected actual : Nat)
  | unusedBitsSet
  | invalidBool (byte : UInt8)
  | invalidSelector (selector : UInt8)
  | unionPayload (length : Nat)
  | emptyUnion
  deriving DecidableEq, Repr

/-- A byte as two lowercase hex digits. -/
def hexByte (b : UInt8) : String :=
  String.ofList [Nat.digitChar (b.toNat / 16), Nat.digitChar (b.toNat % 16)]

def Malformed.message : Malformed → String
  | .offsetsOutOfOrder previous offset => s!"offset {offset} precedes previous offset {previous}"
  | .offsetOutOfRange offset length => s!"offset {offset} exceeds input length {length}"
  | .firstOffsetMismatch offset expected =>
    s!"first offset {offset} does not match fixed prefix length {expected}"
  | .truncated expected actual =>
    s!"input of {actual} bytes is shorter than its {expected}-byte fixed prefix"
  | .notMultiple length size => s!"{length} bytes is not a multiple of element size {size}"
  | .tooManyElements max actual => s!"{actual} elements exceeds maximum of {max}"
  | .missingSentinel => "bitlist missing sentinel bit"
  | .bitLength expected actual => s!"bit field needs {expected} bytes, got {actual}"
  | .unusedBitsSet => "unused bits set in final byte"
  | .invalidBool byte => s!"invalid boolean byte 0x{hexByte byte}"
  | .invalidSelector selector => s!"union selector {selector} out of range"
  | .unionPayload length => s!"empty union alternative followed by {length} bytes"
  | .emptyUnion => "union encoding is empty"

/-- Why a byte string is not the encoding of a value. -/
inductive DecodeError where
  | incorrectLength (shape : String) (expected actual : Nat)
  | malformed (cause : Malformed)
  | shapeMismatch (cause : ShapeMismatch)
  deriving DecidableEq, Repr

def DecodeError.message : DecodeError → String
  | .incorrectLength shape expected actual =>
    s!"incorrect length for {shape}: expected {expected} bytes, got {actual}"
  | .malformed cause => s!"malformed encoding: {cause.message}"
  | .shapeMismatch cause => cause.message

end Ssz

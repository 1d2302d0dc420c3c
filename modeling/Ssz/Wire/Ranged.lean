-- SUMMARY: Reading by ranges of the input, with sizes that are counted in words of 64 bits.
import Ssz.Wire.Decode

/-!
# Ranges and words

A machine takes the parts of an input as ranges of it, and counts sizes in words of
64 bits, where a sum or a product that does not fit wraps. `decodeRanged` is the
decoder with sizes of this kind. It is `decode` wherever sizes fit. Where they do
not, a prefix may come out too short, so that it lets an input pass; a range is then
asked for that the input does not have, and the run ends without a result.

Offsets take four bytes and are checked against the input, so they never wrap. The
only sizes that do are those that come from a shape.
-/

namespace Ssz

/-! ## Words -/

/-- One more than the greatest number of a word. -/
def wordBound : Nat := 0x10000000000000000

/-- What a word keeps of a number. -/
def word (n : Nat) : Nat := n % wordBound

namespace Shape

mutual

/-- The fixed size as it comes out in words. -/
def wordSize? : Shape → Option Nat
  | .bool => some 1
  | .uint width => some width.bytes
  | .byteVector length => some length
  | .bitVector length => some (ceilDiv length 8)
  | .vector element length => element.wordSize?.map fun size => word (size * length)
  | .container _ fields => fieldsWordSize? fields
  | .byteList _ | .bitList _ | .list .. | .union _ => none
termination_by structural s => s

def fieldsWordSize? : List (Field Shape) → Option Nat
  | [] => some 0
  | ⟨_, _, shape⟩ :: fields =>
    match shape.wordSize?, fieldsWordSize? fields with
    | some size, some rest => some (word (size + rest))
    | _, _ => none
termination_by structural fields => fields

end

/-- Bytes taken in the prefix of an enclosing composite, as they come out in words. -/
def wordPrefixSize (shape : Shape) : Nat := shape.wordSize?.getD bytesPerOffset

end Shape

/-! ## Ranges that may be missing -/

/-- A run that also ends, and then without any result, if a range of the input is missing. -/
abbrev Ranged (ε : Type) := ExceptT ε Option

namespace Ranged

variable {ε α : Type}

/-- A run that takes no ranges. -/
def ofExcept (x : Except ε α) : Ranged ε α := ExceptT.mk (some x)

/-- A run that ended at a range that is missing. -/
def missing : Ranged ε α := ExceptT.mk none

/-- A malformed encoding as a failure of the decoder. -/
def malformed (x : Ranged Malformed α) : Ranged DecodeError α :=
  ExceptT.mk (x.run.map Ssz.malformed)

end Ranged

namespace OffsetTable

/-- The positions of an input from `start` up to `stop`. -/
structure Span where
  start : Nat
  stop : Nat

namespace Span

/-- The bytes there. -/
def read (bytes : Bytes) (span : Span) : Bytes :=
  (bytes.drop span.start).take (span.stop - span.start)

/-- An input of this length has such a range. -/
def Within (length : Nat) (span : Span) : Prop := span.start ≤ span.stop ∧ span.stop ≤ length

instance (length : Nat) (span : Span) : Decidable (span.Within length) :=
  inferInstanceAs (Decidable (_ ∧ _))

end Span

namespace Ranged

/-- The bytes of a range, if the input has it. -/
def read {ε : Type} (bytes : Bytes) (span : Span) : Ranged ε Bytes :=
  if span.Within bytes.length then pure (span.read bytes) else .missing

/-! ## Splitting -/

/-- Length of the prefix. -/
def prefixLength (slots : List Slot) : Nat :=
  slots.foldr (fun slot size => word (slot.size + size)) 0

/-- The offset at a position of the prefix. -/
def offsetAt (bytes : Bytes) (position : Nat) : Except Malformed Nat :=
  let place : Span := ⟨position, word (position + bytesPerOffset)⟩
  if place.Within bytes.length then .ok (ofLittleEndian (place.read bytes))
  else .error (.truncated place.stop bytes.length)

/-- Read the prefix from `position` on. -/
def readHeads (bytes : Bytes) (prefixLength : Nat) :
    (position : Nat) → List Slot → (previous : Option Nat) → Ranged Malformed (List Head)
  | _, [], _ => pure []
  | position, some size :: slots, previous => do
    let next := word (position + size)
    let body ← read bytes ⟨position, next⟩
    return .inPlace body :: (← readHeads bytes prefixLength next slots previous)
  | position, none :: slots, previous => do
    let offset ← .ofExcept (offsetAt bytes position)
    .ofExcept (checkOffset bytes.length prefixLength previous offset)
    let next := word (position + bytesPerOffset)
    return .startsAt offset :: (← readHeads bytes prefixLength next slots (some offset))

/-- The parts that the heads describe. -/
def cut (bytes : Bytes) : List Head → Ranged Malformed (List Bytes)
  | [] => pure []
  | .inPlace body :: heads => do return body :: (← cut bytes heads)
  | .startsAt offset :: heads => do
    let part ← read bytes ⟨offset, nextOffset bytes.length heads⟩
    return part :: (← cut bytes heads)

/-- Cut a composite into its parts, by ranges of the whole input. -/
def split (slots : List Slot) (bytes : Bytes) : Ranged Malformed (List Bytes) := do
  let expected := prefixLength slots
  if bytes.length < expected then throw (.truncated expected bytes.length)
  let heads ← readHeads bytes expected 0 slots none
  if slots.all Option.isSome && bytes.length ≠ expected then
    throw (.truncated expected bytes.length)
  cut bytes heads

end Ranged

end OffsetTable

/-! ## Decoding -/

/-- Cut the elements of a vector off an input. The input alone tells how many there are, unless they
    are of size zero. -/
def vectorParts (size length : Nat) (bytes : Bytes) : List Bytes :=
  pieces size (if size = 0 then length else ceilDiv bytes.length size) bytes

namespace Shape

mutual

/-- Read a value of the shape that takes up the whole input, with sizes counted in words. The
    prefix of a list is as long as its first offset, so that it is split as it is in `decode`. -/
def decodeRanged : Shape → Bytes → Ranged DecodeError Value
  | .vector element length, bytes => do
    let parts ← match element.wordSize? with
      | some size => do
        .ofExcept (expectLength (.vector element length) (word (size * length)) bytes)
        pure (vectorParts size length bytes)
      | none => (OffsetTable.Ranged.split (List.replicate length none) bytes).malformed
    return .list (← parts.mapM fun part => element.decodeRanged part)
  | .list element max, bytes => do
    let parts ← .ofExcept (malformed (listParts element.wordSize? max bytes))
    return .list (← parts.mapM fun part => element.decodeRanged part)
  | .container name fields, bytes => do
    if let some size := fieldsWordSize? fields then
      .ofExcept (expectLength (.container name fields) size bytes)
    let parts ← (OffsetTable.Ranged.split (fields.map (·.shape.wordSize?)) bytes).malformed
    return .container (← decodeFieldsRanged fields parts)
  | .union alternatives, bytes =>
    match bytes with
    | [] => .ofExcept (.error (.malformed .emptyUnion))
    | selector :: payload => do
      return .union selector
        (← decodeChosenRanged selector alternatives selector.toNat payload)
  | .bool, bytes => .ofExcept (decode .bool bytes)
  | .uint width, bytes => .ofExcept (decode (.uint width) bytes)
  | .byteVector length, bytes => .ofExcept (decode (.byteVector length) bytes)
  | .byteList max, bytes => .ofExcept (decode (.byteList max) bytes)
  | .bitVector length, bytes => .ofExcept (decode (.bitVector length) bytes)
  | .bitList max, bytes => .ofExcept (decode (.bitList max) bytes)
termination_by structural shape => shape

/-- Each field from the part at its place. -/
def decodeFieldsRanged : List (Field Shape) → List Bytes → Ranged DecodeError (List Value)
  | ⟨_, _, shape⟩ :: fields, part :: parts => do
    let v ← shape.decodeRanged part
    return v :: (← decodeFieldsRanged fields parts)
  | _, _ => pure []
termination_by structural fields => fields

/-- The payload of a union, read as the alternative at `index`. -/
def decodeChosenRanged (selector : UInt8) :
    (alternatives : List (Option Shape)) → (index : Nat) → Bytes →
      Ranged DecodeError (Option Value)
  | some shape :: _, 0, payload => do return some (← shape.decodeRanged payload)
  | none :: alternatives, 0, payload =>
    .ofExcept (decodeChosen selector (none :: alternatives) 0 payload)
  | _ :: alternatives, index + 1, payload =>
    decodeChosenRanged selector alternatives index payload
  | [], _, _ => .ofExcept (.error (.malformed (.invalidSelector selector)))
termination_by structural alternatives => alternatives

end

end Shape

/-- Read a value of the given shape by ranges of the input. -/
def decodeRanged (shape : Shape) (bytes : Bytes) : Ranged DecodeError Value :=
  shape.decodeRanged bytes

end Ssz

-- SUMMARY: Reading a value of a given shape from a text tree.
import Ssz.Bits
import Ssz.Text.Error
import Ssz.Text.Render

/-!
# Reading text trees

The tree is walked along the shape and the first fault is reported, with the
label of the innermost field around it. Keys that the shape does not name are
passed over. A field that is absent, null or an empty string is missing.
-/

namespace Ssz

namespace Text

/-! ## Scalars -/

/-- Read a number of the given width. It has to start with a digit. -/
def readUint (width : UintWidth) (text : String) : Except FieldError (BitVec width.bits) :=
  match text.toList with
  | [] => .error (.notDecimal text)
  | c :: cs =>
    if (Decimal.digit? c).isNone then .error (.notDecimal text)
    else
      match Decimal.read width.bound (c :: cs) with
      | .ok n => .ok (BitVec.ofNat width.bits n)
      | .error cause => .error (if width = .u256 then .notUint256 text else .integer cause)

def inField {α : Type} (label : String) : Except FieldError α → Except TextError α
  | .ok a => .ok a
  | .error cause => .error (.invalidField label cause)

/-- A tree of another kind than expected. -/
def wrongKind (d : Dialect) (expected label : String) (found : Tree) : TextError :=
  .misfit d (.wrongKind expected label found.kind)

/-- A number, as a string of digits or, where the dialect allows it, bare. -/
def uintOf (d : Dialect) (width : UintWidth) (label : String) (t : Tree) :
    Except TextError (BitVec width.bits) :=
  match t with
  | .string s => inField label (readUint width s)
  | .number n =>
    if d.acceptsNumbers then
      match n with
      | .natural n => inField label (readUint width (Decimal.render n))
      | n => .error (.invalidField label (.notUnsigned n))
    else .error (wrongKind d "string" label t)
  | t => .error (wrongKind d "string" label t)

def bytesOf (d : Dialect) (label : String) : Tree → Except TextError Bytes
  | .string s =>
    match Hex.readMarked s.toList with
    | .ok bytes => .ok bytes
    | .error cause => .error (.invalidField label (.hex cause))
  | t => .error (wrongKind d "hex string" label t)

def itemsOf (d : Dialect) (label : String) : Tree → Except TextError (List Tree)
  | .array items => .ok items
  | t => .error (wrongKind d "array" label t)

def entriesOf (d : Dialect) (label : String) : Tree → Except TextError (List (String × Tree))
  | .object entries => .ok entries
  | t => .error (wrongKind d "object" label t)

/-- An entry that has to be there. -/
def present (label : String) : Option Tree → Except TextError Tree
  | none | some .null => .error (.missingField label)
  | some (.string s) => if s = "" then .error (.missingField label) else .ok (.string s)
  | some t => .ok t

/-! ## Lengths -/

def exactly (label : String) (expected actual : Nat) : Except TextError Unit :=
  if actual = expected then .ok () else .error (.incorrectLength label expected actual)

def atMost (label : String) (max actual : Nat) : Except TextError Unit :=
  if max < actual then .error (.exceedsMaximum label max actual) else .ok ()

/-- The bits of a bitlist's wire form; one with too many bits exceeds the maximum. -/
def bitListOf (label : String) (max : Nat) (bytes : Bytes) : Except TextError Bits :=
  match Bits.ofWire bytes max with
  | .ok bits => .ok bits
  | .error (.tooManyElements max actual) => .error (.exceedsMaximum label max actual)
  | .error cause => .error (.invalidField label (.bits cause))

def bitVectorOf (label : String) (length : Nat) (bytes : Bytes) : Except TextError Bits :=
  match Bits.ofPacked bytes length with
  | .ok bits => .ok bits
  | .error cause => .error (.invalidField label (.bits cause))

end Text

/-! ## Values -/

open Text

namespace Shape

mutual

/-- Read a value of the shape from a tree inside the field `label`. -/
def ofTree (d : Dialect) : Shape → (label : String) → Tree → Except TextError Value
  | .bool, label, t =>
    match t with
    | .bool b => .ok (.bool b)
    | t => .error (wrongKind d "boolean" label t)
  | .uint width, label, t => do return .uint width (← uintOf d width label t)
  | .byteVector length, label, t => do
    let bytes ← bytesOf d label t
    exactly label length bytes.length
    return .bytes bytes
  | .byteList max, label, t => do
    let bytes ← bytesOf d label t
    atMost label max bytes.length
    return .bytes bytes
  | .bitVector length, label, t => do
    let bytes ← bytesOf d label t
    exactly label (ceilDiv length 8) bytes.length
    return .bits (← bitVectorOf label length bytes)
  | .bitList max, label, t => do return .bits (← bitListOf label max (← bytesOf d label t))
  | .vector element length, label, t => do
    let items ← itemsOf d label t
    exactly label length items.length
    return .list (← items.mapM fun item => element.ofTree d label item)
  | .list element max, label, t => do
    let items ← itemsOf d label t
    atMost label max items.length
    return .list (← items.mapM fun item => element.ofTree d label item)
  | .container _ fields, label, t => do
    let entries ← entriesOf d label t
    return .container (← fieldsOfEntries d fields entries)
  | .union alternatives, label, t => do
    let entries ← entriesOf d label t
    let t ← present selectorKey (entries.lookup selectorKey)
    let selector ← uintOf d .u8 selectorKey t
    let inner ← chosenOfEntry d ⟨selector⟩ alternatives selector.toNat label
      (entries.lookup valueKey)
    return .union ⟨selector⟩ inner
termination_by structural shape => shape

/-- Read each field from the entry of its name. -/
def fieldsOfEntries (d : Dialect) :
    List (Field Shape) → List (String × Tree) → Except TextError (List Value)
  | [], _ => .ok []
  | ⟨name, label, shape⟩ :: fields, entries => do
    let t ← present label (entries.lookup name)
    let v ← shape.ofTree d label t
    return v :: (← fieldsOfEntries d fields entries)
termination_by structural fields => fields

/-- Read the payload of a union as the alternative at `index`. The empty alternative may be
    written as null or left out. -/
def chosenOfEntry (d : Dialect) (selector : UInt8) :
    (alternatives : List (Option Shape)) → (index : Nat) → (label : String) → Option Tree →
      Except TextError (Option Value)
  | some shape :: _, 0, label, entry => do
    let t ← present label entry
    return some (← shape.ofTree d label t)
  | none :: _, 0, label, entry =>
    if selector ≠ 0 then .error (.invalidField label (.bits (.invalidSelector selector)))
    else
      match entry with
      | none | some .null => .ok none
      | some t => .error (wrongKind d "null" label t)
  | _ :: alternatives, index + 1, label, entry =>
    chosenOfEntry d selector alternatives index label entry
  | [], _, label, _ => .error (.invalidField label (.bits (.invalidSelector selector)))
termination_by structural alternatives => alternatives

end

end Shape

/-- Read a value of the given shape from a text tree. The value as a whole is labelled with the
    name of its shape. -/
def ofTree (d : Dialect) (shape : Shape) (t : Tree) : Except TextError Value :=
  shape.ofTree d shape.name t

end Ssz

-- SUMMARY: The check that a value has the structure its shape asks for.
import Ssz.Error
import Ssz.Shape
import Ssz.Value

/-!
# Well-formed values

Only structure is checked: kinds and widths, lengths and maxima, numbers of
fields, and union selectors. Every writer runs this check first, so that what
comes after it works on a well-formed tree.
-/

namespace Ssz

/-- A length that a maximum bounds. -/
def checkMax (name : String) (max actual : Nat) : Except EncodeError Unit :=
  if max < actual then .error (.tooManyElements name max actual) else .ok ()

/-- A length that has to be met exactly. -/
def checkLength (name : String) (expected actual : Nat) : Except EncodeError Unit :=
  if actual = expected then .ok () else .error (.wrongLength name expected actual)

/-- A value of another kind than the shape asks for. -/
def kindMismatch (shape : Shape) (v : Value) : EncodeError := .shapeMismatch ⟨shape.name, v.kind⟩

namespace Shape

mutual

/-- Whether `v` is a well-formed value of the shape, or else the first fault, outermost first and
    then from left to right. -/
def check : Shape → Value → Except EncodeError Unit
  | .bool, .bool _ => .ok ()
  | .uint width, .uint w n =>
    if w = width then .ok () else .error (kindMismatch (.uint width) (.uint w n))
  | .byteVector length, .bytes contents =>
    checkLength (Shape.byteVector length).name length contents.length
  | .byteList max, .bytes contents => checkMax (Shape.byteList max).name max contents.length
  | .bitVector length, .bits contents =>
    checkLength (Shape.bitVector length).name length contents.length
  | .bitList max, .bits contents => checkMax (Shape.bitList max).name max contents.length
  | .vector element length, .list items => do
    checkLength (Shape.vector element length).name length items.length
    items.forM fun item => element.check item
  | .list element max, .list items => do
    checkMax (Shape.list element max).name max items.length
    items.forM fun item => element.check item
  | .container name fields, .container values => do
    checkLength name fields.length values.length
    checkFields fields values
  | .union alternatives, .union selector inner =>
    checkChosen selector alternatives.length alternatives selector.toNat inner
  | shape, v => .error (kindMismatch shape v)
termination_by structural shape => shape

/-- Each value against the field at its place. -/
def checkFields : List (Field Shape) → List Value → Except EncodeError Unit
  | ⟨_, _, shape⟩ :: fields, v :: values => do
    shape.check v
    checkFields fields values
  | _, _ => .ok ()
termination_by structural fields => fields

/-- The payload of a union of `count` alternatives against the one at `index` of those left. -/
def checkChosen (selector : UInt8) (count : Nat) :
    (alternatives : List (Option Shape)) → (index : Nat) → Option Value → Except EncodeError Unit
  | some shape :: _, 0, some inner => shape.check inner
  | none :: _, 0, none =>
    if selector = 0 then .ok () else .error (.invalidSelector selector count)
  | _ :: alternatives, index + 1, inner => checkChosen selector count alternatives index inner
  | _, _, _ => .error (.invalidSelector selector count)
termination_by structural alternatives => alternatives

end

end Shape

end Ssz

-- SUMMARY: The text tree of a value.
import Ssz.Text.Hex
import Ssz.Text.Tree
import Ssz.WellFormed

/-!
# Rendering values

Numbers become decimal strings, bytes and bits become marked hexadecimal strings
(bitlists with their sentinel), records become objects in declared order, and a
union becomes an object of its selector and its value.
-/

namespace Ssz

namespace Text

/-- The key of a union's selector. -/
def selectorKey : String := "selector"

/-- The key of a union's value. -/
def valueKey : String := "value"

end Text

open Text (Tree)

namespace Shape

mutual

/-- The text tree of a well-formed value. -/
def render : Shape → Value → Except EncodeError Tree
  | .bool, .bool b => .ok (.bool b)
  | .uint _, .uint _ n => .ok (.string (Decimal.render n.toNat))
  | .byteVector _, .bytes contents | .byteList _, .bytes contents =>
    .ok (.string (Hex.renderMarked contents))
  | .bitVector _, .bits contents => .ok (.string (Hex.renderMarked contents.bytes))
  | .bitList _, .bits contents => .ok (.string (Hex.renderMarked contents.toWire))
  | .vector element _, .list items | .list element _, .list items => do
    return .array (← items.mapM fun item => element.render item)
  | .container _ fields, .container values => do
    return .object (Tree.ofEntries (← renderFields fields values))
  | .union alternatives, .union selector inner => do
    let t ← renderChosen alternatives selector.toNat inner
    return .object [(Text.selectorKey, .string (Decimal.render selector.toNat)), (Text.valueKey, t)]
  | shape, v => .error (kindMismatch shape v)
termination_by structural shape => shape

def renderFields : List (Field Shape) → List Value → Except EncodeError (List (String × Tree))
  | ⟨name, _, shape⟩ :: fields, v :: values => do
    let t ← shape.render v
    return (name, t) :: (← renderFields fields values)
  | _, _ => .ok []
termination_by structural fields => fields

/-- The payload of a union, of the shape at `index`. The empty alternative is null. -/
def renderChosen :
    (alternatives : List (Option Shape)) → (index : Nat) → Option Value → Except EncodeError Tree
  | some shape :: _, 0, some inner => shape.render inner
  | _ :: alternatives, index + 1, inner => renderChosen alternatives index inner
  | _, _, _ => .ok .null
termination_by structural alternatives => alternatives

end

end Shape

/-- The text tree of a value. A value that is not well-formed is refused. -/
def toTree (shape : Shape) (v : Value) : Except EncodeError Tree := do
  shape.check v
  shape.render v

end Ssz

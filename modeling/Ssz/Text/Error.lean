-- SUMMARY: Why a text is not a value of a shape, with the wording of each cause.
import Ssz.Error
import Ssz.Text.Decimal
import Ssz.Text.Hex
import Ssz.Text.Tree

/-!
# Errors of the textual codec

A text may fail to be well-formed, be well-formed but of the wrong structure, or
hold a field that is missing or has no valid value. Each error names the
innermost labelled field it occurred in.
-/

namespace Ssz

namespace Text

/-- Where a text tree comes from, which decides how numbers may be written. -/
inductive Dialect where
  | json
  | yaml
  /-- A tree handed over by a reader of unknown format. -/
  | tree
  deriving DecidableEq, Repr

def Dialect.name : Dialect → String
  | .json => "JSON"
  | .yaml => "YAML"
  | .tree => "text"

/-- Whether a bare number may stand for an unsigned integer. -/
def Dialect.acceptsNumbers (d : Dialect) : Bool := d != .json

/-- Why a field that is present has no valid value. -/
inductive FieldError where
  | hex (cause : HexError)
  | integer (cause : IntegerError)
  /-- A number with a sign, a fraction or an exponent, or one that is too large to be exact. -/
  | notUnsigned (n : Number)
  /-- A text that does not start with a digit. -/
  | notDecimal (text : String)
  /-- A text that is no number below `2 ^ 256`. -/
  | notUint256 (text : String)
  | bits (cause : Malformed)
  deriving DecidableEq, Repr

def FieldError.message : FieldError → String
  | .hex cause => cause.message
  | .integer cause => cause.message
  | .notUnsigned n => s!"invalid decimal: {n.render} is not an unsigned integer"
  | .notDecimal text => s!"invalid decimal: {text} is not an unsigned decimal integer"
  | .notUint256 text => s!"invalid decimal: {text} is not a decimal uint256"
  | .bits cause => cause.message

/-- A well-formed text of the wrong structure. -/
inductive Misfit where
  | wrongKind (expected label found : String)
  | keyNotString
  | unrepresentable (number : String)
  deriving DecidableEq, Repr

def Misfit.message : Misfit → String
  | .wrongKind expected label found => s!"expected {expected} for {label}, found {found}"
  | .keyNotString => "mapping keys must be strings"
  | .unrepresentable number => s!"unrepresentable number {number}"

end Text

/-- Why a text is not a value of a shape. -/
inductive TextError where
  | unexpectedEnd
  /-- The text breaks the rules of its format. -/
  | notWellFormed (dialect : Text.Dialect)
  | misfit (dialect : Text.Dialect) (cause : Text.Misfit)
  | missingField (label : String)
  | invalidField (label : String) (cause : Text.FieldError)
  | incorrectLength (label : String) (expected actual : Nat)
  | exceedsMaximum (label : String) (max actual : Nat)
  | shapeMismatch (cause : ShapeMismatch)
  deriving DecidableEq, Repr

namespace TextError

private def verdict (expected actual : Nat) : String :=
  if actual < expected then "too short" else "too long"

def message : TextError → String
  | .unexpectedEnd => "unexpected end of input"
  | .notWellFormed dialect => s!"invalid {dialect.name}: not well-formed"
  | .misfit dialect cause => s!"invalid {dialect.name}: {cause.message}"
  | .missingField label => s!"{label} missing"
  | .invalidField label cause => s!"invalid value for {label}: {cause.message}"
  | .incorrectLength label expected actual =>
    s!"incorrect length for {label}: {actual} is {verdict expected actual}, expected {expected}"
  | .exceedsMaximum label max actual =>
    s!"incorrect length for {label}: {actual} is too long, maximum {max}"
  | .shapeMismatch cause => cause.message

end TextError

end Ssz

-- SUMMARY: What plain scalars of YAML mean: nulls, booleans, integers, floats and strings.
import Ssz.Text.Hex
import Ssz.Text.Tree

/-!
# The core schema

A plain scalar is tried as null, a boolean, an integer and a float, in this
order, and is a string otherwise. Digits after a leading zero are no number.
Integers beyond 64 bits have no value, unless they are beyond 128 bits too and
so become floats.
-/

namespace Ssz.Text.Yaml

/-- The meaning of a scalar. -/
inductive Scalar where
  | null
  | bool (b : Bool)
  | number (n : Number)
  /-- A number that is not finite, by its spelling. -/
  | special (spelling : String)
  | string (s : List Char)
  deriving DecidableEq, Repr

namespace Core

def isNull (text : List Char) : Bool :=
  [['n', 'u', 'l', 'l'], ['N', 'u', 'l', 'l'], ['N', 'U', 'L', 'L'], ['~']].contains text

def bool? (text : List Char) : Option Bool :=
  if [['t', 'r', 'u', 'e'], ['T', 'r', 'u', 'e'], ['T', 'R', 'U', 'E']].contains text then some true
  else if [['f', 'a', 'l', 's', 'e'], ['F', 'a', 'l', 's', 'e'],
    ['F', 'A', 'L', 'S', 'E']].contains text then some false
  else none

/-! ## Integers -/

/-- The value of a digit below `radix`. -/
def digit? (radix : Nat) (c : Char) : Option Nat :=
  if c.toNat < 128 then
    ((Hex.nibble? (UInt8.ofNat c.toNat)).map UInt8.toNat).filter (· < radix)
  else none

/-- A number of at least one digit. -/
def digits? (radix : Nat) (text : List Char) : Option Nat :=
  if text.isEmpty then none
  else text.foldlM (fun n c => (digit? radix c).map (radix * n + ·)) 0

/-- A number without its sign, in one of the four radixes. Decimal may be ruled out. -/
def numeral? (radixOnly : Bool) : List Char → Option Nat
  | '0' :: 'x' :: ds => digits? 16 ds
  | '0' :: 'o' :: ds => digits? 8 ds
  | '0' :: 'b' :: ds => digits? 2 ds
  | ds => if radixOnly then none else digits? 10 ds

/-- The scalar without its sign. -/
def unsigned : List Char → List Char
  | '+' :: cs | '-' :: cs => cs
  | cs => cs

/-- Decimal digits after a leading zero. -/
def hasLeadingZero (text : List Char) : Bool :=
  match unsigned text with
  | '0' :: c :: cs => (c :: cs).all fun d => '0' ≤ d && d ≤ '9'
  | _ => false

def int? (text : List Char) : Option Int :=
  let radixOnly := hasLeadingZero text
  match text with
  | '-' :: cs => (numeral? radixOnly cs).map fun n => -(n : Int)
  | '+' :: cs | cs => (numeral? radixOnly cs).map fun n => (n : Int)

/-! ## Floats -/

def isDigit (c : Char) : Bool := '0' ≤ c && c ≤ '9'

/-- The exponent of a float, or nothing at all. -/
def exponent? : List Char → Option Int
  | [] => some 0
  | c :: cs =>
    if c = 'e' || c = 'E' then
      match cs with
      | '-' :: ds => (digits? 10 ds).map fun n => -(n : Int)
      | '+' :: ds | ds => (digits? 10 ds).map fun n => (n : Int)
    else none

/-- A decimal with an optional point and exponent, and a digit on at least one side of the
    point. -/
def decimal? (negative : Bool) (text : List Char) : Option Binary64 := do
  let whole := text.takeWhile isDigit
  let rest := text.dropWhile isDigit
  let (fraction, rest) := match rest with
    | '.' :: cs => (cs.takeWhile isDigit, cs.dropWhile isDigit)
    | cs => ([], cs)
  let n ← digits? 10 (whole ++ fraction)
  let power ← exponent? rest
  Binary64.ofDecimal? negative n (power - fraction.length)

/-- A float other than the special ones. -/
def finite? : List Char → Option Binary64
  | '-' :: cs => decimal? true cs
  | '+' :: cs | cs => decimal? false cs

def isInfinity (text : List Char) : Bool :=
  [['.', 'i', 'n', 'f'], ['.', 'I', 'n', 'f'], ['.', 'I', 'N', 'F']].contains text

def isNan (text : List Char) : Bool :=
  [['.', 'n', 'a', 'n'], ['.', 'N', 'a', 'N'], ['.', 'N', 'A', 'N']].contains text

def float? (text : List Char) : Option Scalar :=
  if isInfinity text || (text.head? = some '+' && isInfinity text.tail) then some (.special ".inf")
  else if text.head? = some '-' && isInfinity text.tail then some (.special "-.inf")
  else if isNan text then some (.special ".nan")
  else (finite? text).map fun x => .number (.float x)

/-! ## Resolution -/

/-- An integer as a number. One that needs more than 64 bits has no value. -/
def ofInt? (i : Int) : Option Scalar :=
  if 0 ≤ i then (if i < Number.bound then some (.number (.natural i.toNat)) else none)
  else if i.natAbs ≤ Number.maxNegative then some (.number (.negative i.natAbs))
  else none

/-- Whether an integer fits 128 bits. -/
def fits128 (i : Int) : Bool :=
  if i < 0 then i.natAbs ≤ 0x80000000000000000000000000000000
  else i.natAbs < 0x100000000000000000000000000000000

/-- A scalar that is an integer by its spelling and fits 128 bits. -/
def boundedInt? (text : List Char) : Option Int := (int? text).filter fits128

/-- The meaning of a plain scalar. -/
def resolve (text : List Char) : Option Scalar :=
  if text.isEmpty || isNull text then some .null
  else
    match bool? text with
    | some b => some (.bool b)
    | none =>
      match boundedInt? text with
      | some i => ofInt? i
      | none => some (((if hasLeadingZero text then none else float? text)).getD (.string text))

/-- The meaning of a scalar under one of the tags of the schema, or nothing if it is not of that
    kind. A string is a string, whatever its spelling. -/
def resolveTagged (tag : String) (text : List Char) : Option Scalar :=
  match tag with
  | "tag:yaml.org,2002:null" => if isNull text then some .null else none
  | "tag:yaml.org,2002:bool" => (bool? text).map .bool
  | "tag:yaml.org,2002:int" => (boundedInt? text).bind ofInt?
  | "tag:yaml.org,2002:float" => float? text
  | _ => some (.string text)

end Core

end Ssz.Text.Yaml

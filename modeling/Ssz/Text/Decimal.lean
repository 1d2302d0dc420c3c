-- SUMMARY: Decimal numerals: writing numbers, and reading them below a bound.

/-!
# Decimal numerals

Numbers are written with the fewest digits. Reading allows leading zeros and
stops at the first fault from the left, which is a character that is no digit or
a number that has grown past its bound.
-/

namespace Ssz

/-- Why a text is not a number below the bound. -/
inductive IntegerError where
  | invalidDigit
  | tooLarge
  deriving DecidableEq, Repr

def IntegerError.message : IntegerError → String
  | .invalidDigit => "invalid digit found in string"
  | .tooLarge => "number too large to fit in target type"

namespace Decimal

/-- The decimal digits of `n`, most significant first. -/
def digits (n : Nat) : List Char :=
  if n < 10 then [Nat.digitChar n] else digits (n / 10) ++ [Nat.digitChar (n % 10)]

def render (n : Nat) : String := String.ofList (digits n)

/-- The number that a digit stands for. -/
def digit? (c : Char) : Option Nat :=
  if '0' ≤ c ∧ c ≤ '9' then some (c.toNat - '0'.toNat) else none

/-- Go on reading a number below `bound` of which the digits so far make `n`. -/
def readFrom (bound n : Nat) : List Char → Except IntegerError Nat
  | [] => .ok n
  | c :: cs =>
    match digit? c with
    | none => .error .invalidDigit
    | some d => if 10 * n + d < bound then readFrom bound (10 * n + d) cs else .error .tooLarge

/-- Read a number below `bound` from its digits. -/
def read (bound : Nat) (text : List Char) : Except IntegerError Nat := readFrom bound 0 text

/-- Whether a text is a decimal numeral for a number below `bound`. -/
def isNumeral (bound : Nat) (text : List Char) : Bool :=
  !text.isEmpty && (read bound text).isOk

end Decimal

end Ssz

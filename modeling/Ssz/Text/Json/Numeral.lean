-- SUMMARY: Numbers of JSON texts: their grammar, and how digits become a number.
import Ssz.Text.Tree

/-!
# JSON numbers

A whole number that fits 64 bits is exact. Any other number is a float, computed
from the digits that fit 64 bits and a power of ten: the digits are rounded
first, and the product or quotient with the power is rounded again.
-/

namespace Ssz.Text.Json

/-- Why a text is not JSON: it stops early, or it has a character that cannot stand there. -/
inductive Fault where
  | incomplete
  | invalid
  deriving DecidableEq, Repr

namespace Numeral

/-! ## Floats -/

/-- The number nearest to a power of ten within the range of the format. -/
def powerOfTen (k : Nat) : Binary64 := (Binary64.ofRatio? false (Nat.pow 10 k) 1).getD (.zero false)

/-- Largest power of ten that is divided by at once. -/
def maxPower : Nat := 308

/-- Divide by `10 ^ k`, by `10 ^ 308` at a time until the number is zero. -/
def divideByPower : (steps : Nat) → Binary64 → (k : Nat) → Option Binary64
  | 0, x, _ => some (.zero x.negative)
  | steps + 1, x, k =>
    if k ≤ maxPower then x.div? (powerOfTen k)
    else if x.mantissa = 0 then some x
    else (x.div? (powerOfTen maxPower)).bind fun y => divideByPower steps y (k - maxPower)

/-- The number `significand * 10 ^ power`, unless it is too large. Three steps of division bring
    any significand to zero. -/
def float? (negative : Bool) (significand : Nat) (power : Int) : Option Binary64 := do
  let x ← Binary64.ofRatio? negative significand 1
  if power < 0 then divideByPower 3 x power.natAbs
  else if power ≤ maxPower then x.mul? (powerOfTen power.natAbs)
  else if x.mantissa = 0 then some x
  else none

def float (negative : Bool) (significand : Nat) (power : Int) : Except Fault Number :=
  match float? negative significand power with
  | some x => .ok (.float x)
  | none => .error .invalid

/-- A whole number. There is no whole number minus zero. -/
def whole (negative : Bool) (n : Nat) : Except Fault Number :=
  if !negative then .ok (.natural n)
  else if 0 < n ∧ n ≤ Number.maxNegative then .ok (.negative n)
  else float true n 0

/-! ## Grammar -/

/-- Read digits for as long as the number fits 64 bits. Gives the number, how many digits were
    read, and the rest. -/
def significand (n count : Nat) : List Char → Nat × Nat × List Char
  | [] => (n, count, [])
  | c :: cs =>
    match Decimal.digit? c with
    | none => (n, count, c :: cs)
    | some d =>
      if 10 * n + d < Number.bound then significand (10 * n + d) (count + 1) cs
      else (n, count, c :: cs)

/-- Pass over digits, counting them. -/
def skipDigits (count : Nat) : List Char → Nat × List Char
  | [] => (count, [])
  | c :: cs => if (Decimal.digit? c).isSome then skipDigits (count + 1) cs else (count, c :: cs)

/-- Read digits without a limit. -/
def natural (n : Nat) : List Char → Nat × List Char
  | [] => (n, [])
  | c :: cs =>
    match Decimal.digit? c with
    | none => (n, c :: cs)
    | some d => natural (10 * n + d) cs

/-- The next character has to be a digit. -/
def expectDigit : List Char → Except Fault Unit
  | [] => .error .incomplete
  | c :: _ => if (Decimal.digit? c).isSome then .ok () else .error .invalid

/-- The sign of an exponent, which may be left out. -/
def exponentSign : List Char → Bool × List Char
  | '+' :: cs => (false, cs)
  | '-' :: cs => (true, cs)
  | cs => (false, cs)

/-- What follows the digits of a float: an exponent or nothing. -/
def exponent (negative : Bool) (n : Nat) (power : Int) (text : List Char) :
    Except Fault (Number × List Char) :=
  let signed (cs : List Char) : Except Fault (Number × List Char) := do
    let (below, cs) := exponentSign cs
    expectDigit cs
    let (e, rest) := natural 0 cs
    return (← float negative n (if below then power - e else power + e), rest)
  match text with
  | 'e' :: cs | 'E' :: cs => signed cs
  | rest => do return (← float negative n power, rest)

/-- What follows the point. Digits that no longer fit are passed over. -/
def fraction (negative : Bool) (n : Nat) (power : Int) (text : List Char) :
    Except Fault (Number × List Char) := do
  expectDigit text
  let (n, count, rest) := significand n 0 text
  exponent negative n (power - count) (skipDigits 0 rest).2

/-- A number after its sign. -/
def unsigned (negative : Bool) (text : List Char) : Except Fault (Number × List Char) := do
  expectDigit text
  let (n, count, rest) := significand 0 0 text
  if text.head? = some '0' ∧ 1 < count then throw .invalid
  let (more, rest) := skipDigits 0 rest
  match rest with
  | '.' :: cs => fraction negative n more cs
  | 'e' :: _ | 'E' :: _ => exponent negative n more rest
  | rest =>
    if more = 0 then return (← whole negative n, rest)
    else return (← float negative n more, rest)

end Numeral

/-- Read a number at the start of a text. -/
def readNumber : List Char → Except Fault (Number × List Char)
  | '-' :: cs => Numeral.unsigned true cs
  | cs => Numeral.unsigned false cs

end Ssz.Text.Json

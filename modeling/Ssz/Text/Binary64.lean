-- SUMMARY: Finite binary64 numbers: rounding a ratio, and the shortest decimal that reads back.

/-!
# Binary64 numbers

A finite number of the binary64 format is a sign and `mantissa * 2 ^ exponent`.
All arithmetic is done exactly on natural numbers and rounded once, to the
nearest number and to an even mantissa on a tie.
-/

namespace Ssz

structure Binary64 where
  negative : Bool
  mantissa : Nat
  exponent : Int
  deriving DecidableEq, Repr

namespace Binary64

/-- Bits of a full mantissa. -/
def precision : Nat := 53

/-- Exponent of the subnormal numbers, the least there is. -/
def minExponent : Int := -1074

/-- Exponent of the largest numbers. -/
def maxExponent : Int := 971

/-- Zero, with its sign. -/
def zero (negative : Bool) : Binary64 := ⟨negative, 0, minExponent⟩

/-! ## Rounding -/

/-- `num / den` to the nearest integer, to the even one of two. -/
def roundDiv (num den : Nat) : Nat :=
  let q := num / den
  let r := num % den
  if 2 * r < den then q
  else if den < 2 * r then q + 1
  else if q % 2 = 0 then q else q + 1

/-- The fraction `num / den`, scaled by `2 ^ (-shift)`. -/
def scaled (num den : Nat) (shift : Int) : Nat × Nat :=
  if shift < 0 then (num * Nat.pow 2 shift.natAbs, den) else (num, den * Nat.pow 2 shift.natAbs)

/-- The exponent that gives `num / den` a full mantissa. -/
def fullExponent (num den : Nat) : Int :=
  let guess : Int := (num.log2 : Int) - (den.log2 : Int)
  let (n, d) := scaled num den guess
  (if n < d then guess - 1 else guess) - (precision - 1)

/-- The number nearest to `num / den`, unless it is too large. -/
def ofRatio? (negative : Bool) (num den : Nat) : Option Binary64 :=
  if num = 0 then some (zero negative)
  else
    let exponent := max (fullExponent num den) minExponent
    let (n, d) := scaled num den exponent
    let mantissa := roundDiv n d
    let (mantissa, exponent) :=
      if mantissa = Nat.pow 2 precision then (Nat.pow 2 (precision - 1), exponent + 1)
      else (mantissa, exponent)
    if maxExponent < exponent then none else some ⟨negative, mantissa, exponent⟩

/-- The magnitude as a fraction. -/
def ratio (x : Binary64) : Nat × Nat := scaled x.mantissa 1 (-x.exponent)

/-- The number nearest to `digits * 10 ^ power`, unless it is too large. Powers beyond the range
    of the format are decided without being computed. -/
def ofDecimal? (negative : Bool) (digits : Nat) (power : Int) : Option Binary64 :=
  if digits = 0 then some (zero negative)
  else
    let magnitude : Int := digits.log2 / 3 + power
    if 400 < power then none
    else if magnitude < -400 then some (zero negative)
    else if power < 0 then ofRatio? negative digits (Nat.pow 10 power.natAbs)
    else ofRatio? negative (digits * Nat.pow 10 power.natAbs) 1

/-- The product of two magnitudes, with the sign of the first. -/
def mul? (x y : Binary64) : Option Binary64 :=
  let (a, b) := x.ratio
  let (c, d) := y.ratio
  ofRatio? x.negative (a * c) (b * d)

/-- The quotient of two magnitudes, with the sign of the first. -/
def div? (x y : Binary64) : Option Binary64 :=
  let (a, b) := x.ratio
  let (c, d) := y.ratio
  ofRatio? x.negative (a * d) (b * c)

/-! ## Shortest decimals -/

/-- A decimal `digits * 10 ^ power`. -/
structure Scientific where
  digits : Nat
  power : Int
  deriving DecidableEq, Repr

/-- `a / b ≤ c / d`, or strictly so. -/
def fractionBelow (strict : Bool) (a b : Nat × Nat) : Bool :=
  if strict then a.1 * b.2 < b.1 * a.2 else a.1 * b.2 ≤ b.1 * a.2

/-- `digits * 10 ^ power` as a fraction. -/
def Scientific.ratio (s : Scientific) : Nat × Nat :=
  if s.power < 0 then (s.digits, Nat.pow 10 s.power.natAbs)
  else (s.digits * Nat.pow 10 s.power.natAbs, 1)

/-- The ends of the interval of numbers that round to `x`. Below a power of two the spacing is
    half as wide. -/
def bounds (x : Binary64) : (Nat × Nat) × (Nat × Nat) :=
  let below := if x.mantissa = Nat.pow 2 (precision - 1) ∧ minExponent < x.exponent then 1 else 2
  (scaled (4 * x.mantissa - below) 4 (-x.exponent), scaled (4 * x.mantissa + 2) 4 (-x.exponent))

/-- Whether a decimal rounds to `x`; the ends of the interval do if the mantissa is even. -/
def rounds (x : Binary64) (s : Scientific) : Bool :=
  let (low, high) := x.bounds
  let strict := x.mantissa % 2 = 1
  fractionBelow strict low s.ratio && fractionBelow strict s.ratio high

/-- The number of decimal digits. -/
def digitCount (n : Nat) : Nat := if n < 10 then 1 else digitCount (n / 10) + 1

/-- The power of ten of the leading digit of a fraction that is not zero. -/
def leadingPower (a : Nat × Nat) : Int :=
  if a.2 ≤ a.1 then (digitCount (a.1 / a.2) : Int) - 1
  else -(digitCount ((a.2 + a.1 - 1) / a.1 - 1) : Int)

/-- The neighbour, on the grid of multiples of `10 ^ power`, that is nearest to `x` among those
    that round to it. -/
def neighbour? (x : Binary64) (power : Int) : Option Scientific :=
  let (a, b) := x.ratio
  let (n, d) := if power < 0 then (a * Nat.pow 10 power.natAbs, b)
    else (a, b * Nat.pow 10 power.natAbs)
  let low : Scientific := ⟨n / d, power⟩
  let high : Scientific := ⟨n / d + 1, power⟩
  let nearest := if roundDiv n d = n / d then low else high
  let other := if roundDiv n d = n / d then high else low
  if x.rounds nearest then some nearest else if x.rounds other then some other else none

/-- Look for a decimal on ever finer grids. -/
def searchDigits (x : Binary64) (leading : Int) : (count digits : Nat) → Scientific
  | 0, _ => ⟨0, 0⟩
  | count + 1, digits =>
    match x.neighbour? (leading - digits) with
    | some s => s
    | none => searchDigits x leading count (digits + 1)

/-- The shortest decimal that reads back as the magnitude of `x`, and of those the nearest. -/
def shortest (x : Binary64) : Scientific := searchDigits x (leadingPower x.ratio) 17 0

/-! ## Writing -/

/-- Decimal digits of a number, most significant first. -/
def digitList (n : Nat) : List Char := (toString n).toList

/-- Drop the zeros at the end. -/
def trimZeros (digits : List Char) : List Char := (digits.reverse.dropWhile (· = '0')).reverse

/-- Place the point in digits of which the first has the power `leading`. Positional notation is
    used for leading powers from -5 to 15, and there is always a digit after the point in it. -/
def placePoint (digits : List Char) (leading : Int) : List Char :=
  if leading < -5 ∨ 15 < leading then
    let fraction := match digits.tail with
      | [] => []
      | rest => '.' :: rest
    let sign := if leading < 0 then '-' else '+'
    digits.take 1 ++ fraction ++ 'e' :: sign :: digitList leading.natAbs
  else if leading < 0 then
    '0' :: '.' :: List.replicate (leading.natAbs - 1) '0' ++ digits
  else
    let whole := leading.toNat + 1
    let padded := digits ++ List.replicate (whole - digits.length) '0'
    let fraction := if digits.length ≤ whole then ['0'] else digits.drop whole
    padded.take whole ++ '.' :: fraction

/-- The shortest text that reads back as `x`. -/
def render (x : Binary64) : String :=
  let sign := if x.negative then ['-'] else []
  if x.mantissa = 0 then String.ofList (sign ++ ['0', '.', '0'])
  else
    let s := x.shortest
    let all := digitList s.digits
    String.ofList (sign ++ placePoint (trimZeros all) (s.power + (all.length - 1)))

end Binary64

end Ssz

/-!
# Shortest decimal digits of a binary64 number

A finite number other than zero stands for an interval of reals: all those that round to it. Its
shortest decimal form has the fewest digits of any decimal in that interval, and of the decimals
with that many digits it is the one nearest to the number, the upper one when two are equally
near. Everything is exact arithmetic on natural numbers.

* `Decimal.decode` takes the bit pattern apart.
* `Decimal.shortest` finds the digits.
* `Decimal.Style.render` writes them positionally, never with an exponent.
-/

namespace StackLisp.Decimal

/-- The positive number `mantissa * 2 ^ exponent`, with what is needed to know its neighbours. -/
structure Binary where
  /-- The integer significand, below `2 ^ 53`. -/
  mantissa : Nat
  /-- The power of two that scales it. -/
  exponent : Int
  /-- The number is the least of its binade, so its lower neighbour is half as far as its upper
  one. -/
  leastOfBinade : Bool
deriving DecidableEq

/-- The three cases of a bit pattern, sign left out. -/
inductive Magnitude where
  | finite (number : Binary)
  | infinite
  | notANumber

/-- The weight of the bit that normal numbers leave out, `2 ^ 52`. -/
def hiddenBit : Nat := 4503599627370496

/-- The magnitude that the exponent and fraction fields of a binary64 pattern stand for. -/
def decode (bits : UInt64) : Magnitude :=
  let fraction : Nat := bits.toNat % hiddenBit
  let biased : Nat := bits.toNat / hiddenBit % 2048
  if biased = 2047 then
    if fraction = 0 then .infinite else .notANumber
  else if biased = 0 then
    .finite { mantissa := fraction, exponent := -1074, leastOfBinade := false }
  else
    .finite
      { mantissa := hiddenBit + fraction
        exponent := (biased : Int) - 1075
        leastOfBinade := fraction = 0 && 1 < biased }

/-- The sign field of a binary64 pattern. -/
def isNegative (bits : UInt64) : Bool :=
  2048 * hiddenBit ≤ bits.toNat

/-- The decimal number `digits * 10 ^ exponent`. -/
structure Digits where
  /-- The digits, read as a natural number. -/
  digits : Nat
  /-- The power of ten that scales it. -/
  exponent : Int
deriving DecidableEq

/-- Drop one trailing zero digit. -/
def Digits.dropZero (d : Digits) : Digits :=
  if d.digits % 10 = 0 then { digits := d.digits / 10, exponent := d.exponent + 1 } else d

/-- A number and the ends of its rounding interval, as numerators over one denominator. -/
structure Interval where
  /-- Numerator of the lower end. -/
  lower : Nat
  /-- Numerator of the number itself. -/
  value : Nat
  /-- Numerator of the upper end. -/
  upper : Nat
  /-- The common denominator. -/
  denominator : Nat
  /-- The ends themselves round to the number. -/
  closed : Bool

/-- The reals that round to `b`: half a unit in the last place to each side, a quarter below the
least number of a binade. Ties round to even, so the ends belong to even mantissas. -/
def Binary.interval (b : Binary) : Interval :=
  let up := Nat.pow 2 (b.exponent - 2).toNat
  { lower := (4 * b.mantissa - if b.leastOfBinade then 1 else 2) * up
    value := 4 * b.mantissa * up
    upper := (4 * b.mantissa + 2) * up
    denominator := Nat.pow 2 (2 - b.exponent).toNat
    closed := b.mantissa % 2 = 0 }

/-- `p / q`, for a positive `p` below `q`, is at least `10 ^ -k` for the least such `k`, tried from
`k` on. -/
def leadingZeros (p q : Nat) : (tries k : Nat) → Nat
  | 0, k => k
  | tries + 1, k => if q ≤ p * 10 then k else leadingZeros (p * 10) q tries (k + 1)

/-- The `k` with `10 ^ (k - 1) ≤ value < 10 ^ k`. -/
def Interval.magnitude (i : Interval) : Int :=
  if i.denominator ≤ i.value then
    ((Nat.toDigits 10 (i.value / i.denominator)).length : Int)
  else
    -(leadingZeros i.value i.denominator 400 0 : Int)

/-- The decimal of `count` digits inside the interval that is nearest to the number, if there is
one; of two equally near ones, the upper. -/
def Interval.nearest? (i : Interval) (magnitude : Int) (count : Nat) : Option Digits :=
  let exponent := magnitude - (count : Int)
  let scale := Nat.pow 10 (-exponent).toNat
  let unit := i.denominator * Nat.pow 10 exponent.toNat
  let value := i.value * scale
  let inside (c : Nat) : Bool :=
    let point := c * unit
    let low := i.lower * scale
    let high := i.upper * scale
    if i.closed then low ≤ point && point ≤ high else low < point && point < high
  -- the two neighbours of the number on the grid of `count` digits
  let below := value / unit
  let remainder := value - below * unit
  let up : Digits := { digits := below + 1, exponent }
  let down : Digits := { digits := below, exponent }
  match inside below, inside (below + 1) with
  | true, true => some (if 2 * remainder < unit then down else up)
  | true, false => some down
  | false, true => some up
  | false, false => none

/-- The shortest decimal form of a positive number. Seventeen digits always suffice. -/
def shortest (b : Binary) : Digits :=
  let interval := b.interval
  let magnitude := interval.magnitude
  let found := (List.range 17).findSome? fun n => interval.nearest? magnitude (n + 1)
  -- a number that rounds up to a power of ten leaves a zero at the end
  (found.getD { digits := b.mantissa, exponent := 0 }).dropZero

/-- `count` zeros. -/
def zeros (count : Nat) : String :=
  "".pushn '0' count

/-- Write a decimal positionally: no exponent, no zero after the last decimal place. -/
def Digits.positional (d : Digits) : String :=
  let text := toString d.digits
  if 0 ≤ d.exponent then
    text ++ zeros d.exponent.toNat
  else
    let places := (-d.exponent).toNat
    if places < text.length then
      let whole := text.length - places
      String.ofList (text.toList.take whole) ++ "." ++ String.ofList (text.toList.drop whole)
    else
      "0." ++ zeros (places - text.length) ++ text

/-- How the special numbers are spelt. -/
structure Style where
  /-- The text of infinity, after the sign. -/
  infinity : String
  /-- The text of what is not a number. -/
  notANumber : String
  /-- Whether the sign of a negative zero is written. -/
  signedZero : Bool

/-- The decimal text of a number. -/
def Style.render (style : Style) (number : Float) : String :=
  let bits := number.toBits
  let signed (text : String) : String := if isNegative bits then "-" ++ text else text
  match decode bits with
  | .notANumber => style.notANumber
  | .infinite => signed style.infinity
  | .finite b =>
    if b.mantissa = 0 then
      if style.signedZero then signed "0" else "0"
    else
      signed (shortest b).positional

end StackLisp.Decimal

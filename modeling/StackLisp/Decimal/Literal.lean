/-!
# Decimal literals

A decimal literal is an optional sign, digits with at most one point among or around them, at
least one digit in all, and an optional exponent: `e` or `E`, an optional sign and at least one
digit. `Decimal.read?` gives the binary64 number nearest to it.

An exponent takes in digits only while it is below `exponentBound`; further digits of it are
ignored. A number can show this only if it has as many digits itself.
-/

namespace StackLisp.Decimal

/-- The parts of a decimal literal: `whole . fraction * 10 ^ exponent`, with a sign. -/
structure Literal where
  /-- The literal starts with a minus sign. -/
  negative : Bool
  /-- The digits before the point. -/
  whole : List Char
  /-- The digits after the point. -/
  fraction : List Char
  /-- The decimal exponent. -/
  exponent : Int

/-- An optional sign in front of a text; true for minus. -/
def splitSign : List Char → Bool × List Char
  | '-' :: rest => (true, rest)
  | '+' :: rest => (false, rest)
  | rest => (false, rest)

/-- The number that a list of decimal digits spells. -/
def ofDigits (digits : List Char) : Nat :=
  digits.foldl (fun n c => 10 * n + (c.toNat - '0'.toNat)) 0

/-- An exponent that has reached this bound takes in no more digits. -/
def exponentBound : Nat := 65536

/-- The size of an exponent that a list of decimal digits spells. -/
def ofExponentDigits (digits : List Char) : Nat :=
  digits.foldl (fun n c => if n < exponentBound then 10 * n + (c.toNat - '0'.toNat) else n) 0

/-- The exponent part of a literal: nothing, or a mark followed by a signed whole number. -/
def exponent? : List Char → Option Int
  | [] => some 0
  | mark :: rest =>
    if mark = 'e' || mark = 'E' then
      let (negative, digits) := splitSign rest
      if digits.isEmpty || !digits.all Char.isDigit then none
      else if negative then some (-(ofExponentDigits digits : Int))
      else some (ofExponentDigits digits : Int)
    else none

/-- Take a text apart as a decimal literal. -/
def Literal.parse? (text : List Char) : Option Literal :=
  let (negative, unsigned) := splitSign text
  let whole := unsigned.takeWhile Char.isDigit
  let afterWhole := unsigned.dropWhile Char.isDigit
  let (fraction, afterFraction) := match afterWhole with
    | '.' :: rest => (rest.takeWhile Char.isDigit, rest.dropWhile Char.isDigit)
    | rest => ([], rest)
  if whole.isEmpty && fraction.isEmpty then none
  else (exponent? afterFraction).map fun exponent => { negative, whole, fraction, exponent }

/-- Positive infinity. -/
def infinity : Float :=
  Float.ofBits 0x7ff0000000000000

/-- How many digits are kept of a long number. The middle between two neighbouring binary64 numbers
has at most 767 digits. -/
def maxDigits : Nat := 800

/-- The number `whole * 10 ^ exponent` that rounds as the given digits do: of those beyond
`maxDigits` only this is kept, that one of them is not zero. -/
def condense (digits : List Char) (exponent : Int) : Nat × Int :=
  match digits.drop maxDigits with
  | [] => (ofDigits digits, exponent)
  | dropped =>
    let sticky := if dropped.all (· = '0') then 0 else 1
    (10 * ofDigits (digits.take maxDigits) + sticky, exponent + (dropped.length : Int) - 1)

/-- The binary64 number nearest to a literal. A literal whose first digit stands too high is
infinite and one whose first digit stands too low is zero; the bounds only spare the work of
huge powers of ten. -/
def Literal.toFloat (l : Literal) : Float :=
  let digits := (l.whole ++ l.fraction).dropWhile (· = '0')
  let exponent := l.exponent - (l.fraction.length : Int)
  let top := exponent + (digits.length : Int)
  let size :=
    if digits.isEmpty || top < -400 then 0
    else if 400 < top then infinity
    else
      let (whole, exponent) := condense digits exponent
      if exponent < 0 then Float.ofScientific whole true (-exponent).toNat
      else Float.ofScientific whole false exponent.toNat
  if l.negative then -size else size

/-- The number that a decimal literal denotes; `none` for any other text. -/
def read? (text : List Char) : Option Float :=
  (Literal.parse? text).map Literal.toFloat

end StackLisp.Decimal

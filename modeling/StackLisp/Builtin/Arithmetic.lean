import StackLisp.Builtin.Arity

/-!
# Numbers and comparisons

Sums, differences, products and quotients of any number of binary64 numbers, the order of two
numbers, and the two notions of sameness of values.
-/

namespace StackLisp.Numeric

/-- The arguments as numbers, up to the first that is none. -/
def numbers (args : List Value) : Except Error (List Number) :=
  args.mapM Value.expectNumber

/-- The sum from left to right. The sum of nothing is negative zero, the neutral number. -/
def sum (args : List Value) : Except Error Value := do
  return .number ((← numbers args).foldl (· + ·) (.ofFloat (-0.0)))

/-- The first number less the others; the negative of a single number. -/
def difference (args : List Value) : Except Error Value := do
  match ← numbers args with
  | [] => return .number (.ofFloat 0.0)
  | [n] => return .number (-n)
  | first :: others => return .number (others.foldl (· - ·) first)

/-- The product from left to right. -/
def product (args : List Value) : Except Error Value := do
  return .number ((← numbers args).foldl (· * ·) (.ofFloat 1.0))

/-- The first number divided by the others in turn. -/
def quotient (args : List Value) : Except Error Value := do
  Arity.check "/" 1 none args
  match ← numbers args with
  | [] => return .number (.ofFloat 0.0)
  | first :: others => return .number (others.foldl (· / ·) first)

end StackLisp.Numeric

namespace StackLisp.Comparison

/-- Compare two numbers. -/
def compare (function : String) (holds : Float → Float → Bool) (args : List Value) :
    Except Error Value := do
  let (a, b) ← Arity.two function args
  let a ← a.expectNumber
  let b ← b.expectNumber
  return .boolean (holds a b)

/-- The first of two numbers is less. -/
def isLess : List Value → Except Error Value :=
  compare "<" fun a b => a < b

/-- The first of two numbers is greater. -/
def isGreater : List Value → Except Error Value :=
  compare ">" fun a b => b < a

/-- Two values are the same object. -/
def areIdentical (args : List Value) : Except Error Value := do
  let (a, b) ← Arity.two "identical?" args
  return .boolean (a.identical b)

/-- Two values have equal contents. -/
def areEqual (args : List Value) : Except Error Value := do
  let (a, b) ← Arity.two "equal?" args
  return .boolean (a.equal b)

end StackLisp.Comparison

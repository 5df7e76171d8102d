import StackLisp.Builtin.Basic
import StackLisp.Code.Instruction
import StackLisp.Symbol
import StackLisp.Value.Number

/-!
# Values

The dynamic values of the language. Strings, non-empty lists, functions and closures are
allocated: each carries the number of its allocation, and two of them are the same object when
those numbers agree. Numbers and booleans are compared by their bits, and there is one empty list.

* `Value.identity` is what `identical` compares.
* `Value.equal` compares numbers, strings, booleans and lists by content, the rest by identity.
-/

namespace StackLisp

/-- The number of an allocation. -/
abbrev Ref := Nat

/-- The number of an environment. -/
abbrev EnvId := Nat

/-- A compiled function over constants of type `α`, bound to the environment it closes over once it
has one. -/
structure ClosureOf (α : Type) where
  /-- The allocation that gives the closure its identity. -/
  ref : Ref
  /-- The name it prints with. -/
  name : String
  /-- Its code: the peak stack depth, then the instructions. -/
  code : Code
  /-- How many arguments are bound one by one. -/
  positional : Nat
  /-- Whether further arguments are collected into a list. -/
  variadic : Bool
  /-- The constants that the code refers to; the parameters come first. -/
  constants : Array α
  /-- The environment that encloses its calls. -/
  env : Option EnvId

/-- A value of the language. -/
inductive Value where
  | number (n : Number)
  | symbol (s : Symbol)
  | boolean (b : Bool)
  | string (ref : Ref) (text : String)
  /-- The one empty list. -/
  | nil
  /-- A list with at least one item. -/
  | list (ref : Ref) (first : Value) (others : List Value)
  | intrinsic (ref : Ref) (function : Intrinsic)
  | closure (c : ClosureOf Value)

instance : Inhabited Value := ⟨.nil⟩

/-- A compiled function over values. -/
abbrev Closure := ClosureOf Value

/-- What makes a value the value it is. -/
inductive Identity where
  | number (bits : UInt64)
  | symbol (s : Symbol)
  | boolean (b : Bool)
  | nil
  | object (ref : Ref)
deriving DecidableEq, Hashable

namespace Value

/-- The identity of a value: bits, symbol or allocation. -/
def identity : Value → Identity
  | .number n => .number n.bits
  | .symbol s => .symbol s
  | .boolean b => .boolean b
  | .string ref _ => .object ref
  | .nil => .nil
  | .list ref _ _ => .object ref
  | .intrinsic ref _ => .object ref
  | .closure c => .object c.ref

/-- The two values are one and the same. -/
def identical (a b : Value) : Bool :=
  a.identity = b.identity

/-- Every value is itself, also what is not a number. -/
theorem identical_refl (v : Value) : v.identical v = true := by
  simp [identical]

/-- Sameness goes both ways. -/
theorem identical_comm (a b : Value) : a.identical b = b.identical a := by
  simp [identical, eq_comm]

mutual

/-- Structural equality: numbers, strings, booleans and lists compare by content, everything else
by identity. -/
def equal : Value → Value → Bool
  | .number a, .number b => a.toFloat == b.toFloat
  | .string _ a, .string _ b => a == b
  | .list _ a as, .list _ b bs => equal a b && equalLists as bs
  | a, b => a.identical b

/-- Item by item equality of two lists. -/
def equalLists : List Value → List Value → Bool
  | [], [] => true
  | a :: as, b :: bs => equal a b && equalLists as bs
  | _, _ => false

end

/-- The name of a value's type. -/
def typeName : Value → String
  | .number _ => "number"
  | .symbol _ => "symbol"
  | .boolean _ => "boolean"
  | .string _ _ => "string"
  | .nil => "list"
  | .list _ _ _ => "list"
  | .intrinsic _ _ => "intrinsic"
  | .closure _ => "closure"

/-- The value is the empty list. -/
def isNil : Value → Bool
  | .nil => true
  | _ => false

/-- Only the empty list and `false` fail a test. -/
def isTruthy : Value → Bool
  | .nil => false
  | .boolean b => b
  | _ => true

/-- The number that a value is. -/
def number? : Value → Option Number
  | .number n => some n
  | _ => none

/-- The symbol that a value is. -/
def symbol? : Value → Option Symbol
  | .symbol s => some s
  | _ => none

/-- The text of a string. -/
def text? : Value → Option String
  | .string _ text => some text
  | _ => none

/-- The items of a list. -/
def items? : Value → Option (List Value)
  | .nil => some []
  | .list _ first others => some (first :: others)
  | _ => none

/-- The closure that a value is. -/
def closure? : Value → Option Closure
  | .closure c => some c
  | _ => none

end Value

end StackLisp

import StackLisp.Machine.Engine

/-!
# The shapes of forms

The compiler gives five names a meaning of their own. `Shape` is what a non-empty list means once
macros are expanded: a function literal, a quotation, a conditional, an assignment, or a call. Its
parts are not looked into.
-/

namespace StackLisp

/-- The symbols that the compiler knows. -/
structure Keywords where
  /-- Marks a function literal. -/
  function : Symbol
  /-- Marks a quotation. -/
  quote : Symbol
  /-- Marks a conditional. -/
  conditional : Symbol
  /-- Marks a global definition. -/
  define : Symbol
  /-- Marks an assignment to an existing binding. -/
  assign : Symbol
  /-- Stands before the parameter that collects further arguments. -/
  rest : Symbol

namespace Keywords

/-- The keywords of a store. -/
def intern (store : Store) : Keywords × Store :=
  let (function, store) := store.intern "fn"
  let (quote, store) := store.intern "quote"
  let (conditional, store) := store.intern "if"
  let (define, store) := store.intern "def"
  let (assign, store) := store.intern "set!"
  let (rest, store) := store.intern "&"
  ({ function, quote, conditional, define, assign, rest }, store)

/-- The symbol marks a special form. -/
def isSpecial (k : Keywords) (s : Symbol) : Bool :=
  s = k.function || s = k.quote || s = k.conditional || s = k.define || s = k.assign

end Keywords

/-- The parameters of a function. -/
structure Parameters where
  /-- All parameter symbols, the collecting one last. -/
  symbols : List Symbol
  /-- How many are bound one by one. -/
  positional : Nat
  /-- The last one collects further arguments. -/
  variadic : Bool

namespace Parameters

/-- Read parameters, after those already found in reverse. -/
def parseOnto (rest : Symbol) (reversed : List Symbol) : List Value → Except Error Parameters
  | [] => .ok { symbols := reversed.reverse, positional := reversed.length, variadic := false }
  | parameter :: more => do
    let symbol ← parameter.expectSymbol
    if symbol = rest then
      match more with
      | [] => throw (.malformed .restUnnamed)
      | collecting :: extra =>
        let collecting ← collecting.expectSymbol
        if extra.isEmpty then
          return {
            symbols := (collecting :: reversed).reverse
            positional := reversed.length
            variadic := true }
        else throw (.malformed .restFollowed)
    else parseOnto rest (symbol :: reversed) more

/-- Read a parameter list. -/
def parse (rest : Symbol) (parameters : List Value) : Except Error Parameters :=
  parseOnto rest [] parameters

end Parameters

/-- A function literal. -/
structure FunctionLiteral where
  /-- The name it was given. -/
  name : Option Symbol
  /-- Its parameters. -/
  parameters : Parameters
  /-- Its forms. -/
  body : List Value

namespace FunctionLiteral

/-- A function without name and parameters. -/
def thunk (body : List Value) : FunctionLiteral :=
  { name := none, parameters := { symbols := [], positional := 0, variadic := false }, body }

/-- Read what follows the name, if any. -/
def parseUnnamed (k : Keywords) (name : Option Symbol) : List Value →
    Except Error FunctionLiteral
  | [] => .error (.malformed (.lacks "fn" "an argument list"))
  | parameters :: body => do
    let parameters ← Parameters.parse k.rest (← parameters.expectList)
    return { name, parameters, body }

/-- Read what follows the keyword. A symbol there is the name. -/
def parse (k : Keywords) (items : List Value) : Except Error FunctionLiteral :=
  match items with
  | .symbol name :: others => parseUnnamed k (some name) others
  | items => parseUnnamed k none items

/-- Read a form that must be a function literal. -/
def ofForm (k : Keywords) (form : Value) : Except Error FunctionLiteral := do
  match ← form.expectList with
  | [] => throw (.malformed (.notFunction Value.nil.print))
  | head :: items =>
    if head.symbol? = some k.function then parse k items
    else throw (.malformed (.notFunction head.print))

end FunctionLiteral

/-- The two ways to give a name a value. -/
inductive Assignment where
  /-- Bind globally. -/
  | define
  /-- Overwrite the nearest binding. -/
  | overwrite
deriving DecidableEq

namespace Assignment

/-- The keyword of an assignment. -/
def keyword : Assignment → String
  | .define => "def"
  | .overwrite => "set!"

/-- The instruction of an assignment. -/
def instruction : Assignment → Instruction
  | .define => .define
  | .overwrite => .store

end Assignment

/-- What a non-empty list means. -/
inductive Shape where
  | function (literal : FunctionLiteral)
  | quotation (value : Value)
  | conditional (test consequent alternative : Value)
  | assignment (way : Assignment) (target : Symbol) (value : Value)
  /-- A function and its arguments. -/
  | call (function : Value) (args : List Value)

namespace Shape

/-- The part of a special form at a place, or a complaint that it lacks it. -/
def part (form what : String) (parts : List Value) (place : Nat) : Except Error Value :=
  match parts[place]? with
  | some v => .ok v
  | none => .error (.malformed (.lacks form what))

/-- Read an assignment. -/
def ofAssignment (way : Assignment) (parts : List Value) : Except Error Shape := do
  let target ← part way.keyword "a name" parts 0
  let symbol ← target.expectSymbol
  let value ← part way.keyword "a value" parts 1
  return .assignment way symbol value

/-- Read a conditional. Without an alternative it gives the empty list. -/
def ofConditional (parts : List Value) : Except Error Shape := do
  let test ← part "if" "a test" parts 0
  let consequent ← part "if" "a then branch" parts 1
  return .conditional test consequent (parts.getD 2 .nil)

/-- The meaning of a list with the given head and other items. -/
def ofItems (k : Keywords) (head : Value) (others : List Value) : Except Error Shape :=
  match head with
  | .symbol s =>
    if s = k.function then (FunctionLiteral.parse k others).map .function
    else if s = k.quote then (part "quote" "an argument" others 0).map .quotation
    else if s = k.conditional then ofConditional others
    else if s = k.define then ofAssignment .define others
    else if s = k.assign then ofAssignment .overwrite others
    else .ok (.call head others)
  | _ => .ok (.call head others)

end Shape

end StackLisp

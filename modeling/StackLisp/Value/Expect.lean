import StackLisp.Error
import StackLisp.Value.Printer

/-!
# Values of a wanted type

Conversions that fail with a type error, which shows the offending value in at most forty
characters.
-/

namespace StackLisp

/-- A text cut to forty characters, the last of which is then an ellipsis. -/
def abbreviate (text : String) : String :=
  if 40 < text.length then String.ofList (text.toList.take 39) ++ "…" else text

/-- The type error of a value that is not what was expected. -/
def Error.wrongType (expected : String) (v : Value) : Error :=
  .type expected v.typeName (some (abbreviate v.print))

namespace Value

/-- The number that a value must be. -/
def expectNumber (v : Value) : Except Error Number :=
  match v.number? with
  | some n => .ok n
  | none => .error (.wrongType "number" v)

/-- The symbol that a value must be. -/
def expectSymbol (v : Value) : Except Error Symbol :=
  match v.symbol? with
  | some s => .ok s
  | none => .error (.wrongType "symbol" v)

/-- The text of the string that a value must be. -/
def expectText (v : Value) : Except Error String :=
  match v.text? with
  | some text => .ok text
  | none => .error (.wrongType "string" v)

/-- The items of the list that a value must be. -/
def expectList (v : Value) : Except Error (List Value) :=
  match v.items? with
  | some items => .ok items
  | none => .error (.wrongType "list" v)

/-- The closure that a value must be. -/
def expectClosure (v : Value) : Except Error Closure :=
  match v.closure? with
  | some c => .ok c
  | none => .error (.wrongType "closure" v)

end Value

end StackLisp

import StackLisp.Decimal.Shortest
import StackLisp.Value.Basic

/-!
# Printed values

Every value has a printed form. Strings stand in quotes without escapes, lists in parentheses with
single spaces between the items, and functions show their kind and name.
-/

namespace StackLisp

/-- Numbers print positionally; both zeros print `0`, infinity is written out. -/
def Value.numberStyle : Decimal.Style :=
  { infinity := "Infinity", notANumber := "NaN", signedZero := false }

namespace Value

mutual

/-- Append the printed form of a value to a text. -/
def printOnto (out : String) : Value → String
  | .number n => out ++ numberStyle.render n.toFloat
  | .symbol s => out ++ s.name
  | .boolean b => out ++ if b then "true" else "false"
  | .string _ text => out ++ "\"" ++ text ++ "\""
  | .nil => out ++ "()"
  | .list _ first others => printItemsOnto (printOnto (out ++ "(") first) others ++ ")"
  | .intrinsic _ function => out ++ "#<intrinsic " ++ function.name ++ ">"
  | .closure c => out ++ "#<closure " ++ c.name ++ ">"

/-- Append the printed forms of the further items of a list, each after a space. -/
def printItemsOnto (out : String) : List Value → String
  | [] => out
  | item :: others => printItemsOnto (printOnto (out ++ " ") item) others

end

/-- The printed form of a value. -/
def print (v : Value) : String :=
  printOnto "" v

end Value

end StackLisp

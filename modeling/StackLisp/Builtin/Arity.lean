import StackLisp.Value.Expect

/-!
# Argument counts

The built-in functions check the number of their arguments before anything else.
-/

namespace StackLisp.Arity

/-- At least `least` arguments and at most `most`, if there is an upper bound. -/
def check (function : String) (least : Nat) (most : Option Nat) (args : List Value) :
    Except Error Unit :=
  if args.length < least then .error (.arity function .few)
  else match most with
    | some most => if most < args.length then .error (.arity function .many) else .ok ()
    | none => .ok ()

/-- Exactly one argument. -/
def one (function : String) : List Value → Except Error Value
  | [a] => .ok a
  | [] => .error (.arity function .few)
  | _ => .error (.arity function .many)

/-- Exactly two arguments. -/
def two (function : String) : List Value → Except Error (Value × Value)
  | [a, b] => .ok (a, b)
  | [] | [_] => .error (.arity function .few)
  | _ => .error (.arity function .many)

end StackLisp.Arity

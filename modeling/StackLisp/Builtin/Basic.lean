/-!
# Intrinsic functions

The functions that code can call and that are not code themselves: the built-in ones, which every
interpreter with the standard library binds globally, and those that the host program supplies.
What the built-in ones do stands in the modules beside this one.
-/

namespace StackLisp

/-- A function that the language brings along. -/
inductive Builtin where
  | add | subtract | multiply | divide
  | less | greater | identical | equal
  | cons | list | listStar | append | concat | nth | rest
  | typeOf
  | intern | gensym | markMacro
  | print | load
deriving DecidableEq, Inhabited

namespace Builtin

/-- The global name of a built-in function. -/
def name : Builtin → String
  | .add => "+"
  | .subtract => "-"
  | .multiply => "*"
  | .divide => "/"
  | .less => "<"
  | .greater => ">"
  | .identical => "identical?"
  | .equal => "equal?"
  | .cons => "cons"
  | .list => "list"
  | .listStar => "list*"
  | .append => "append"
  | .concat => "concat"
  | .nth => "nth"
  | .rest => "rest"
  | .typeOf => "type-of"
  | .intern => "intern"
  | .gensym => "gensym"
  | .markMacro => "macro!"
  | .print => "print"
  | .load => "load"

end Builtin

/-- A function that runs outside the machine. -/
inductive Intrinsic where
  | builtin (function : Builtin)
  /-- Calls its first argument with the items of its second. -/
  | apply
  /-- A function of the host program, known by its place among the registered ones. -/
  | host (name : String) (index : Nat)
deriving DecidableEq

namespace Intrinsic

/-- The name that an intrinsic function prints with. -/
def name : Intrinsic → String
  | .builtin function => function.name
  | .apply => "apply"
  | .host name _ => name

/-- The functions of the standard library, in the order in which they are bound. -/
def standard : List Intrinsic :=
  [.builtin .add, .builtin .subtract, .builtin .multiply, .builtin .divide, .builtin .less,
    .builtin .greater, .builtin .identical, .builtin .equal, .builtin .cons, .builtin .list,
    .builtin .listStar, .builtin .append, .builtin .concat, .builtin .nth, .builtin .rest,
    .builtin .typeOf, .builtin .intern, .builtin .gensym, .builtin .markMacro, .apply,
    .builtin .print, .builtin .load]

/-- The standard function of a name. -/
def ofName? (name : String) : Option Intrinsic :=
  standard.find? (·.name = name)

/-- Every built-in function is in the standard library. -/
theorem builtin_mem_standard (b : Builtin) : .builtin b ∈ standard := by
  cases b <;> decide

end Intrinsic

end StackLisp

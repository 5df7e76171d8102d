import StackLisp.Code.Listing
import StackLisp.Machine.Load
import StackLisp.Prelude

/-!
# The interpreter

What a program that embeds the language can do: build an engine with the built-in functions and
the prelude, evaluate texts, forms and files, read and compile forms, and look at the global
bindings. A failed evaluation drops all running calls and keeps what was defined before it.

Every computation that runs programs takes a supply of fuel; a program that ends needs only
enough of it.
-/

namespace StackLisp

/-- How an interpreter is built. -/
structure Setup where
  /-- Bind the built-in functions. -/
  builtins : Bool := true
  /-- Load the prelude, which needs the built-in functions. -/
  prelude : Bool := true
  /-- The bounds on what programs may use. -/
  limits : Limits := {}

namespace Interpreter

/-- An engine as the setup asks for it, before the prelude. -/
def bare (setup : Setup) (files : String → FileAnswer) : Engine :=
  let engine := Engine.new setup.limits files
  if setup.builtins then Intrinsic.standard.foldl Engine.register engine
  else engine

/-- Build an engine. -/
def build (fuel : Nat) (setup : Setup) (files : String → FileAnswer) : Except Stop Engine :=
  let engine := bare setup files
  if setup.builtins && setup.prelude then
    match Machine.loadText (Machine.evaluator fuel) StackLisp.prelude engine with
    | (.ok _, engine) => .ok engine.reset
    | (.error stop, _) => .error stop
  else .ok engine

/-- Drop all running calls if a computation fails. -/
def resetting {α : Type} (action : Eval α) : Eval α := fun e =>
  match action e with
  | (.ok a, e) => (.ok a, e)
  | (.error stop, e) => (.error stop, e.reset)

/-- Evaluate every form of a text; the value of the last one is given, or nil. -/
def evalText (fuel : Nat) (text : String) : Eval Value :=
  resetting (Machine.loadText (Machine.evaluator fuel) text)

/-- Evaluate a form that was read before. -/
def evalForm (fuel : Nat) (form : Value) : Eval Value :=
  resetting (Machine.evalForm (Machine.evaluator fuel) form)

/-- Evaluate every form of a file. -/
def evalFile (fuel : Nat) (path : String) : Eval Value :=
  resetting (Machine.loadFile (Machine.evaluator fuel) path)

/-- Read the first form of a text. -/
def read (text : String) : Eval Value := fun e =>
  match Datum.readOne e.store text with
  | (.ok v, store) => (.ok v, { e with store })
  | (.error error, store) => (.error (.fault error), { e with store })

/-- The form is a list whose head is the given symbol. -/
def isHeadedBy (symbol : Symbol) : Value → Bool
  | .list _ (.symbol head) _ => head = symbol
  | _ => false

/-- Compile the first form of a text: a function literal as that function, any other form as the
body of a function without parameters. -/
def compile (fuel : Nat) (text : String) : Eval Closure := do
  let form ← read text
  let keyword ← Eval.intern "fn"
  if isHeadedBy keyword form then Compiler.compileFunction (Machine.evaluator fuel) form
  else Compiler.compileThunk (Machine.evaluator fuel) form

/-- The listing of the first form of a text. -/
def disassemble (fuel : Nat) (text : String) : Eval String := do
  Eval.ofExcept (Listing.render (← compile fuel text))

/-- The value is an intrinsic function. -/
def isIntrinsic : Value → Bool
  | .intrinsic _ _ => true
  | _ => false

/-- The global bindings that are not intrinsic functions, in the order of their names. -/
def userBindings (e : Engine) : List (Symbol × Value) :=
  (e.globals.toList.filter fun b => !isIntrinsic b.2).mergeSort fun a b => a.1.name ≤ b.1.name

/-- What was printed since the last time. -/
def takeOutput (e : Engine) : String × Engine :=
  (e.output, { e with output := "" })

end Interpreter

end StackLisp

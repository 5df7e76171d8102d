import StackLisp.Interpreter
import StackLisp.Shell.LineBuffer

/-!
# Interactive sessions

A session evaluates each input as soon as it is complete and shows its value or its error. All that
is shown is computed here; reading lines and writing texts is left to the caller.

A computation that waits for a file that nobody has looked at yet gives its path. The caller then
looks, and starts the computation again from the same state.
-/

namespace StackLisp

/-- What a computation shows, and the state to go on with. -/
structure Reply (α : Type) where
  /-- Text for standard output. -/
  out : String
  /-- Text for standard error. -/
  err : String
  /-- The state afterwards. -/
  state : α

/-- Run a computation and show its result: the text it gives, or its error under a heading. What it
printed comes first. The flag tells whether it succeeded. -/
def Eval.report (action : Eval String) (heading : String) (e : Engine) :
    Except String (Reply (Bool × Engine)) :=
  let (result, e) := action e
  let (printed, e) := Interpreter.takeOutput e
  match result with
  | .ok text => .ok { out := printed ++ text, err := "", state := (true, e) }
  | .error (.fault error) =>
    .ok { out := printed, err := heading ++ ": " ++ error.message ++ "\n", state := (false, e) }
  | .error .outOfFuel =>
    .ok { out := printed, err := heading ++ ": out of fuel\n", state := (false, e) }
  | .error (.awaits path) => .error path

/-- An interactive session. -/
structure Repl where
  /-- The interpreter. -/
  engine : Engine
  /-- The input that is being typed. -/
  buffer : LineBuffer := {}

namespace Repl

/-- What a session starts with. -/
def banner : String :=
  "Bunny v0.1.0\nType ,help for help, ,quit to exit\n\n"

/-- What a session ends with. -/
def farewell : String :=
  "Goodbye!\n"

/-- What the help command shows. -/
def help : String :=
  String.join [
    "Bunny REPL Commands:\n",
    "  ,quit / ,q    Exit the REPL\n",
    "  ,help / ,h    Show this help\n",
    "  ,env          Show defined variables\n",
    "\n",
    "Special Forms:\n",
    "  fn, quote, if, def, set!\n",
    "\n",
    "Prelude Macros:\n",
    "  defmacro, defn, do, let, letfn, or, and, when\n"]

/-- What the bindings command shows. -/
def bindings (e : Engine) : String :=
  match Interpreter.userBindings e with
  | [] => "(no user-defined bindings)\n"
  | bindings => String.join (bindings.map fun b => "  " ++ b.1.name ++ " = " ++ b.2.print ++ "\n")

/-- Evaluate an input and show its value on a line. -/
def evaluate (fuel : Nat) (text : String) : Eval String := do
  return (← Interpreter.evalText fuel text).print ++ "\n"

/-- Take a line. The session goes on, unless the line ends it. -/
def feed (fuel : Nat) (r : Repl) (line : String) : Except String (Reply (Option Repl)) :=
  let (input, buffer) := r.buffer.feed line
  let r := { r with buffer }
  match input with
  | .nothing => .ok { out := "", err := "", state := some r }
  | .command .quit => .ok { out := "", err := "", state := none }
  | .command .help => .ok { out := help, err := "", state := some r }
  | .command .bindings => .ok { out := bindings r.engine, err := "", state := some r }
  | .submit text => do
    let reply ← (evaluate fuel text).report "Error" r.engine
    return { reply with state := some { r with engine := reply.state.2 } }

/-- Take lines until the session ends, after what was shown before. -/
def feedAll (fuel : Nat) (r : Repl) (out err : String) :
    List String → Except String (String × String)
  | [] => .ok (out, err)
  | line :: others => do
    let reply ← r.feed fuel line
    let out := out ++ reply.out
    let err := err ++ reply.err
    match reply.state with
    | some r => feedAll fuel r out err others
    | none => return (out, err)

end Repl

end StackLisp

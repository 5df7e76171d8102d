import StackLisp.Shell.Repl
import StackLisp.Shell.TypedLine

/-!
# The command line

The program runs a file, evaluates or lists an expression, or starts an interactive session.
`CommandLine.parse` reads the arguments, and `CommandLine.runWith` gives the whole effect of a run
as texts and an exit status, for a line editor. `CommandLine.run` is that for the one of
`TypedLine`.
-/

namespace StackLisp

/-- What a run was asked to do. -/
structure Options where
  /-- A file to run. -/
  file : Option String := none
  /-- An expression to evaluate. -/
  eval : Option String := none
  /-- An expression whose listing is wanted. -/
  disasm : Option String := none
  /-- Leave the prelude out. -/
  noPrelude : Bool := false
deriving DecidableEq

/-- Why the arguments give no options. -/
inductive Refusal where
  /-- The usage was asked for. -/
  | help
  /-- An argument that has no place; it may have been meant as a value. -/
  | unexpected (argument : String) (looksLikeOption : Bool)
  /-- An option without its value. -/
  | valueMissing (option : String)
  /-- An option given twice. -/
  | repeated (option : String)
deriving DecidableEq

namespace Refusal

/-- One line on how the program is called. -/
def usage : String :=
  "Usage: bunny [OPTIONS] [FILE]\n"

/-- The full usage. -/
def helpText : String :=
  String.join [
    "Bunny: a small Lisp compiled to bytecode\n\n",
    usage,
    "\nArguments:\n",
    "  [FILE]  File to execute\n",
    "\nOptions:\n",
    "  -e, --eval <EVAL>    Evaluate an expression\n",
    "      --disasm <EXPR>  Print the bytecode for an expression instead of running it\n",
    "      --no-prelude     Start without the prelude\n",
    "  -h, --help           Print help\n"]

/-- Where to find more. -/
def hint : String :=
  "\nFor more information, try '--help'.\n"

/-- The text of a refusal. -/
def message : Refusal → String
  | .help => helpText
  | .unexpected argument looksLikeOption =>
    "error: unexpected argument '" ++ argument ++ "' found\n\n"
      ++ (if looksLikeOption then
          "  tip: to pass '" ++ argument ++ "' as a value, use '-- " ++ argument ++ "'\n\n"
        else "")
      ++ usage ++ hint
  | .valueMissing option =>
    "error: a value is required for '" ++ option ++ "' but none was supplied\n" ++ hint
  | .repeated option =>
    "error: the argument '" ++ option ++ "' cannot be used multiple times\n\n" ++ usage ++ hint

end Refusal

namespace CommandLine

/-- An option that takes a value. -/
inductive Valued where
  | eval
  | disasm
deriving DecidableEq

/-- How an option is shown in messages. -/
def Valued.shown : Valued → String
  | .eval => "--eval <EVAL>"
  | .disasm => "--disasm <EXPR>"

/-- What a single argument is. -/
inductive Argument where
  | value (text : String)
  /-- What follows holds values only. -/
  | separator
  | noPrelude
  | help
  /-- An option that takes a value, which may be attached to it. -/
  | valued (option : Valued) (attached : Option String)
  | unknown (shown : String)

/-- Split a text at its first equals sign. -/
def splitEquals (text : List Char) : String × Option String :=
  let name := text.takeWhile (· ≠ '=')
  match text.dropWhile (· ≠ '=') with
  | [] => (String.ofList name, none)
  | _ :: attached => (String.ofList name, some (String.ofList attached))

/-- Read an argument after two dashes. -/
def classifyLong (text : List Char) : Argument :=
  match splitEquals text with
  | ("eval", attached) => .valued .eval attached
  | ("disasm", attached) => .valued .disasm attached
  | ("no-prelude", none) => .noPrelude
  | ("help", none) => .help
  | (name, _) => .unknown ("--" ++ name)

/-- Read an argument after one dash. -/
def classifyShort (letter : Char) (attached : List Char) : Argument :=
  if letter = 'e' then
    match attached with
    | [] => .valued .eval none
    | '=' :: value => .valued .eval (some (String.ofList value))
    | value => .valued .eval (some (String.ofList value))
  else if letter = 'h' then .help
  else .unknown (String.ofList ['-', letter])

/-- Read an argument on its own. -/
def classify (argument : String) : Argument :=
  match argument.toList with
  | ['-', '-'] => .separator
  | '-' :: '-' :: text => classifyLong text
  | '-' :: letter :: attached => classifyShort letter attached
  | _ => .value argument

/-- Take a file name. -/
def takeFile (options : Options) (name : String) : Except Refusal Options :=
  match options.file with
  | none => .ok { options with file := some name }
  | some _ => .error (.unexpected name false)

/-- Take the value of an option. -/
def takeValue (options : Options) (option : Valued) (text : String) : Except Refusal Options :=
  match option, options.eval, options.disasm with
  | .eval, none, _ => .ok { options with eval := some text }
  | .disasm, _, none => .ok { options with disasm := some text }
  | option, _, _ => .error (.repeated option.shown)

/-- An option still waits for its value. -/
def demandValue (waiting : Option Valued) : Except Refusal Unit :=
  match waiting with
  | some option => .error (.valueMissing option.shown)
  | none => .ok ()

/-- Read arguments one by one. -/
def parseFrom (options : Options) (waiting : Option Valued) (valuesOnly : Bool) :
    List String → Except Refusal Options
  | [] => do
    demandValue waiting
    return options
  | argument :: others =>
    if valuesOnly then do
      parseFrom (← takeFile options argument) waiting valuesOnly others
    else match classify argument with
      | .value text =>
        match waiting with
        | some option => do parseFrom (← takeValue options option text) none false others
        | none => do parseFrom (← takeFile options text) none false others
      | .separator => parseFrom options waiting true others
      | .unknown shown => .error (.unexpected shown true)
      | .help => .error .help
      | .noPrelude => do
        demandValue waiting
        if options.noPrelude then throw (.repeated "--no-prelude")
        parseFrom { options with noPrelude := true } none false others
      | .valued option attached => do
        demandValue waiting
        match attached with
        | some text => parseFrom (← takeValue options option text) none false others
        | none => parseFrom options (some option) false others

/-- Read the arguments of a run. -/
def parse (arguments : List String) : Except Refusal Options :=
  parseFrom {} none false arguments

/-- The effect of a run. -/
structure Transcript where
  /-- Text on standard output. -/
  out : String
  /-- Text on standard error. -/
  err : String
  /-- The exit status. -/
  status : Nat
deriving DecidableEq

/-- The effect of refused arguments. -/
def refuse : Refusal → Transcript
  | .help => { out := Refusal.help.message, err := "", status := 0 }
  | refusal => { out := "", err := refusal.message, status := 2 }

/-- What a run without an interactive session computes, and the heading of its errors. -/
def task? (fuel : Nat) (options : Options) : Option (Eval String × String) :=
  match options with
  | { disasm := some text, .. } => some (Interpreter.disassemble fuel text, "Error")
  | { eval := some text, .. } =>
    some (do
      let v ← Interpreter.evalText fuel text
      return if v.isNil then "" else v.print ++ "\n", "Error")
  | { file := some path, .. } =>
    some (do
      let _ ← Interpreter.evalFile fuel path
      return "", "Error in " ++ path)
  | _ => none

/-- The interpreter of a run. -/
def engine (fuel : Nat) (options : Options) (files : String → FileAnswer) :
    Except Stop Engine :=
  Interpreter.build fuel { prelude := !options.noPrelude } files

/-- The effect of a task. -/
def runTask (task : Eval String) (heading : String) (e : Engine) : Except String Transcript := do
  let reply ← task.report heading e
  return { out := reply.out, err := reply.err, status := if reply.state.1 then 0 else 1 }

/-- The effect of a run, given its arguments, its files, and its standard input as an editor divides
it into lines. -/
def runWith (editor : LineEditor) (fuel : Nat) (arguments : List String)
    (files : String → FileAnswer) (input : String) : Except String Transcript :=
  match parse arguments with
  | .error refusal => .ok (refuse refusal)
  | .ok options =>
    match engine fuel options files with
    | .error (.fault error) =>
      .ok { out := "", err := "Error loading prelude: " ++ error.message ++ "\n", status := 1 }
    | .error (.awaits path) => .error path
    | .error .outOfFuel =>
      .ok { out := "", err := "Error loading prelude: out of fuel\n", status := 1 }
    | .ok e =>
      match task? fuel options with
      | some (task, heading) => runTask task heading e
      | none => do
        let (out, err) ← ({ engine := e } : Repl).feedAll fuel Repl.banner "" (editor input)
        return { out := out ++ Repl.farewell, err, status := 0 }

/-- The effect of a run where standard input is no terminal. -/
def run (fuel : Nat) (arguments : List String) (files : String → FileAnswer) (input : String) :
    Except String Transcript :=
  runWith lines fuel arguments files input

end CommandLine

end StackLisp

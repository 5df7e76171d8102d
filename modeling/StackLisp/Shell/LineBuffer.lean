import StackLisp.Text.Balance
import StackLisp.Text.Whitespace

/-!
# Lines of an interactive session

Lines are collected until they are balanced, and then submitted together. Commands to the session
itself start with a comma; they are looked for only on the first line of an input.
-/

namespace StackLisp

/-- A line editor: the lines that it delivers of what is typed. Sessions work with any. -/
abbrev LineEditor := String → List String

/-- A command to the session. -/
inductive Command where
  | quit
  | help
  /-- Show the global bindings. -/
  | bindings
deriving DecidableEq

/-- The command that a line without its outer white space is. -/
def Command.ofLine? (line : String) : Option Command :=
  if line = ",quit" || line = ",exit" || line = ",q" then some .quit
  else if line = ",help" || line = ",h" then some .help
  else if line = ",env" then some .bindings
  else none

/-- What a line completes. -/
inductive Input where
  | nothing
  | command (c : Command)
  /-- A text to evaluate, without its outer white space and not empty. -/
  | submit (text : String)
deriving DecidableEq

/-- The lines of an input that is not complete yet. -/
structure LineBuffer where
  /-- The lines so far, joined; nothing at the start of an input. -/
  pending : Option String := none
deriving DecidableEq

namespace LineBuffer

/-- The input with one more line. -/
def extend (b : LineBuffer) (line : String) : String :=
  match b.pending with
  | some text => text ++ "\n" ++ line
  | none => line

/-- Add a line that is no command. -/
def add (b : LineBuffer) (line : String) : Input × LineBuffer :=
  let text := b.extend line
  if isBalanced text then
    let input := trim text
    (if input = "" then .nothing else .submit input, {})
  else (.nothing, { pending := some text })

/-- Take a line. -/
def feed (b : LineBuffer) (line : String) : Input × LineBuffer :=
  match b.pending, Command.ofLine? (trim line) with
  | none, some c => (.command c, b)
  -- inside an unfinished input, a comma is part of the text
  | _, _ => b.add line

end LineBuffer

end StackLisp

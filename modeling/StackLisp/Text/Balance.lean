/-!
# Balanced texts

The balance of a text counts its parentheses: those that open against those that close, outside
strings and comments. An interactive session uses it to tell whether more lines are needed. Only the
numbers count, not the order, so `)(` is balanced although its list is left open.
-/

namespace StackLisp

/-- What the characters of a text so far amount to. -/
structure Balance where
  /-- Opening less closing parentheses. -/
  depth : Int
  /-- A string is open. -/
  inString : Bool
  /-- A comment is open. -/
  inComment : Bool
deriving DecidableEq

namespace Balance

/-- The balance of the empty text. -/
def start : Balance :=
  { depth := 0, inString := false, inComment := false }

/-- Take one character into account. -/
def step (b : Balance) (c : Char) : Balance :=
  if b.inComment then { b with inComment := c ≠ '\n' }
  -- a quote ends a string as well as it starts one
  else if c = '"' then { b with inString := !b.inString }
  else if b.inString then b
  else if c = ';' then { b with inComment := true }
  else if c = '(' then { b with depth := b.depth + 1 }
  else if c = ')' then { b with depth := b.depth - 1 }
  else b

end Balance

/-- Outside strings and comments as many parentheses close as open, or more, and no string is left
open. -/
def isBalanced (text : String) : Bool :=
  let final := text.toList.foldl Balance.step Balance.start
  final.depth ≤ 0 && !final.inString

example : isBalanced ")(" = true := by decide

end StackLisp

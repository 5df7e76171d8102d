/-!
# Places in a text

Lines and columns count from one; a column is one character wide.
-/

namespace StackLisp

/-- A place in a source text. -/
structure Span where
  /-- The line, from one. -/
  line : Nat
  /-- The column within the line, from one. -/
  col : Nat
deriving DecidableEq, Inhabited

namespace Span

/-- The first character of a text. -/
def start : Span := { line := 1, col := 1 }

/-- The place after a character: a line feed starts a new line, any other character takes one
column. -/
def after (span : Span) (c : Char) : Span :=
  if c = '\n' then { line := span.line + 1, col := 1 } else { span with col := span.col + 1 }

/-- A place as `line:column`. -/
def render (span : Span) : String :=
  toString span.line ++ ":" ++ toString span.col

end Span

end StackLisp

import StackLisp.Error

/-!
# Tokens

A source text is a sequence of parentheses, quote marks, strings and atoms, with blanks and
comments between them. Strings have no escapes: they end at the next double quote. A comment runs
from a semicolon to the end of the line. `Token.scan` is one pass over the characters, a fold of
`Scan.step`.
-/

namespace StackLisp

/-- A lexical unit. -/
inductive Token where
  | leftParen
  | rightParen
  /-- The quote mark. -/
  | quote
  | string (text : String)
  /-- A longest run of characters that are no delimiters. -/
  | atom (text : String)
deriving DecidableEq

/-- A token and the place of its first character. -/
structure Located where
  /-- The token. -/
  token : Token
  /-- Where it starts. -/
  span : Span
deriving DecidableEq

/-- Space, tab, line feed and carriage return separate tokens. -/
def isBlank (c : Char) : Bool :=
  c = ' ' || c = '\t' || c = '\n' || c = '\r'

/-- The characters that end an atom. -/
def isDelimiter (c : Char) : Bool :=
  isBlank c || c = '(' || c = ')' || c = '"' || c = ';' || c = '\''

/-- What the characters read so far have left open. -/
inductive Pending where
  | nothing
  | comment
  /-- A string that started at a place, with its characters in reverse. -/
  | string (start : Span) (reversed : List Char)
  /-- An atom that started at a place, with its characters in reverse. -/
  | atom (start : Span) (reversed : List Char)
deriving DecidableEq

/-- The state between two characters of a scan. -/
structure Scan where
  /-- What is open. -/
  pending : Pending
  /-- The place of the next character. -/
  place : Span
  /-- The finished tokens, the last one first. -/
  found : List Located
deriving DecidableEq

namespace Scan

/-- Before the first character. -/
def start : Scan :=
  { pending := .nothing, place := .start, found := [] }

/-- Finish an atom, if one is open. -/
def closeAtom (s : Scan) : Scan :=
  match s.pending with
  | .atom start reversed =>
    { s with
      pending := .nothing
      found := ⟨.atom (String.ofList reversed.reverse), start⟩ :: s.found }
  | _ => s

/-- Take a character when nothing is open. -/
def fresh (s : Scan) (c : Char) : Scan :=
  let place := s.place.after c
  if isBlank c then { s with place }
  else if c = ';' then { s with place, pending := .comment }
  else if c = '(' then { s with place, found := ⟨.leftParen, s.place⟩ :: s.found }
  else if c = ')' then { s with place, found := ⟨.rightParen, s.place⟩ :: s.found }
  else if c = '\'' then { s with place, found := ⟨.quote, s.place⟩ :: s.found }
  else if c = '"' then { s with place, pending := .string s.place [] }
  else { s with place, pending := .atom s.place [c] }

/-- Take one character. -/
def step (s : Scan) (c : Char) : Scan :=
  match s.pending with
  | .nothing => s.fresh c
  | .comment =>
    { s with place := s.place.after c, pending := if c = '\n' then .nothing else .comment }
  | .string start reversed =>
    if c = '"' then
      { pending := .nothing
        place := s.place.after c
        found := ⟨.string (String.ofList reversed.reverse), start⟩ :: s.found }
    else
      { s with place := s.place.after c, pending := .string start (c :: reversed) }
  | .atom start reversed =>
    -- the delimiter may itself be a token, so it is taken anew
    if isDelimiter c then s.closeAtom.fresh c
    else { s with place := s.place.after c, pending := .atom start (c :: reversed) }

/-- The tokens at the end of the text. Only a string can be left open by then. -/
def finish (s : Scan) : Except Error (List Located) :=
  match s.pending with
  | .string _ _ => .error (.unfinished .string)
  | _ => .ok s.closeAtom.found.reverse

end Scan

/-- The tokens of a text, in order. -/
def Token.scan (text : String) : Except Error (List Located) :=
  (text.toList.foldl Scan.step Scan.start).finish

end StackLisp

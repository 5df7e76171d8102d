import StackLisp.Shell.LineBuffer
import StackLisp.Text.Grapheme

/-!
# Typed lines

A line editor for texts that come from no terminal. It delivers the lines of a text without their
ends and with backspaces carried out. A backspace takes back a whole grapheme cluster, a letter
together with its marks. It goes by the size of the cluster in bytes, of which only the last eight
bits are remembered, so that of a cluster of more than 255 bytes something stays.
-/

namespace StackLisp

/-- What was typed on a line so far. -/
structure TypedLine where
  /-- The characters, the last one first. -/
  reversed : List Char := []
  /-- The size of each cluster that was not taken back, the last one first. -/
  sizes : List UInt8 := []

namespace TypedLine

/-- Drop characters from the end, in all at least the given number of bytes. -/
def dropBytes : (bytes : Nat) → (reversed : List Char) → List Char
  | 0, reversed => reversed
  | _ + 1, [] => []
  | bytes + 1, c :: reversed => dropBytes (bytes + 1 - c.utf8Size) reversed
termination_by _ reversed => reversed.length

/-- The size of a cluster in bytes, as far as it is remembered. -/
def size (cluster : List Char) : UInt8 :=
  (String.ofList cluster).utf8ByteSize.toUInt8

/-- The character that takes back what was typed last. -/
def backspace : Char := '\x08'

/-- Type a cluster, or take one back. At the start of the line there is nothing to take back. -/
def press (t : TypedLine) (cluster : List Char) : TypedLine :=
  if cluster = [backspace] then
    match t.sizes with
    | [] => t
    | last :: sizes => { reversed := dropBytes last.toNat t.reversed, sizes }
  else
    { reversed := cluster.reverseAux t.reversed, sizes := size cluster :: t.sizes }

/-- The text of the line. -/
def text (t : TypedLine) : String :=
  String.ofList t.reversed.reverse

end TypedLine

/-- A line as it stands after its backspaces. -/
def applyBackspaces (line : String) : String :=
  -- most lines have none, and need no division into clusters
  if line.toList.contains TypedLine.backspace then
    ((Grapheme.clusters line.toList).foldl TypedLine.press {}).text
  else line

/-- The lines typed in a text, after their backspaces. A line ends with a line feed, which a
carriage return may precede; the last one may lack it. -/
def lines : LineEditor := fun text =>
  -- the last piece is no ended line: it keeps its carriage return and counts only if not empty
  let pieces := (text.splitOn "\n").reverse
  match pieces with
  | [] => []
  | last :: ended =>
    let ended := ended.map fun line =>
      if line.toList.getLast? = some '\r' then String.ofList line.toList.dropLast else line
    ((if last = "" then [] else [last]) ++ ended).reverse.map applyBackspaces

end StackLisp

import StackLisp.Code.Cursor
import StackLisp.Value.Printer

/-!
# Listings

A listing shows a closure's name and arity, its peak stack depth, one line per instruction, and
after a blank line the listing of each closure among its constants.
-/

namespace StackLisp.Listing

/-- A number with at least four digits. -/
def offset (n : Nat) : String :=
  let text := toString n
  "".pushn '0' (4 - text.length) ++ text

/-- A text filled with spaces to a width. -/
def column (width : Nat) (text : String) : String :=
  text.pushn ' ' (width - text.length)

/-- The text of the constant that an instruction refers to. -/
def constant (c : Closure) (index : UInt16) : String :=
  match c.constants[index.toNat]? with
  | some v => v.print
  | none => "<out of range>"

/-- One line of a listing. -/
def line (c : Closure) (position : Nat) (i : Instruction) : String :=
  let opcode := i.opcode.name
  let wide := offset position ++ "  " ++ column 12 opcode
  match i with
  | .const index =>
    wide ++ " " ++ column 5 (toString index.toNat) ++ " ; " ++ constant c index ++ "\n"
  | .jump target | .jumpIfNot target => wide ++ " -> " ++ offset target.toNat ++ "\n"
  | i =>
    match i.operand? with
    | some n => wide ++ " " ++ toString n.toNat ++ "\n"
    | none => offset position ++ "  " ++ opcode ++ "\n"

/-- The lines from a position on, after those already written. -/
def lines (c : Closure) (position : Nat) (out : String) : Except Error String :=
  if position < c.code.size then
    match c.code.decode position with
    | .error e => .error e
    | .ok i =>
      have := i.width_pos
      lines c (position + i.width) (out ++ line c position i)
  else .ok out
termination_by c.code.size - position

/-- The title line of a closure. -/
def title (c : Closure) : String :=
  "== " ++ c.name ++ " (" ++ toString c.positional ++ " args"
    ++ (if c.variadic then " & rest" else "") ++ ") ==\n"

/-- A closure's own part of its listing. -/
def own (c : Closure) : Except Error String := do
  let start ← c.code.seek 1
  lines c start (title c ++ "max stack: " ++ toString c.code.maxStack ++ "\n")

/-- A closure among the constants of another is smaller than it. -/
theorem sizeOf_lt_of_mem_constants {c inner : Closure} (h : Value.closure inner ∈ c.constants) :
    sizeOf inner < sizeOf c := by
  have := Array.sizeOf_lt_of_mem h
  cases c
  simp_all
  omega

/-- The listing of a closure and of the closures it holds. -/
def render (c : Closure) : Except Error String := do
  c.constants.attach.toList.foldlM (fun out ⟨v, _⟩ =>
    match v with
    | .closure inner => do return out ++ "\n" ++ (← render inner)
    | _ => pure out) (← own c)
termination_by sizeOf c
decreasing_by exact sizeOf_lt_of_mem_constants (by assumption)

end StackLisp.Listing

import StackLisp.Code.Instruction
import StackLisp.Error

/-!
# Decoding

Instructions are read from finished code at a position. Positions that hold instructions run from
one to the length of the code.

* `Code.decode` reads any instruction, `Code.fetch` only those that can be executed.
* A `Cursor` moves through the code. Only a failure to decode leaves it in place: it also passes an
  instruction that may not be executed.
-/

namespace StackLisp

namespace Code

/-- The peak stack depth that the code announces. -/
def maxStack (code : Code) : Nat :=
  match code[0]? with
  | some word => word.toNat
  | none => 0

/-- The instruction at a position. -/
def decode (code : Code) (position : Nat) : Except Error Instruction :=
  match code[position]? with
  | none => .error (.undecodable (.pastEnd position))
  | some word =>
    match Opcode.ofWord? word with
    | none => .error (.undecodable (.unknownOpcode word position))
    | some op =>
      if op.operands = 0 then .ok (.ofParts op 0)
      else match code[position + 1]? with
        | some operand => .ok (.ofParts op operand)
        | none => .error (.undecodable (.truncated op.name position))

/-- A decoded instruction, if it may be executed. -/
def executable (i : Instruction) (position : Nat) : Except Error Instruction :=
  if i.isReserved then .error (.inconsistent (.reservedOpcode i.opcode.name position)) else .ok i

/-- The executable instruction at a position. -/
def fetch (code : Code) (position : Nat) : Except Error Instruction :=
  match decode code position with
  | .ok i => executable i position
  | .error e => .error e

/-- Check that a position lies among the instructions. -/
def seek (code : Code) (position : Nat) : Except Error Nat :=
  if position < 1 || code.size ≤ position then
    .error (.undecodable (.seek position code.size))
  else .ok position

end Code

/-- A position in some code. -/
structure Cursor where
  /-- The code. -/
  code : Code
  /-- Where the next instruction is read. -/
  position : Nat

namespace Cursor

/-- A cursor at a position among the instructions. -/
def at? (code : Code) (position : Nat) : Except Error Cursor :=
  (code.seek position).map fun position => { code, position }

/-- No word is left. -/
def atEnd (c : Cursor) : Bool :=
  c.code.size ≤ c.position

/-- Move to another position; a failure leaves the cursor in place. -/
def seek (c : Cursor) (position : Nat) : Except Error Unit × Cursor :=
  match c.code.seek position with
  | .ok position => (.ok (), { c with position })
  | .error e => (.error e, c)

/-- Read any instruction and pass it. -/
def nextRaw (c : Cursor) : Except Error Instruction × Cursor :=
  match c.code.decode c.position with
  | .ok i => (.ok i, { c with position := c.position + i.width })
  | .error e => (.error e, c)

/-- Read an instruction, pass it, and refuse it if it may not be executed. -/
def next (c : Cursor) : Except Error Instruction × Cursor :=
  match c.nextRaw with
  | (.ok i, after) => (Code.executable i c.position, after)
  | (.error e, after) => (.error e, after)

end Cursor

end StackLisp

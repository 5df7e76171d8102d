import StackLisp.Compiler.Shape
import Std.Data.HashMap

/-!
# Code under construction

While a function is compiled, its instructions, constants and labels are collected. A constant that
is identical to one already there is shared with it; equal but distinct objects are not.
-/

namespace StackLisp

/-- The parts of a function that is being compiled. -/
structure Builder where
  /-- The instructions so far. -/
  program : Array Instruction := #[]
  /-- The constants so far. -/
  constants : Array Value := #[]
  /-- The first place of each constant. -/
  places : Std.HashMap Identity Nat := {}
  /-- The number of the next label. -/
  nextLabel : Nat := 0

namespace Builder

/-- Add a constant without looking for it. -/
def push (b : Builder) (v : Value) : Builder :=
  let place := b.constants.size
  { b with
    constants := b.constants.push v
    -- a parameter that repeats is found at its first place
    places := b.places.insertIfNew v.identity place }

/-- Start a function: its parameters are the first constants, each at its own place. -/
def ofParameters (parameters : List Symbol) : Builder :=
  parameters.foldl (fun b s => b.push (.symbol s)) {}

/-- Add an instruction. -/
def emit (b : Builder) (i : Instruction) : Builder :=
  { b with program := b.program.push i }

/-- The place of a constant, which is added if it is new. -/
def place (b : Builder) (v : Value) : Nat × Builder :=
  match b.places[v.identity]? with
  | some i => (i, b)
  | none => (b.constants.size, b.push v)

/-- Add an instruction that pushes the constant at a place. -/
def pushAt (b : Builder) (place : Nat) : Except Error Builder :=
  if 65535 < place then .error (.exhausted .constants) else .ok (b.emit (.const place.toUInt16))

/-- Add an instruction that pushes a constant. -/
def constant (b : Builder) (v : Value) : Except Error Builder :=
  let (i, b) := b.place v
  b.pushAt i

/-- Add an instruction that pushes a function compiled just now. It is a new object, identical to
no constant there is or will be, so it takes a place of its own. -/
def template (b : Builder) (c : Closure) : Except Error Builder :=
  let place := b.constants.size
  { b with constants := b.constants.push (.closure c) }.pushAt place

/-- Take a new label. -/
def label (b : Builder) : Except Error (UInt16 × Builder) :=
  if 65535 ≤ b.nextLabel then .error (.exhausted .labels)
  else .ok (b.nextLabel.toUInt16, { b with nextLabel := b.nextLabel + 1 })

end Builder

end StackLisp

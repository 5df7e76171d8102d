/-!
# Instructions

The stack machine has fourteen opcodes, numbered from zero. An instruction is an opcode word,
followed by one operand word for those that take one. Labels exist only before assembly.
-/

namespace StackLisp

/-- Finished code: the peak stack depth, then the instructions, in 16-bit words. -/
abbrev Code := Array UInt16

/-- What an instruction does. -/
inductive Opcode where
  | nop | dup | pop | ret | call | label | jump | jumpIfNot | const
  | define | load | store | closure | halt
deriving DecidableEq, Inhabited

namespace Opcode

/-- All opcodes, each at the place of its number. -/
def all : Array Opcode :=
  #[.nop, .dup, .pop, .ret, .call, .label, .jump, .jumpIfNot, .const, .define, .load, .store,
    .closure, .halt]

/-- The number of an opcode. -/
def word : Opcode → UInt16
  | .nop => 0
  | .dup => 1
  | .pop => 2
  | .ret => 3
  | .call => 4
  | .label => 5
  | .jump => 6
  | .jumpIfNot => 7
  | .const => 8
  | .define => 9
  | .load => 10
  | .store => 11
  | .closure => 12
  | .halt => 13

/-- The opcode of a number. -/
def ofWord? (word : UInt16) : Option Opcode :=
  all[word.toNat]?

/-- How many operand words follow the opcode. -/
def operands : Opcode → Nat
  | .call | .label | .jump | .jumpIfNot | .const => 1
  | _ => 0

/-- The static effect on the depth of the stack, as the assembler counts it. -/
def effect : Opcode → Int
  | .dup | .const => 1
  | .pop | .ret | .jumpIfNot => -1
  | _ => 0

/-- The name of an opcode in listings. -/
def name : Opcode → String
  | .nop => "NOP"
  | .dup => "DUP"
  | .pop => "POP"
  | .ret => "RET"
  | .call => "CALL"
  | .label => "LABEL"
  | .jump => "JUMP"
  | .jumpIfNot => "JUMP_IF_NOT"
  | .const => "CONST"
  | .define => "DEF"
  | .load => "LOAD"
  | .store => "STORE"
  | .closure => "CLOSURE"
  | .halt => "HALT"

/-- Every opcode is found under its number. -/
theorem ofWord?_word (op : Opcode) : ofWord? op.word = some op := by
  cases op <;> rfl

end Opcode

/-- An instruction with its operand. -/
inductive Instruction where
  | nop
  | dup
  /-- Drop the top of the stack. -/
  | pop
  /-- Return the top of the stack to the caller. -/
  | ret
  /-- Call the function below the given number of arguments. -/
  | call (argc : UInt16)
  /-- Name a place in the code; takes no words. -/
  | label (id : UInt16)
  /-- Go to a label before assembly, to an offset after it. -/
  | jump (target : UInt16)
  /-- Drop the top of the stack and jump if it fails a test. -/
  | jumpIfNot (target : UInt16)
  /-- Push a constant. -/
  | const (index : UInt16)
  /-- Bind a symbol globally. -/
  | define
  /-- Replace a symbol by what it is bound to. -/
  | load
  /-- Overwrite the nearest binding of a symbol. -/
  | store
  /-- Bind a function to the environment of the running call. -/
  | closure
  | halt
deriving DecidableEq, Inhabited

namespace Instruction

/-- The opcode of an instruction. -/
def opcode : Instruction → Opcode
  | .nop => .nop
  | .dup => .dup
  | .pop => .pop
  | .ret => .ret
  | .call _ => .call
  | .label _ => .label
  | .jump _ => .jump
  | .jumpIfNot _ => .jumpIfNot
  | .const _ => .const
  | .define => .define
  | .load => .load
  | .store => .store
  | .closure => .closure
  | .halt => .halt

/-- The operand of an instruction that has one. -/
def operand? : Instruction → Option UInt16
  | .call n | .label n | .jump n | .jumpIfNot n | .const n => some n
  | _ => none

/-- The instruction of an opcode, with an operand for those that take one. -/
def ofParts (op : Opcode) (operand : UInt16) : Instruction :=
  match op with
  | .nop => .nop
  | .dup => .dup
  | .pop => .pop
  | .ret => .ret
  | .call => .call operand
  | .label => .label operand
  | .jump => .jump operand
  | .jumpIfNot => .jumpIfNot operand
  | .const => .const operand
  | .define => .define
  | .load => .load
  | .store => .store
  | .closure => .closure
  | .halt => .halt

/-- An instruction is its opcode and its operand. -/
theorem ofParts_opcode (i : Instruction) : ofParts i.opcode (i.operand?.getD 0) = i := by
  cases i <;> rfl

/-- Putting an instruction together keeps its opcode. -/
theorem opcode_ofParts (op : Opcode) (operand : UInt16) : (ofParts op operand).opcode = op := by
  cases op <;> rfl

/-- The words of an instruction in finished code. -/
def width (i : Instruction) : Nat :=
  1 + i.opcode.operands

/-- The words that the assembler writes for an instruction: none for a label. -/
def size : Instruction → Nat
  | .label _ => 0
  | i => i.width

/-- Opcodes that finished code never executes. -/
def isReserved : Instruction → Bool
  | .nop | .dup | .label _ | .halt => true
  | _ => false

/-- Every instruction takes at least one word. -/
theorem width_pos (i : Instruction) : 0 < i.width := by
  unfold width
  omega

end Instruction

end StackLisp

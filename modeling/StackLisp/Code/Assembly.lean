import StackLisp.Code.Instruction
import StackLisp.Error
import Std.Data.HashMap

/-!
# Assembly

Instructions are laid out from offset one; word zero holds the peak of the running sum of their
static stack effects. Labels take no words and give a jump its target: the offset of the last
label with the jump's number. Code that does not fit 16-bit offsets is refused.
-/

namespace StackLisp.Assembly

/-- The length of the finished code, word zero included. -/
def length (program : List Instruction) : Nat :=
  program.foldl (fun n i => n + i.size) 1

/-- Every instruction adds its own words, whatever stands before it. -/
theorem length_append_singleton (program : List Instruction) (i : Instruction) :
    length (program ++ [i]) = length program + i.size := by
  simp [length]

/-- The running sum of stack effects and its highest value so far. -/
structure Depth where
  /-- The depth after the last instruction. -/
  current : Int := 0
  /-- The greatest depth reached, at least zero. -/
  peak : Int := 0

/-- Count one more instruction. -/
def Depth.step (d : Depth) (i : Instruction) : Depth :=
  let current := d.current + i.opcode.effect
  { current, peak := max d.peak current }

/-- The highest value of the running sum of stack effects. -/
def peakDepth (program : List Instruction) : Nat :=
  (program.foldl Depth.step {}).peak.toNat

/-- The offset reached while laying out a program, and the labels passed so far. -/
structure Layout where
  /-- The offset of the next instruction. -/
  offset : Nat := 1
  /-- The offset of the last label of each number. -/
  labels : Std.HashMap UInt16 Nat := {}

/-- Lay out one more instruction. -/
def Layout.step (l : Layout) (i : Instruction) : Layout :=
  match i with
  | .label id => { l with labels := l.labels.insert id l.offset }
  | i => { l with offset := l.offset + i.size }

/-- Where each label of a program stands. -/
def labels (program : List Instruction) : Std.HashMap UInt16 Nat :=
  (program.foldl Layout.step {}).labels

/-- The offset that a label number stands for. -/
def resolve (labels : Std.HashMap UInt16 Nat) (id : UInt16) : Except Error UInt16 :=
  match labels[id]? with
  | some offset => .ok offset.toUInt16
  | none => .error (.inconsistent (.undefinedLabel id))

/-- Write one instruction after the words so far. -/
def emit (labels : Std.HashMap UInt16 Nat) (words : Code) (i : Instruction) :
    Except Error Code :=
  match i with
  | .label _ => .ok words
  | .jump id => do return (words.push i.opcode.word).push (← resolve labels id)
  | .jumpIfNot id => do return (words.push i.opcode.word).push (← resolve labels id)
  | i =>
    let words := words.push i.opcode.word
    .ok (match i.operand? with
      | some operand => words.push operand
      | none => words)

/-- The finished code of a program. -/
def assemble (program : List Instruction) : Except Error Code :=
  if 65535 < length program then
    .error (.exhausted (.codeLength (length program)))
  else if 65535 < peakDepth program then
    .error (.exhausted (.stackDepth (peakDepth program)))
  else
    program.foldlM (emit (labels program)) #[(peakDepth program).toUInt16]

end StackLisp.Assembly

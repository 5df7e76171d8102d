/-!
# Numbers

A number of the language is a binary64 number with all its bits. The ones that are not a number
differ by sign and payload, which `Float` does not tell apart but `identical` does.
-/

namespace StackLisp

/-- A binary64 number, by its bits. -/
@[ext]
structure Number where
  bits : UInt64
deriving DecidableEq, Inhabited

namespace Number

/-- The number to compute and compare with. -/
def toFloat (n : Number) : Float :=
  .ofBits n.bits

/-- The number with the bits of a float. -/
def ofFloat (x : Float) : Number where
  bits := x.toBits

instance : Coe Number Float := ⟨toFloat⟩

instance : Coe Float Number := ⟨ofFloat⟩

/-- Neither a number nor an infinity. -/
def isNaN (n : Number) : Bool :=
  n.toFloat.isNaN

/-- What an operation without a result gives. -/
def invalid : Number where
  bits := 0xfff8000000000000

/-- A payload marked as one that has passed through an operation. -/
def quiet (n : Number) : Number where
  bits := n.bits ||| 0x8000000000000

/-- The result of an operation on two numbers. The first operand that is not a number is handed on.
Which one, and the bits of `invalid`, are up to the hardware; this is what x86-64 does. -/
def combine (operation : Float → Float → Float) (a b : Number) : Number :=
  if a.isNaN then a.quiet
  else if b.isNaN then b.quiet
  else
    let result := operation a b
    if result.isNaN then invalid else result

instance : Add Number := ⟨combine (· + ·)⟩

instance : Sub Number := ⟨combine (· - ·)⟩

instance : Mul Number := ⟨combine (· * ·)⟩

instance : Div Number := ⟨combine (· / ·)⟩

/-- The number with the other sign, whether it is a number or not. -/
instance : Neg Number where
  neg n := ⟨n.bits ^^^ 0x8000000000000000⟩

end Number

end StackLisp

import StackLisp.Decimal.Shortest
import StackLisp.Text.Span

/-!
# Errors

Everything that can go wrong, as causes. The wording of each cause is given once, by
`Error.message` and the functions it uses. An error is internal when it says that the machine was
driven with code that the compiler never makes.
-/

namespace StackLisp

/-- What is wrong with a text or form that is complete. -/
inductive Malformed where
  /-- A closing parenthesis with no list open. -/
  | strayClose (place : Span)
  /-- An atom that starts with the reserved character `#`. -/
  | reservedAtom (atom : String) (place : Span)
  /-- A special form lacks one of its parts. -/
  | lacks (form part : String)
  /-- Something else stands where a function literal was wanted. -/
  | notFunction (found : String)
  /-- The rest marker is the last parameter. -/
  | restUnnamed
  /-- More than one parameter follows the rest marker. -/
  | restFollowed
  | other (text : String)
deriving DecidableEq

/-- The wording of a malformed text or form. -/
def Malformed.message : Malformed → String
  | .strayClose place => "unexpected ')' at " ++ place.render
  | .reservedAtom atom place => "invalid syntax '" ++ atom ++ "' at " ++ place.render
  | .lacks form part => form ++ " requires " ++ part
  | .notFunction found => "expected fn, found " ++ found
  | .restUnnamed => "& must be followed by a rest parameter"
  | .restFollowed => "only one parameter may follow &"
  | .other text => text

/-- What a text ended in the middle of. -/
inductive Unfinished where
  | string
  | list
  | quote
  /-- The text holds no form at all. -/
  | form
  | other (text : String)
deriving DecidableEq

/-- The wording of what was unfinished. -/
def Unfinished.message : Unfinished → String
  | .string => "string"
  | .list => "list"
  | .quote => "quote"
  | .form => "form"
  | .other text => text

/-- Why words cannot be read as instructions. -/
inductive Undecodable where
  /-- A position outside the instructions of the code. -/
  | seek (position length : Nat)
  | pastEnd (position : Nat)
  | unknownOpcode (word : UInt16) (position : Nat)
  /-- An instruction whose operand is missing. -/
  | truncated (opcode : String) (position : Nat)
  | other (text : String)
deriving DecidableEq

/-- The wording of a decoding failure. -/
def Undecodable.message : Undecodable → String
  | .seek position length =>
    "seek to " ++ toString position ++ " outside code of length " ++ toString length
  | .pastEnd position => "read past end of code at " ++ toString position
  | .unknownOpcode word position =>
    "unknown opcode " ++ toString word.toNat ++ " at " ++ toString position
  | .truncated opcode position => "truncated " ++ opcode ++ " at " ++ toString position
  | .other text => text

/-- The side on which a number of arguments is wrong. -/
inductive Mismatch where
  | few
  | many
deriving DecidableEq

/-- The word for a side. -/
def Mismatch.message : Mismatch → String
  | .few => "few"
  | .many => "many"

/-- A limit that was reached. -/
inductive Limit where
  /-- Forms nest deeper than the reader or the compiler allows. -/
  | nesting (depth : Nat)
  /-- A function has more words than a jump can address. -/
  | codeLength (words : Nat)
  /-- A function needs more operands at once than its first word can say. -/
  | stackDepth (depth : Nat)
  | labels
  | constants
  | callArguments
  | stack (needed limit : Nat)
  /-- Calls from outside the machine nest too deeply. -/
  | applyDepth (limit : Nat)
  | other (text : String)
deriving DecidableEq

/-- The wording of a limit. -/
def Limit.message : Limit → String
  | .nesting depth => "forms nested more than " ++ toString depth ++ " deep"
  | .codeLength words =>
    "function body of " ++ toString words ++ " words does not fit 16-bit jump targets"
  | .stackDepth depth => "stack depth " ++ toString depth ++ " too large"
  | .labels => "too many labels in one function"
  | .constants => "constant pool full"
  | .callArguments => "too many call arguments"
  | .stack needed limit =>
    "stack of " ++ toString needed ++ " slots exceeds limit of " ++ toString limit
  | .applyDepth limit => "apply nested more than " ++ toString limit ++ " deep"
  | .other text => text

/-- The machine was asked for something that compiled code never asks for. -/
inductive Inconsistency where
  | undefinedLabel (id : UInt16)
  /-- An opcode that is never executed. -/
  | reservedOpcode (opcode : String) (position : Nat)
  | stackRead (index size : Nat)
  | stackWrite (index size : Nat)
  /-- A slot holds another kind of content. -/
  | slotKind (expected : String) (index : Nat) (found : String)
  | notClosure (index : Nat) (found : String)
  | notSymbol (found : String)
  | underflow
  | noFrame
  | captureOutsideFrame
  | constantRange (index : Nat) (function : String)
  | parameterConstant (index : Nat) (function : String)
  | other (text : String)
deriving DecidableEq

/-- The wording of an inconsistency. -/
def Inconsistency.message : Inconsistency → String
  | .undefinedLabel id => "undefined label " ++ toString id.toNat
  | .reservedOpcode opcode position => "unexpected " ++ opcode ++ " at " ++ toString position
  | .stackRead index size =>
    "stack read at " ++ toString index ++ " beyond " ++ toString size
  | .stackWrite index size =>
    "stack write at " ++ toString index ++ " beyond " ++ toString size
  | .slotKind expected index found =>
    "expected " ++ expected ++ " at stack slot " ++ toString index ++ ", found " ++ found
  | .notClosure index found =>
    "expected closure at " ++ toString index ++ ", found " ++ found
  | .notSymbol found => "expected symbol operand, found " ++ found
  | .underflow => "stack underflow"
  | .noFrame => "no active frame"
  | .captureOutsideFrame => "closure created outside any frame"
  | .constantRange index function =>
    "constant " ++ toString index ++ " out of range in " ++ function
  | .parameterConstant index function =>
    "argument constant " ++ toString index ++ " of " ++ function ++ " is not a symbol"
  | .other text => text

/-- An error of the language or of the machine. -/
inductive Error where
  | malformed (cause : Malformed)
  | unfinished (what : Unfinished)
  | undecodable (cause : Undecodable)
  | arity (function : String) (side : Mismatch)
  /-- A value of the wrong type, shown in short when it is known. -/
  | type (expected got : String) (shown : Option String)
  | unbound (name : String)
  | index (position : Float) (length : Nat)
  | value (text : String)
  | file (text : String)
  | exhausted (limit : Limit)
  | inconsistent (cause : Inconsistency)

namespace Error

/-- Indexes are shown with the sign of zero and the short words for the special numbers. -/
def indexStyle : Decimal.Style :=
  { infinity := "inf", notANumber := "NaN", signedZero := true }

/-- The text that a user sees. -/
def message : Error → String
  | .malformed cause => "Syntax error: " ++ cause.message
  | .unfinished what => "Unexpected end of input while reading " ++ what.message
  | .undecodable cause => "Decode error: " ++ cause.message
  | .arity function side =>
    "Argument error: too " ++ side.message ++ " arguments to " ++ function
  | .type expected got shown =>
    let suffix := match shown with
      | some text => " (" ++ text ++ ")"
      | none => ""
    "Type error: expected " ++ expected ++ ", got " ++ got ++ suffix
  | .unbound name => "Name not found in environment: " ++ name
  | .index position length =>
    "Index error: index " ++ indexStyle.render position ++ " out of range for length "
      ++ toString length
  | .value text => "Value error: " ++ text
  | .file text => "IO error: " ++ text
  | .exhausted limit => "Resource exhausted: " ++ limit.message
  | .inconsistent cause => "Invalid state: " ++ cause.message

/-- The error shows a broken machine and not a faulty program. -/
def isInternal : Error → Bool
  | .inconsistent _ => true
  | _ => false

end Error

end StackLisp

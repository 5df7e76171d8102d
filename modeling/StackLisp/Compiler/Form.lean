import StackLisp.Code.Assembly
import StackLisp.Compiler.Builder

/-!
# Compiling forms

Each form is expanded, then compiled to code that leaves its value on the stack: constants push
themselves, symbols load what they are bound to, calls evaluate the function and its arguments from
left to right. Forms nest at most as deep as the engine allows, also across function literals.

* `Compiler.expand` applies macros at the head of a form until it stays the same.
* `Compiler.compileFunction` and `Compiler.compileThunk` give unbound closures.
-/

namespace StackLisp

namespace Compiler

/-- A computation that adds to a function under construction. -/
abbrev Build := StateT Builder Eval

/-- Add an instruction. -/
def emit (i : Instruction) : Build Unit :=
  modify (·.emit i)

/-- Add an instruction that pushes a constant. -/
def constant (v : Value) : Build Unit := fun b => do
  return ((), ← Eval.ofExcept (b.constant v))

/-- Add an instruction that pushes a function compiled just now. -/
def template (c : Closure) : Build Unit := fun b => do
  return ((), ← Eval.ofExcept (b.template c))

/-- Take a new label. -/
def label : Build UInt16 := fun b =>
  Eval.ofExcept b.label

/-- The macro that a form calls, with the forms it is called on. -/
def macroCall? (k : Keywords) (e : Engine) (form : Value) : Option (Closure × List Value) :=
  match form with
  | .list _ (.symbol head) args =>
    if k.isSpecial head then none
    else match e.global? head with
      | some (.closure c) => if e.isMacro c then some (c, args) else none
      | _ => none
  | _ => none

/-- Apply the macro that a form calls, if it calls one. -/
def expandOnce (ev : Evaluator) (k : Keywords) (form : Value) : Eval Value := do
  match macroCall? k (← get) form with
  | some (c, args) => ev.apply c args
  | none => return form

/-- Expand a form until it stays the same, at most `fuel` times. -/
def expandWithin (ev : Evaluator) (k : Keywords) : (fuel : Nat) → Value → Eval Value
  | 0, _ => throw .outOfFuel
  | fuel + 1, form => do
    let expanded ← expandOnce ev k form
    -- a macro that gives back the very form it was called with ends the expansion
    if expanded.identical form then return expanded
    else expandWithin ev k fuel expanded

/-- Compile forms in order; the value of the last one stays. -/
def compileBody (compile : Value → Build Unit) : List Value → Build Unit
  | [] => constant .nil
  | [last] => compile last
  | form :: others => do
    compile form
    emit .pop
    compileBody compile others

/-- Compile a function literal, given how its forms are compiled. -/
def compileLiteral (compile : Value → Build Unit) (literal : FunctionLiteral) : Eval Closure := do
  let build : Build Unit := do
    compileBody compile literal.body
    emit .ret
  let ((), b) ← build.run (.ofParameters literal.parameters.symbols)
  let code ← Eval.ofExcept (Assembly.assemble b.program.toList)
  let ref ← Eval.onStore (·.fresh)
  return {
    ref
    name := match literal.name with
      | some symbol => symbol.name
      | none => "anonymous"
    code
    positional := literal.parameters.positional
    variadic := literal.parameters.variadic
    constants := b.constants
    env := none }

/-- Compile a conditional. -/
def compileConditional (compile : Value → Build Unit) (test consequent alternative : Value) :
    Build Unit := do
  -- both labels are taken before the parts are compiled, so nested ones number from there
  let otherwise ← label
  let done ← label
  compile test
  emit (.jumpIfNot otherwise)
  compile consequent
  emit (.jump done)
  emit (.label otherwise)
  compile alternative
  emit (.label done)

/-- Compile a call. -/
def compileCall (compile : Value → Build Unit) (items : List Value) (argc : Nat) : Build Unit := do
  items.forM compile
  -- counted last, so that an error inside an argument comes first
  if 65535 < argc then Eval.fail (α := Unit) (.exhausted .callArguments)
  emit (.call argc.toUInt16)

/-- Compile a list by its shape, given how its parts are compiled. -/
def compileShape (compile : Value → Build Unit) : Shape → Build Unit
  | .function literal => do
    template (← compileLiteral compile literal)
    emit .closure
  | .quotation value => constant value
  | .conditional test consequent alternative =>
    compileConditional compile test consequent alternative
  | .assignment way target value => do
    constant (.symbol target)
    compile value
    emit way.instruction
  | .call callee args => compileCall compile (callee :: args) args.length

/-- Compile a form inside which forms may nest `room` deep, itself included. -/
def compileForm (ev : Evaluator) (k : Keywords) (limit : Nat) : (room : Nat) → Value → Build Unit
  | 0, _ => Eval.fail (α := Unit) (.exhausted (.nesting limit))
  | room + 1, v => do
    let expanded ← expandWithin ev k ev.fuel v
    match expanded with
    | .list _ head others =>
      let parts ← Eval.ofExcept (Shape.ofItems k head others)
      compileShape (fun part => compileForm ev k limit room part) parts
    | .symbol s => do
      constant (.symbol s)
      emit .load
    | other => constant other

/-- Compile a function literal at the top level. -/
def compileTop (ev : Evaluator) (k : Keywords) (literal : FunctionLiteral) : Eval Closure := do
  let limit := (← get).limits.maxCompileDepth
  compileLiteral (compileForm ev k limit limit) literal

/-- Compile a form that must be a function literal. -/
def compileFunction (ev : Evaluator) (v : Value) : Eval Closure := do
  let k ← Eval.onStore Keywords.intern
  let literal ← Eval.ofExcept (FunctionLiteral.ofForm k v)
  compileTop ev k literal

/-- Compile a form as the body of a function without parameters. -/
def compileThunk (ev : Evaluator) (v : Value) : Eval Closure := do
  let k ← Eval.onStore Keywords.intern
  compileTop ev k (.thunk [v])

/-- Expand the macro calls at the head of a form. -/
def expand (ev : Evaluator) (v : Value) : Eval Value := do
  let k ← Eval.onStore Keywords.intern
  expandWithin ev k ev.fuel v

end Compiler

end StackLisp

import StackLisp.Builtin.Call
import StackLisp.Machine.CallFrame

/-!
# Instructions at work

`Machine.step` executes one instruction of the running call. Calls of closures stay on the stack of
the machine; calls of intrinsic functions get an evaluator, through which they may run code again.
-/

namespace StackLisp

namespace Machine

open CallFrame

/-- Push a constant of the running function. -/
def execConst (c : Closure) (index : UInt16) : Eval Unit :=
  match c.constants[index.toNat]? with
  | some v => push (.value v)
  | none => Eval.fail (.inconsistent (.constantRange index.toNat c.name))

/-- The value of a symbol in the running call: the nearest binding, or else the global one. -/
def lookup (symbol : Symbol) : Eval Value := do
  let env ← currentEnv
  let e ← get
  match e.envs.get? env symbol with
  | some v => return v
  | none =>
    match e.global? symbol with
    | some v => return v
    | none => Eval.fail (.unbound symbol.name)

/-- Replace the symbol on top of the stack by its value. -/
def execLoad : Eval Unit := do
  let top ← below 1
  let symbol ← Eval.fromStack (·.symbol top)
  write top (.value (← lookup symbol))

/-- Overwrite the nearest binding of a symbol, or else the global one. -/
def overwrite (symbol : Symbol) (v : Value) : Eval Unit := do
  let env ← currentEnv
  let found ← fun e =>
    let (found, envs) := e.envs.assign env symbol v
    (.ok found, { e with envs })
  if !found then
    if ((← get).global? symbol).isSome then modify (·.define symbol v)
    else Eval.fail (.unbound symbol.name)

/-- Give the symbol below the top of the stack the value on top; the value stays. -/
def execAssign (assign : Symbol → Value → Eval Unit) : Eval Unit := do
  let slot ← below 2
  let symbol ← Eval.fromStack (·.symbol slot)
  let v ← pop
  assign symbol v
  write (← below 1) (.value v)

/-- Bind the function on top of the stack to the environment of the running call. The bound closure
is a macro if the function was one. -/
def execClosure (home : Nat) : Eval Unit := do
  let top ← below 1
  let template ← Eval.fromStack (·.closure top)
  let env ← capture home
  let ref ← Eval.onStore (·.fresh)
  let bound : Closure := { template with ref, env := some env }
  modify fun e => if e.isMacro template then e.markMacro bound else e
  write top (.value (.closure bound))

/-- Call the function below `argc` arguments. -/
def execCall (ev : Evaluator) (a : Activation) (argc : Nat) : Eval Progress := do
  let slot ← below (argc + 1)
  match ← Eval.fromStack (·.value slot) with
  | .intrinsic _ function =>
    let args ← Eval.fromStack (·.values (slot + 1) (slot + 1 + argc))
    let result ← function.call ev args
    -- the function ran outside the machine: its result replaces it and its arguments
    setPointer (slot + 1)
    write slot (.value result)
    return .running a
  | .closure _ =>
    write (← beforeOperands 1) (.int a.position)
    return .running (← enter argc)
  | other => Eval.fail (.wrongType "function" other)

/-- Execute one instruction, which has been passed already. -/
def execute (ev : Evaluator) (home : Nat) (a : Activation) (i : Instruction) :
    Eval Progress := do
  match i with
  | .pop =>
    setPointer (← below 1)
    return .running a
  | .ret => leave home
  | .call argc => execCall ev a argc.toNat
  | .jump target =>
    return .running { a with position := ← Eval.ofExcept (a.closure.code.seek target.toNat) }
  | .jumpIfNot target =>
    if (← pop).isTruthy then return .running a
    else return .running { a with position := ← Eval.ofExcept (a.closure.code.seek target.toNat) }
  | .const index =>
    execConst a.closure index
    return .running a
  | .load =>
    execLoad
    return .running a
  | .define =>
    execAssign fun symbol v => modify (·.define symbol v)
    return .running a
  | .store =>
    execAssign overwrite
    return .running a
  | .closure =>
    execClosure home
    return .running a
  | .nop | .dup | .label _ | .halt =>
    Eval.fail (.inconsistent (.reservedOpcode i.opcode.name a.position))

/-- Read and execute the next instruction of the running call. -/
def step (ev : Evaluator) (home : Nat) (a : Activation) : Eval Progress := do
  let i ← Eval.ofExcept (a.closure.code.fetch a.position)
  execute ev home { a with position := a.position + i.width } i

/-- Run a call to its end, in at most `fuel` steps. -/
def run (ev : Evaluator) (home : Nat) : (fuel : Nat) → Activation → Eval Value
  | 0, _ => throw .outOfFuel
  | fuel + 1, a => fun e =>
    match step ev home a e with
    | (.ok (.running next), e) => run ev home fuel next e
    | (.ok (.returned v), e) => (.ok v, e)
    | (.error stop, e) => (.error stop, e)

/-- Push a callee and its arguments. -/
def pushCall (c : Closure) (args : List Value) : Eval Unit := do
  reserve ((← get).sp + args.length + 1)
  push (.value (.closure c))
  args.forM fun v => push (.value v)

/-- Start a call from outside the machine. -/
def start (c : Closure) (args : List Value) : Eval Activation := do
  pushCall c args
  enter args.length

/-- Call a closure from outside the machine, given an evaluator for what it calls outside in
turn. -/
def callWith (ev : Evaluator) (fuel : Nat) (c : Closure) (args : List Value) : Eval Value := do
  let home := (← get).frame
  run ev home fuel (← start c args)

/-- Call a closure from outside the machine. Such calls nest only so deep. Whatever happens, the
pointers are afterwards what they were. -/
def applyWith (ev : Evaluator) (fuel : Nat) (c : Closure) (args : List Value) : Eval Value :=
  fun e =>
    let limit := e.limits.maxApplyDepth
    let depth := e.depth
    let sp := e.sp
    let frame := e.frame
    if limit ≤ depth then (.error (.fault (.exhausted (.applyDepth limit))), e)
    else
      let (result, e) := callWith ev fuel c args { e with depth := depth + 1 }
      (result, { e with sp, frame, depth })

end Machine

end StackLisp

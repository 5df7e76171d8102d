import StackLisp.Machine.Load
import StackLisp.Proofs.Decompile

/-!
# A reference evaluator

What terms mean, without a stack machine: a recursion over them, with the environments of the
calls around as a list. A closure is called by evaluating the terms that it was compiled from.

- `Reference.lookup`, `Reference.assign`, `Reference.bind`, `Reference.enter`: what the single
  constructs do to an engine;
- `Reference.eval`: the value of a term;
- `Reference.call`: the value of a call, in which calls nest only so deep;
- `Reference.evaluator`: an evaluator for the compiler and the built-in functions that runs
  everything this way;
- `Reference.evalTop`: the value of a whole form.
-/

namespace StackLisp

namespace Reference

/-- The value of a symbol: the nearest binding, or else the global one. -/
def lookup (env : EnvId) (symbol : Symbol) : Eval Value := do
  let e ← get
  match e.envs.get? env symbol with
  | some v => return v
  | none =>
    match e.global? symbol with
    | some v => return v
    | none => Eval.fail (.unbound symbol.name)

/-- Overwrite the nearest binding of a symbol, or else the global one. -/
def overwrite (env : EnvId) (symbol : Symbol) (v : Value) : Eval Unit := do
  let found ← fun e =>
    let (found, envs) := e.envs.assign env symbol v
    (.ok found, { e with envs })
  if !found then
    if ((← get).global? symbol).isSome then modify (·.define symbol v)
    else Eval.fail (.unbound symbol.name)

/-- Give a symbol a value. -/
def assign (env : EnvId) : Assignment → Symbol → Value → Eval Unit
  | .define, symbol, v => modify (·.define symbol v)
  | .overwrite, symbol, v => overwrite env symbol v

/-- Bind a function to the environment of a call, after that has been linked to the environments
of the calls around it. The bound closure is a macro if the function was one. -/
def bind (env : EnvId) (callers : List EnvId) (template : Closure) : Eval Value := do
  modify fun e => { e with envs := CallFrame.chain e.envs (env :: callers).toArray 0 }
  let ref ← Eval.onStore (·.fresh)
  let bound : Closure := { template with ref, env := some env }
  modify fun e => if e.isMacro template then e.markMacro bound else e
  return .closure bound

/-- Bind the parameters from `place` on to some arguments, after the bindings already made. -/
def bindPositional (c : Closure) : (place : Nat) → List Value → Bindings → Except Error Bindings
  | _, [], bindings => .ok bindings
  | place, v :: args, bindings => do
    let symbol ← CallFrame.parameter c place
    bindPositional c (place + 1) args (bindings.insert symbol v)

/-- The bindings of a call: one for each positional parameter, and a list of the further arguments
if the function collects them. -/
def bindArguments (c : Closure) (args : List Value) : Eval Bindings := do
  let bindings ← Eval.ofExcept (bindPositional c 0 (args.take c.positional) [])
  if c.variadic then
    let symbol ← Eval.ofExcept (CallFrame.parameter c c.positional)
    let list ← Eval.onStore (·.list (args.drop c.positional))
    return bindings.insert symbol list
  else return bindings

/-- The environment of a new call, enclosed by the one that the function is bound to. -/
def enter (c : Closure) (args : List Value) : Eval EnvId := do
  Eval.ofExcept (CallFrame.checkArity c args.length)
  let bindings ← bindArguments c args
  fun e =>
    let (env, envs) := e.envs.create bindings c.env
    (.ok env, { e with envs })

/-- Where terms are evaluated. -/
structure Context where
  /-- What built-in functions may ask for. -/
  evaluator : Evaluator
  /-- How closures are called, given the environments of the calls around. -/
  call : (callers : List EnvId) → Closure → List Value → Eval Value
  /-- The environment of the running call. -/
  env : EnvId
  /-- The environments of the calls around it, innermost first. -/
  callers : List EnvId

/-- Call a value. -/
def invoke (x : Context) (callee : Value) (args : List Value) : Eval Value :=
  match callee with
  | .intrinsic _ function => function.call x.evaluator args
  | .closure c => x.call (x.env :: x.callers) c args
  | other => Eval.fail (.wrongType "function" other)

mutual

/-- The value of a term. -/
def eval (x : Context) : Term → Eval Value
  | .constant v => return v
  | .lookup symbol => lookup x.env symbol
  | .conditional test consequent alternative => do
    if (← eval x test).isTruthy then eval x consequent else eval x alternative
  | .assignment way target value => do
    let v ← eval x value
    assign x.env way target v
    return v
  | .function template => bind x.env x.callers template
  | .call callee args => do
    let f ← eval x callee
    let vs ← evalAll x args
    invoke x f vs

/-- The values of terms, from left to right. -/
def evalAll (x : Context) : List Term → Eval (List Value)
  | [] => return []
  | t :: ts => do
    let v ← eval x t
    let vs ← evalAll x ts
    return v :: vs

end

/-- The value of the last term of a body. -/
def evalBody (x : Context) : List Term → Eval Value
  | [] => return .nil
  | [t] => eval x t
  | t :: ts => do
    let _ ← eval x t
    evalBody x ts

/-- Call a closure: its terms are evaluated in a new environment. Calls nest at most `fuel` deep. -/
def call (ev : Evaluator) :
    (fuel : Nat) → (callers : List EnvId) → Closure → List Value → Eval Value
  | 0, _, _, _ => throw .outOfFuel
  | fuel + 1, callers, c, args => do
    let env ← enter c args
    evalBody { evaluator := ev, call := call ev fuel, env, callers } c.terms

/-- Run a computation from outside all calls. Such computations nest only so deep. -/
def nested (x : Eval Value) : Eval Value := fun e =>
  let limit := e.limits.maxApplyDepth
  let depth := e.depth
  if limit ≤ depth then (.error (.fault (.exhausted (.applyDepth limit))), e)
  else
    let (result, e) := x { e with depth := depth + 1 }
    (result, { e with depth })

/-- Call a closure from outside. -/
def apply (ev : Evaluator) (fuel : Nat) (c : Closure) (args : List Value) : Eval Value :=
  nested (call ev fuel [] c args)

/-- The evaluator with a supply of fuel: it bounds how deep calls nest. -/
def evaluator : (fuel : Nat) → Evaluator
  | 0 =>
    { fuel := 0
      apply := fun _ _ => throw .outOfFuel
      loadFile := fun _ => throw .outOfFuel }
  | fuel + 1 =>
    { fuel
      apply := fun c args => apply (evaluator fuel) (fuel + 1) c args
      loadFile := fun path => Machine.loadFile (evaluator fuel) path }

/-- Evaluate a term on its own, in an environment without bindings. -/
def evalTop (fuel : Nat) (t : Term) : Eval Value :=
  nested do
    let env ← fun e =>
      let (env, envs) := e.envs.create [] none
      (.ok env, { e with envs })
    eval { evaluator := evaluator fuel, call := call (evaluator fuel) fuel, env, callers := [] } t

end Reference

end StackLisp

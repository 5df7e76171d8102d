import StackLisp.Code.Cursor
import StackLisp.Machine.Engine

/-!
# Frames

A running call owns a window of the stack. It starts with the callee and a header of three slots:
the environment of the call, the frame of the caller, and the position at which the call itself
goes on once a call it makes has returned. The operands follow; the frame is the index of the first
of them.

* `CallFrame.enter` starts a call whose callee and arguments have been pushed.
* `CallFrame.leave` ends the running call and goes back to its caller.
* `CallFrame.capture` gives the environment that a new closure is bound to.
-/

namespace StackLisp

/-- A call in progress: its closure and the position of its next instruction. -/
structure Activation where
  /-- The function that runs. -/
  closure : Closure
  /-- Where its next instruction is read. -/
  position : Nat

namespace CallFrame

/-- The slots between a callee and its first operand. -/
def header : Nat := 3

/-- The index `n` slots below the stack pointer. -/
@[inline]
def below (n : Nat) : Eval Nat := do
  let sp := (← get).sp
  if n ≤ sp then return sp - n else Eval.fail (.inconsistent .underflow)

/-- The index `n` slots below the first operand of the running call. -/
@[inline]
def beforeOperands (n : Nat) : Eval Nat := do
  let frame := (← get).frame
  if n ≤ frame then return frame - n else Eval.fail (.inconsistent .noFrame)

/-- Set the stack pointer. -/
@[inline]
def setPointer (sp : Nat) : Eval Unit :=
  modify fun e => { e with sp }

/-- Fill a slot. -/
@[inline]
def write (index : Nat) (slot : Slot) : Eval Unit :=
  Eval.onStack (·.write index slot)

/-- Fill the first free slot. -/
def push (slot : Slot) : Eval Unit := do
  let sp := (← get).sp
  write sp slot
  setPointer (sp + 1)

/-- Take the value on top of the stack. -/
def pop : Eval Value := do
  let top ← below 1
  let v ← Eval.fromStack (·.value top)
  setPointer top
  return v

/-- Make sure that there are at least `needed` slots. -/
def reserve (needed : Nat) : Eval Unit := do
  let limit := (← get).limits.maxSlots
  Eval.onStack (·.grow needed limit)

/-- The environment of the running call. -/
def currentEnv : Eval EnvId := do
  let slot ← beforeOperands header
  Eval.fromStack (·.env slot)

/-- The parameter symbol at a place among the constants. -/
def parameter (c : Closure) (place : Nat) : Except Error Symbol :=
  match c.constants[place]? with
  | some (.symbol s) => .ok s
  | _ => .error (.inconsistent (.parameterConstant place c.name))

/-- Bind `count` parameters from `place` on to the arguments from `slot` on, after the bindings
already made. -/
def bindPositional (c : Closure) (s : Stack) :
    (count place slot : Nat) → Bindings → Except Error Bindings
  | 0, _, _, bindings => .ok bindings
  | count + 1, place, slot, bindings => do
    let symbol ← parameter c place
    let v ← s.value slot
    bindPositional c s count (place + 1) (slot + 1) (bindings.insert symbol v)

/-- The bindings of a call whose `argc` arguments start at a slot: one for each positional
parameter, and a list of the further arguments if the function collects them. -/
def bindArguments (c : Closure) (first argc : Nat) : Eval Bindings := do
  let bindings ← Eval.fromStack fun s => bindPositional c s c.positional 0 first []
  if c.variadic then
    let symbol ← Eval.ofExcept (parameter c c.positional)
    let others ← Eval.fromStack (·.values (first + c.positional) (first + argc))
    let list ← Eval.onStore (·.list others)
    return bindings.insert symbol list
  else return bindings

/-- The number of arguments suits the function. -/
def checkArity (c : Closure) (argc : Nat) : Except Error Unit :=
  if argc < c.positional then .error (.arity c.name .few)
  else if c.positional < argc && !c.variadic then .error (.arity c.name .many)
  else .ok ()

/-- Write the header of a new call above its callee, which stands at `base`. -/
def writeHeader (base : Nat) (env : EnvId) : Eval Unit := do
  setPointer (base + 1)
  push (.env env)
  push (.int (← get).frame)
  -- filled in when this call makes a call of its own
  push (.int 0)
  modify fun e => { e with frame := e.sp }

/-- Start a call: the callee and `argc` arguments are on top of the stack. The arguments move into
a new environment, enclosed by the one that the callee is bound to, and a header takes their
place. -/
def enter (argc : Nat) : Eval Activation := do
  let base ← below (argc + 1)
  let c ← Eval.fromStack (·.closure base)
  Eval.ofExcept (checkArity c argc)
  let position ← Eval.ofExcept (c.code.seek 1)
  -- the arguments still stand where the header will, so this is more than the call can use
  reserve ((← get).sp + header + c.code.maxStack + 1)
  let bindings ← bindArguments c (base + 1) argc
  let env ← fun e =>
    let (env, envs) := e.envs.create bindings c.env
    (.ok env, { e with envs })
  writeHeader base env
  return { closure := c, position }

/-- How a step of the machine ends. -/
inductive Progress where
  | running (next : Activation)
  /-- The call that was made from outside the machine is over. -/
  | returned (value : Value)

/-- Go back to the call whose frame this is. The header of the call that ended goes, and its result
takes the place of its callee. -/
def resume (result : Value) : Eval Activation := do
  setPointer (← below header)
  let resume ← beforeOperands 1
  let position ← Eval.fromStack (·.int resume)
  write (← below 1) (.value result)
  let slot ← beforeOperands (header + 1)
  let c ← Eval.fromStack (·.closure slot)
  let position ← Eval.ofExcept (c.code.seek position)
  return { closure := c, position }

/-- End the running call with the value on top of the stack. The caller goes on where it left off;
the call at `home` has none inside the machine. -/
def leave (home : Nat) : Eval Progress := do
  let top ← below 1
  let result ← Eval.fromStack (·.value top)
  let link ← beforeOperands 2
  let caller ← Eval.fromStack (·.int link)
  modify fun e => { e with sp := e.frame, frame := caller }
  if caller = home then return .returned result
  return .running (← resume result)

/-- The environments of the calls from a frame back to the one at `home`, which is left out,
innermost first, after those already found. Frames that do not repeat are fewer than the slots of
the stack. -/
def enclosing (s : Stack) (home : Nat) : (fuel frame : Nat) → (scopes : Array EnvId) →
    Except Stop (Array EnvId)
  | 0, _, _ => .error .outOfFuel
  | fuel + 1, frame, scopes =>
    if frame ≤ home then .ok scopes
    else
      match s.env (frame - header) with
      | .error e => .error (.fault e)
      | .ok env =>
        match s.int (frame - 2) with
        | .error e => .error (.fault e)
        | .ok caller => enclosing s home fuel caller (scopes.push env)

/-- Link each environment from the one at place `i` on to the next one, up to the first of those
that is linked already. -/
def chain (envs : Environments) (scopes : Array EnvId) (i : Nat) : Environments :=
  if h : i + 1 < scopes.size then
    let next := scopes[i + 1]
    let envs := envs.link scopes[i] next
    -- an environment with a link already leads on to the scopes of its own function
    if (envs.next? next).isSome then envs else chain envs scopes (i + 1)
  else envs
termination_by scopes.size - i

/-- The environment of the running call, for a closure to be bound to. It is first linked to the
environments of the calls around it, so that the closure sees their bindings. -/
def capture (home : Nat) : Eval EnvId := do
  let e ← get
  match enclosing e.stack home (e.stack.size + 1) e.frame #[] with
  | .error stop => throw stop
  | .ok scopes =>
    match scopes[0]? with
    | none => Eval.fail (.inconsistent .captureOutsideFrame)
    | some env =>
      modify fun e => { e with envs := chain e.envs scopes 0 }
      return env

end CallFrame

end StackLisp

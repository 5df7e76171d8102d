import StackLisp.Environment
import StackLisp.Files
import StackLisp.Globals
import StackLisp.Machine.Stack
import StackLisp.Store
import Std.Data.HashSet

/-!
# The engine

The state of an interpreter: limits, symbols and allocations, environments, global bindings, the
stack with its pointers, and what was printed. Computations on it are `Eval`: they give a value or
stop, and the state survives either way.

The compiler and the built-in functions call back into a running engine. What they may ask of it is
an `Evaluator`.
-/

namespace StackLisp

/-- Bounds on what a program may use. -/
structure Limits where
  /-- The size of the stack at the start and after a reset. -/
  initialSlots : Nat := 256
  /-- The size that the stack never grows beyond. -/
  maxSlots : Nat := 1048576
  /-- How deep calls from outside the machine may nest. -/
  maxApplyDepth : Nat := 64
  /-- How deep forms may nest inside one compiled form. -/
  maxCompileDepth : Nat := 256
deriving DecidableEq, Inhabited

/-- Why a computation has no value. -/
inductive Stop where
  /-- The program is at fault, or the machine was misused. -/
  | fault (error : Error)
  /-- The computation was given too few steps to end. -/
  | outOfFuel
  /-- The computation waits for a file that nobody has looked at yet. -/
  | awaits (path : String)

/-- A computation that makes values, and may fail. -/
abbrev Make := ExceptT Error (StateM Store)

/-- A function supplied by the host program. -/
structure HostFunction where
  /-- What the function does with its arguments. -/
  call : List Value → Make Value

/-- The state of an interpreter. -/
structure Engine where
  /-- The bounds on what programs may use. -/
  limits : Limits
  /-- Symbols and allocations. -/
  store : Store := {}
  /-- The environments of calls, past and present. -/
  envs : Environments := .empty
  /-- The global bindings. -/
  globals : Globals := {}
  /-- The closures that are macros. -/
  macros : Std.HashSet Ref := {}
  /-- The registered host functions. -/
  hosts : Array HostFunction := #[]
  /-- The files that programs can load. -/
  files : String → FileAnswer := fun _ => .unread
  /-- What was printed. -/
  output : String := ""
  /-- Operands and frames. -/
  stack : Stack
  /-- The first slot that is not in use. -/
  sp : Nat := 0
  /-- The first operand slot of the running call; zero outside any call. -/
  frame : Nat := 0
  /-- How many calls from outside the machine are running. -/
  depth : Nat := 0

instance : Inhabited Engine := ⟨{ limits := {}, stack := .ofSize 0 }⟩

/-- A computation on an engine. -/
abbrev Eval := ExceptT Stop (StateM Engine)

/-- What the compiler and the built-in functions may ask of a running engine. -/
structure Evaluator where
  /-- How often a form may be expanded in a row. -/
  fuel : Nat
  /-- Call a closure and run it to its end. -/
  apply : Closure → List Value → Eval Value
  /-- Read and evaluate every form of a file. -/
  loadFile : String → Eval Value

namespace Engine

/-- An engine without bindings. -/
def new (limits : Limits) (files : String → FileAnswer) : Engine :=
  { limits, files, stack := .ofSize limits.initialSlots }

/-- Drop all running calls. Bindings, symbols and output stay. -/
def reset (e : Engine) : Engine :=
  { e with stack := .ofSize e.limits.initialSlots, sp := 0, frame := 0, depth := 0 }

/-- Bind a symbol globally. -/
def define (e : Engine) (symbol : Symbol) (value : Value) : Engine :=
  { e with globals := e.globals.insert symbol value }

/-- Bind a name globally. -/
def defineName (e : Engine) (name : String) (value : Value) : Engine :=
  let (symbol, store) := e.store.intern name
  { e with store, globals := e.globals.insert symbol value }

/-- Bind an intrinsic function globally under its own name. -/
def register (e : Engine) (function : Intrinsic) : Engine :=
  let (value, store) := e.store.intrinsic function
  { e with store }.defineName function.name value

/-- Bind a host function globally. -/
def registerHost (e : Engine) (name : String) (function : HostFunction) : Engine :=
  { e with hosts := e.hosts.push function }.register (.host name e.hosts.size)

/-- The global value of a symbol. -/
def global? (e : Engine) (symbol : Symbol) : Option Value :=
  e.globals.get? symbol

/-- The global value of a name. Names that were never interned are never bound. -/
def globalNamed? (e : Engine) (name : String) : Option Value :=
  (e.store.symbols.lookup name).bind e.global?

/-- The closure is a macro. -/
def isMacro (e : Engine) (c : Closure) : Bool :=
  e.macros.contains c.ref

/-- Make a closure a macro. -/
def markMacro (e : Engine) (c : Closure) : Engine :=
  { e with macros := e.macros.insert c.ref }

end Engine

namespace Eval

/-- Stop with an error. -/
@[inline]
def fail {α : Type} (error : Error) : Eval α :=
  throw (.fault error)

/-- The value of a computation that needs no engine. -/
@[inline]
def ofExcept {α : Type} (result : Except Error α) : Eval α :=
  match result with
  | .ok a => pure a
  | .error error => fail error

/-- Work on the store. -/
@[inline]
def onStore {α : Type} (f : Store → α × Store) : Eval α := fun e =>
  let (a, store) := f e.store
  (.ok a, { e with store })

/-- Make values in the engine's store. -/
@[inline]
def make {α : Type} (action : Make α) : Eval α := do
  ofExcept (← onStore action.run)

/-- Work on the stack. -/
@[inline]
def onStack {α : Type} (f : Stack → Except Error α × Stack) : Eval α := do
  ofExcept (← fun e =>
    let (a, stack) := f e.stack
    (.ok a, { e with stack }))

/-- Read from the stack. -/
@[inline]
def fromStack {α : Type} (f : Stack → Except Error α) : Eval α := do
  ofExcept (f (← get).stack)

/-- The canonical symbol of a name. -/
def intern (name : String) : Eval Symbol :=
  onStore (·.intern name)

end Eval

end StackLisp

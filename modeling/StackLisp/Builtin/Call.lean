import StackLisp.Builtin.Arithmetic
import StackLisp.Builtin.Sequence

/-!
# Calling intrinsic functions

What each intrinsic function does, given an evaluator. Applications of intrinsic functions to
intrinsic functions are followed first (`Target.resolve`); only a closure at the end of them, or a
file to load, needs the evaluator.
-/

namespace StackLisp

namespace Naming

/-- The symbol of a value's type. -/
def typeSymbol (args : List Value) : Make Value := do
  let v ← Arity.one "type-of" args
  fun store =>
    let (symbol, store) := store.intern v.typeName
    (.ok (.symbol symbol), store)

/-- The symbol of a name. -/
def internName (args : List Value) : Make Value := do
  let name ← (← Arity.one "intern" args).expectText
  fun store =>
    let (symbol, store) := store.intern name
    (.ok (.symbol symbol), store)

/-- A symbol unlike all others. -/
def freshSymbol (args : List Value) : Make Value := do
  Arity.check "gensym" 0 (some 1) args
  let stem ← match args.head? with
    | some v => v.expectText
    | none => pure "gensym"
  fun store =>
    let (symbol, store) := store.gensym stem
    (.ok (.symbol symbol), store)

end Naming

namespace Effect

/-- Make a closure a macro. -/
def makeMacro (args : List Value) : Eval Value := do
  let v ← Eval.ofExcept (Arity.one "macro!" args)
  let c ← Eval.ofExcept v.expectClosure
  modify (·.markMacro c)
  return v

/-- Print a value on a line of its own. -/
def printLine (args : List Value) : Eval Value := do
  let v ← Eval.ofExcept (Arity.one "print" args)
  modify fun e => { e with output := e.output ++ v.print ++ "\n" }
  return .nil

/-- Evaluate a file. -/
def loadNamed (ev : Evaluator) (args : List Value) : Eval Value := do
  let v ← Eval.ofExcept (Arity.one "load" args)
  let path ← Eval.ofExcept v.expectText
  let _ ← ev.loadFile path
  return .nil

end Effect

/-- Call a built-in function with arguments. -/
def Builtin.call (ev : Evaluator) (function : Builtin) (args : List Value) : Eval Value :=
  match function with
  | .add => Eval.ofExcept (Numeric.sum args)
  | .subtract => Eval.ofExcept (Numeric.difference args)
  | .multiply => Eval.ofExcept (Numeric.product args)
  | .divide => Eval.ofExcept (Numeric.quotient args)
  | .less => Eval.ofExcept (Comparison.isLess args)
  | .greater => Eval.ofExcept (Comparison.isGreater args)
  | .identical => Eval.ofExcept (Comparison.areIdentical args)
  | .equal => Eval.ofExcept (Comparison.areEqual args)
  | .cons => Eval.make (Sequence.cons args)
  | .list => Eval.make (Sequence.makeList args)
  | .listStar => Eval.make (Sequence.listStar args)
  | .append => Eval.make (Sequence.append args)
  | .concat => Eval.make (Sequence.concat args)
  | .nth => Eval.make (Sequence.nth args)
  | .rest => Eval.make (Sequence.rest args)
  | .typeOf => Eval.make (Naming.typeSymbol args)
  | .intern => Eval.make (Naming.internName args)
  | .gensym => Eval.make (Naming.freshSymbol args)
  | .markMacro => Effect.makeMacro args
  | .print => Effect.printLine args
  | .load => Effect.loadNamed ev args

/-- What a call of an intrinsic function comes down to. -/
inductive Target where
  | builtin (function : Builtin) (args : List Value)
  | host (name : String) (index : Nat) (args : List Value)
  | closure (c : Closure) (args : List Value)

/-- The items of a list that is an argument are smaller than the arguments. -/
theorem Value.sizeOf_items_lt (callee list : Value) {items : List Value}
    (h : list.items? = some items) : sizeOf items < sizeOf [callee, list] := by
  cases list <;> simp [Value.items?] at h
  · subst h
    simp
  · subst h
    simp
    omega

/-- Follow a function through any number of applications to what it calls in the end. The arguments
of each application lie inside those of the one before. -/
def Target.resolve (function : Intrinsic) (args : List Value) : Except Error Target :=
  match function with
  | .builtin function => .ok (.builtin function args)
  | .host name index => .ok (.host name index args)
  | .apply =>
    match args with
    | [callee, list] =>
      match h : list.items? with
      | none => .error (.wrongType "list" list)
      | some items =>
        have := Value.sizeOf_items_lt callee list h
        match callee with
        | .intrinsic _ function => resolve function items
        | .closure c => .ok (.closure c items)
        | other => .error (.wrongType "function" other)
    | [] | [_] => .error (.arity "apply" .few)
    | _ => .error (.arity "apply" .many)
termination_by sizeOf args

/-- Call what an intrinsic function comes down to. -/
def Target.call (ev : Evaluator) : Target → Eval Value
  | .builtin function args => function.call ev args
  | .host name index args => do
    match (← get).hosts[index]? with
    | some supplied => Eval.make (supplied.call args)
    | none => Eval.fail (.unbound name)
  | .closure c args => ev.apply c args

/-- Call an intrinsic function with arguments. -/
def Intrinsic.call (ev : Evaluator) (function : Intrinsic) (args : List Value) : Eval Value := do
  (← Eval.ofExcept (Target.resolve function args)).call ev

end StackLisp

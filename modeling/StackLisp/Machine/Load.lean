import StackLisp.Compiler.Form
import StackLisp.Machine.Step
import StackLisp.Text.Datum

/-!
# Loading programs

A program is a text of forms. They are read, compiled and run one after the other, so that each
form sees the macros and definitions of those before it.

* `Machine.evaluator` ties the knot: calls that code makes outside the machine run with one unit
  of fuel less.
* `Machine.loadText` and `Machine.loadFile` give the value of the last form.
-/

namespace StackLisp

namespace Machine

/-- Read the next form, with the tokens left after it. -/
def readForm (tokens : List Located) :
    Eval (Option (Value × { rest : List Located // rest.length < tokens.length })) := fun e =>
  match h : Datum.next e.store tokens with
  | none => (.ok none, e)
  | some reading =>
    match reading.result with
    | .ok form =>
      (.ok (some (form, ⟨reading.rest, Datum.next_rest_length h⟩)),
        { e with store := reading.store })
    | .error error => (.error (.fault error), { e with store := reading.store })

/-- Evaluate one form. -/
def evalForm (ev : Evaluator) (form : Value) : Eval Value := do
  ev.apply (← Compiler.compileThunk ev form) []

/-- Evaluate the forms of some tokens, in order; the value of the last one is given, or else
`last`. -/
def loadTokens (ev : Evaluator) (last : Value) (tokens : List Located) : Eval Value := do
  match ← readForm tokens with
  | none => return last
  | some (form, ⟨rest, _⟩) =>
    let v ← evalForm ev form
    loadTokens ev v rest
termination_by tokens.length

/-- Evaluate the forms of a text. A text that cannot be split into tokens is not evaluated at
all. -/
def loadText (ev : Evaluator) (text : String) : Eval Value := do
  loadTokens ev .nil (← Eval.ofExcept (Token.scan text))

/-- Evaluate the forms of a file. -/
def loadFile (ev : Evaluator) (path : String) : Eval Value := do
  match (← get).files path with
  | .text content => loadText ev content
  | .fault cause => Eval.fail (.file (path ++ ": " ++ cause.message))
  | .unread => throw (.awaits path)

/-- The evaluator with a supply of fuel: it bounds the steps of each call and how deep such calls
nest. -/
def evaluator : (fuel : Nat) → Evaluator
  | 0 =>
    { fuel := 0
      apply := fun _ _ => throw .outOfFuel
      loadFile := fun _ => throw .outOfFuel }
  | fuel + 1 =>
    { fuel
      apply := fun c args => applyWith (evaluator fuel) fuel c args
      loadFile := fun path => loadFile (evaluator fuel) path }

end Machine

end StackLisp

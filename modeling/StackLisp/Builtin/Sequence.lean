import StackLisp.Builtin.Arity
import StackLisp.Machine.Engine

/-!
# Lists and strings

Functions that take lists and strings apart and put them together. Every result that is a string or
a non-empty list is a new object.
-/

namespace StackLisp.Sequence

/-- A new string. -/
def makeString (text : String) : Make Value := fun store =>
  let (value, store) := store.string text
  (.ok value, store)

/-- A new list, or the empty list. -/
def makeList (items : List Value) : Make Value := fun store =>
  let (value, store) := store.list items
  (.ok value, store)

/-- A list with one more item in front. -/
def cons (args : List Value) : Make Value := do
  let (first, others) ← Arity.two "cons" args
  makeList (first :: (← others.expectList))

/-- The arguments, the last of which is a list, in one list. -/
def listStar (args : List Value) : Make Value := do
  Arity.check "list*" 2 none args
  match args.getLast? with
  | some last => makeList (args.dropLast ++ (← last.expectList))
  | none => makeList []

/-- A list with one more item at the end, or two strings joined. -/
def append (args : List Value) : Make Value := do
  match ← Arity.two "append" args with
  | (.string _ text, second) => makeString (text ++ (← second.expectText))
  | (first, second) =>
    match first.items? with
    | some items => makeList (items ++ [second])
    | none => throw (.wrongType "list or string" first)

/-- The texts of strings, up to the first argument that is none. -/
def texts (args : List Value) : Except Error (List String) :=
  args.mapM Value.expectText

/-- The items of lists, up to the first argument that is none. -/
def allItems (args : List Value) : Except Error (List (List Value)) :=
  args.mapM Value.expectList

/-- Strings joined, or lists joined, as the first argument says. -/
def concat (args : List Value) : Make Value := do
  Arity.check "concat" 1 none args
  match args.head? with
  | some (.string _ _) => makeString (String.join (← texts args))
  | some .nil | some (.list _ _ _) => makeList (← allItems args).flatten
  | some first => throw (.wrongType "list or string" first)
  | none => makeList []

/-- The place that a number stands for in a sequence: it must be whole and inside. -/
def position (number : Float) (length : Nat) : Except Error Nat :=
  -- negative numbers and fractions do not survive the way there and back
  let whole := number.toUInt64
  if whole.toFloat == number && whole.toNat < length then .ok whole.toNat
  else .error (.index number length)

/-- The item or character at a place, counted from zero. -/
def nth (args : List Value) : Make Value := do
  let (sequence, number) ← Arity.two "nth" args
  let number ← number.expectNumber
  match sequence with
  | .string _ text =>
    let i ← position number text.length
    makeString (String.ofList (text.toList.drop i |>.take 1))
  | sequence =>
    match sequence.items? with
    | some items =>
      let i ← position number items.length
      return items.getD i .nil
    | none => throw (.wrongType "list or string" sequence)

/-- A list without its first item. -/
def rest (args : List Value) : Make Value := do
  makeList (← (← Arity.one "rest" args).expectList).tail

end StackLisp.Sequence

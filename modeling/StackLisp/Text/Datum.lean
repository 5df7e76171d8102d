import StackLisp.Decimal.Literal
import StackLisp.Store
import StackLisp.Text.Token

/-!
# Data read from tokens

A datum is a string, an atom, a quoted datum or a parenthesised list of data. Reading goes through
the tokens once, keeping the lists and quotes that are still open; each token either opens a
level, completes a value, or ends the reading with an error. Levels nest at most `maxDepth` deep.

* `Datum.next` reads one datum and gives the tokens after it, also when it fails.
* `Datum.readOne` and `Datum.readAll` read a whole text.
* `Datum.next_rest_length` says that every reading takes at least one token.
-/

namespace StackLisp

namespace Datum

/-- How deep lists and quotes may nest, the innermost atom counted as a level. -/
def maxDepth : Nat := 512

/-- A level that is still open. -/
inductive Level where
  /-- A list, with its items so far in reverse. -/
  | list (reversed : List Value)
  /-- A quote mark that waits for its datum. -/
  | quote

/-- The result of reading one datum. -/
structure Reading where
  /-- The value, or why there is none. -/
  result : Except Error Value
  /-- The tokens not yet taken. -/
  rest : List Located
  /-- The store afterwards. -/
  store : Store

/-- What a text without further tokens has left unfinished. -/
def unfinished : List Level → Unfinished
  | [] => .form
  | .list _ :: _ => .list
  | .quote :: _ => .quote

/-- The value of an atom: a literal, a number, or else the symbol of that name. Atoms that start
with `#` are reserved. -/
def ofAtom (store : Store) (atom : String) (place : Span) : Except Error (Value × Store) :=
  if atom = "true" then .ok (.boolean true, store)
  else if atom = "false" then .ok (.boolean false, store)
  else if atom = "nil" then .ok (.nil, store)
  else if atom.toList.head? = some '#' then .error (.malformed (.reservedAtom atom place))
  else match Decimal.read? atom.toList with
    | some n => .ok (.number n, store)
    | none =>
      let (symbol, store) := store.intern atom
      .ok (.symbol symbol, store)

/-- The state of a reading after a token. -/
inductive Progress where
  /-- The datum is complete. -/
  | done (value : Value) (store : Store)
  /-- More tokens are needed. -/
  | more (levels : List Level) (store : Store)
  /-- The token cannot stand here; it has been taken. -/
  | failed (error : Error) (store : Store)
  /-- The token may not be taken. -/
  | refused (error : Error) (store : Store)

/-- Put a complete value into the innermost open level. A quote is complete with it. -/
def settle (quote : Symbol) (store : Store) (value : Value) : List Level → Progress
  | [] => .done value store
  | .list reversed :: outer => .more (.list (value :: reversed) :: outer) store
  | .quote :: outer =>
    let (quoted, store) := store.list [.symbol quote, value]
    settle quote store quoted outer

/-- Take a token that starts a datum inside the open levels. -/
def startDatum (quote : Symbol) (store : Store) (levels : List Level) (t : Located) : Progress :=
  if maxDepth ≤ levels.length then
    .refused (.exhausted (.nesting maxDepth)) store
  else match t.token with
    | .leftParen => .more (.list [] :: levels) store
    | .quote => .more (.quote :: levels) store
    | .rightParen => .failed (.malformed (.strayClose t.span)) store
    | .string text =>
      let (value, store) := store.string text
      settle quote store value levels
    | .atom atom =>
      match ofAtom store atom t.span with
      | .ok (value, store) => settle quote store value levels
      | .error error => .failed error store

/-- Take a token: it closes the innermost list, or starts a datum. -/
def step (quote : Symbol) (store : Store) (levels : List Level) (t : Located) : Progress :=
  match t.token, levels with
  | .rightParen, .list reversed :: outer =>
    let (value, store) := store.list reversed.reverse
    settle quote store value outer
  | _, _ => startDatum quote store levels t

/-- Read on with some levels open. -/
def readWith (quote : Symbol) (store : Store) (levels : List Level) :
    List Located → Reading
  | [] => { result := .error (.unfinished (unfinished levels)), rest := [], store }
  | t :: rest =>
    match step quote store levels t with
    | .done value store => { result := .ok value, rest, store }
    | .more levels store => readWith quote store levels rest
    | .failed error store => { result := .error error, rest, store }
    | .refused error store => { result := .error error, rest := t :: rest, store }

/-- Read one datum, if any token is left. The name `quote` is interned first. -/
def next (store : Store) (tokens : List Located) : Option Reading :=
  match tokens with
  | [] => none
  | t :: rest =>
    let (quote, store) := store.intern "quote"
    some (readWith quote store [] (t :: rest))

/-- Reading never gives back more tokens than it was given. -/
theorem readWith_rest_length (quote : Symbol) (store : Store) (levels : List Level)
    (tokens : List Located) :
    (readWith quote store levels tokens).rest.length ≤ tokens.length := by
  induction tokens generalizing store levels with
  | nil => simp [readWith]
  | cons t rest ih =>
    unfold readWith
    split
    · simp
    · exact Nat.le_trans (ih _ _) (by simp)
    · simp
    · simp

/-- A value that is put into a level never refuses a token. -/
theorem settle_ne_refused (quote : Symbol) (store : Store) (value : Value) (levels : List Level)
    (error : Error) (after : Store) :
    settle quote store value levels ≠ .refused error after := by
  induction levels generalizing store value with
  | nil => simp [settle]
  | cons level outer ih =>
    cases level with
    | list reversed => simp [settle]
    | quote => exact ih _ _

/-- Outside all levels no token is refused. -/
theorem step_nil_ne_refused (quote : Symbol) (store : Store) (t : Located) (error : Error)
    (after : Store) : step quote store [] t ≠ .refused error after := by
  unfold step
  split
  · exact settle_ne_refused _ _ _ _ _ _
  · unfold startDatum
    rw [if_neg (by decide)]
    split
    · simp
    · simp
    · simp
    · exact settle_ne_refused _ _ _ _ _ _
    · split
      · exact settle_ne_refused _ _ _ _ _ _
      · simp

/-- Every reading takes at least one token. -/
theorem next_rest_length {store : Store} {tokens : List Located} {reading : Reading}
    (h : next store tokens = some reading) : reading.rest.length < tokens.length := by
  cases tokens with
  | nil => simp [next] at h
  | cons t rest =>
    simp only [next, Option.some.injEq] at h
    subst h
    unfold readWith
    split
    · simp
    · exact Nat.lt_of_le_of_lt (readWith_rest_length _ _ _ _) (by simp)
    · simp
    · rename_i heq
      exact absurd heq (step_nil_ne_refused _ _ _ _ _)

/-- Read all data of some tokens, up to the first error. -/
def readTokens (store : Store) (tokens : List Located) (reversed : List Value) :
    Except Error (List Value) × Store :=
  match h : next store tokens with
  | none => (.ok reversed.reverse, store)
  | some reading =>
    match reading.result with
    | .error error => (.error error, reading.store)
    | .ok value =>
      have := next_rest_length h
      readTokens reading.store reading.rest (value :: reversed)
termination_by tokens.length

/-- Read the first datum of a text. -/
def readOne (store : Store) (text : String) : Except Error Value × Store :=
  match Token.scan text with
  | .error error => (.error error, store)
  | .ok tokens =>
    match next store tokens with
    | none => (.error (.unfinished .form), store)
    | some reading => (reading.result, reading.store)

/-- Read all data of a text. -/
def readAll (store : Store) (text : String) : Except Error (List Value) × Store :=
  match Token.scan text with
  | .error error => (.error error, store)
  | .ok tokens => readTokens store tokens []

end Datum

end StackLisp

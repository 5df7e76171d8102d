import StackLisp.Value.Basic

/-!
# The store

The supply of identities: the symbol table, and the number of the next allocation. Each operation
that makes a string, a list, a function or a closure takes a new allocation, so objects made apart
are never identical.
-/

namespace StackLisp

/-- Symbols and allocations. -/
structure Store where
  /-- The symbols made so far. -/
  symbols : SymbolTable := .empty
  /-- The number of the next allocation. -/
  nextRef : Ref := 0
deriving Inhabited

namespace Store

/-- The store in which nothing was made yet. -/
def empty : Store := {}

/-- A new allocation. -/
def fresh (store : Store) : Ref × Store :=
  (store.nextRef, { store with nextRef := store.nextRef + 1 })

/-- The canonical symbol of a name. -/
def intern (store : Store) (name : String) : Symbol × Store :=
  let (symbol, symbols) := store.symbols.intern name
  (symbol, { store with symbols })

/-- A symbol unlike all others. -/
def gensym (store : Store) (stem : String) : Symbol × Store :=
  let (symbol, symbols) := store.symbols.gensym stem
  (symbol, { store with symbols })

/-- A new string. -/
def string (store : Store) (text : String) : Value × Store :=
  (.string store.nextRef text, { store with nextRef := store.nextRef + 1 })

/-- The list of the given items: a new one, or the empty list. -/
def list (store : Store) (items : List Value) : Value × Store :=
  match items with
  | [] => (.nil, store)
  | first :: others =>
    (.list store.nextRef first others, { store with nextRef := store.nextRef + 1 })

/-- A list holds the items it was made of. -/
theorem items?_list (store : Store) (items : List Value) :
    (store.list items).1.items? = some items := by
  cases items <;> rfl

/-- A new value for an intrinsic function. -/
def intrinsic (store : Store) (function : Intrinsic) : Value × Store :=
  (.intrinsic store.nextRef function, { store with nextRef := store.nextRef + 1 })

end Store

end StackLisp

import StackLisp.Value.Basic
import Std.Data.ExtTreeMap

/-!
# Global bindings

The bindings that every function sees, kept by the identity of the bound symbol. Two collections of
global bindings are equal when they bind the same symbols to the same values, in whatever order
that was done (`Globals.ext`).
-/

namespace StackLisp

/-- The global bindings. -/
structure Globals where
  /-- The symbol and the value bound under each identity. -/
  byId : Std.ExtTreeMap Nat (Symbol × Value) := {}
deriving Inhabited

namespace Globals

/-- No bindings. -/
def empty : Globals := {}

/-- The value that a symbol is bound to. -/
def get? (globals : Globals) (symbol : Symbol) : Option Value :=
  globals.byId[symbol.id]?.map (·.2)

/-- Bind a symbol, replacing the binding it has. -/
def insert (globals : Globals) (symbol : Symbol) (value : Value) : Globals :=
  { byId := globals.byId.insert symbol.id (symbol, value) }

/-- How many symbols are bound. -/
def size (globals : Globals) : Nat :=
  globals.byId.size

/-- The bindings, in the order in which their symbols were made. -/
def toList (globals : Globals) : List (Symbol × Value) :=
  globals.byId.toList.map (·.2)

/-- Nothing is bound at first. -/
theorem get?_empty (symbol : Symbol) : empty.get? symbol = none := by
  simp [get?, empty]

/-- A symbol is bound to what was bound last, and symbols of another identity keep their values. -/
theorem get?_insert (globals : Globals) (symbol other : Symbol) (value : Value) :
    (globals.insert symbol value).get? other =
      if symbol.id = other.id then some value else globals.get? other := by
  by_cases h : symbol.id = other.id
  · simp [get?, insert, h]
  · simp [get?, insert, Std.ExtTreeMap.getElem?_insert, h]

/-- What is bound is the new value or was bound before. -/
theorem eq_or_of_get?_insert {globals : Globals} {symbol other : Symbol} {value v : Value}
    (h : (globals.insert symbol value).get? other = some v) :
    v = value ∨ globals.get? other = some v := by
  rw [get?_insert] at h
  split at h
  · exact .inl (Option.some.inj h).symm
  · exact .inr h

/-- Collections that agree under every identity are equal. -/
theorem ext {a b : Globals} (h : ∀ id : Nat, a.byId[id]? = b.byId[id]?) : a = b := by
  obtain ⟨a⟩ := a
  obtain ⟨b⟩ := b
  exact congrArg Globals.mk (Std.ExtTreeMap.ext_getElem? h)

end Globals

end StackLisp

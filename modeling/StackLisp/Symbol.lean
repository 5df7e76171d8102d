import Std.Data.HashMap

/-!
# Symbols

A symbol is a name with an identity. A `SymbolTable` hands out one symbol per name (`intern`), and
fresh symbols that are never in the table (`gensym`), so that a generated symbol differs from every
other symbol whatever its name.

The table keeps its symbols in an array, at the places that an `Interner` counts out to their names.
What it relies on is `Interner.Lawful`, and `Aligned` is the invariant that the two keep together.
-/

namespace StackLisp

/-- A named identity. Two symbols of one table are the same when their numbers are. -/
structure Symbol where
  /-- The identity, unique within the table that made the symbol. -/
  id : Nat
  /-- The text that the symbol prints as. -/
  name : String
deriving DecidableEq, Inhabited

/-- Symbols hash by identity. -/
instance : Hashable Symbol where
  hash s := hash s.id

/-- A supply of keys for texts. -/
structure Interner where
  /-- What it remembers of the texts that were given a key. -/
  State : Type
  empty : State
  /-- The key of a text, handed out on first use. -/
  getOrIntern : State → String → Nat × State
  /-- The key of a text that was given one. -/
  get? : State → String → Option Nat
  /-- How many texts have a key. -/
  size : State → Nat

namespace Interner

/-- Keys are counted out from zero, and a text keeps its key. -/
class Lawful (keys : Interner) : Prop where
  get?_empty (text : String) : keys.get? keys.empty text = none
  size_empty : keys.size keys.empty = 0
  old {state : keys.State} {text : String} {key : Nat} (h : keys.get? state text = some key) :
    keys.getOrIntern state text = (key, state)
  new_key {state : keys.State} {text : String} (h : keys.get? state text = none) :
    (keys.getOrIntern state text).1 = keys.size state
  new_size {state : keys.State} {text : String} (h : keys.get? state text = none) :
    keys.size (keys.getOrIntern state text).2 = keys.size state + 1
  new_get? {state : keys.State} {text : String} (h : keys.get? state text = none)
    (other : String) : keys.get? (keys.getOrIntern state text).2 other =
      if other = text then some (keys.size state) else keys.get? state other

/-- The key of a text in a hash map: how many texts had one before it. -/
def keyIn (keys : Std.HashMap String Nat) (text : String) : Nat × Std.HashMap String Nat :=
  match keys[text]? with
  | some key => (key, keys)
  | none => (keys.size, keys.insert text keys.size)

section

variable {keys : Std.HashMap String Nat} {text : String}

theorem keyIn_old {key : Nat} (h : keys[text]? = some key) : keyIn keys text = (key, keys) := by
  rw [keyIn, h]

theorem keyIn_new (h : keys[text]? = none) :
    keyIn keys text = (keys.size, keys.insert text keys.size) := by
  rw [keyIn, h]

theorem size_keyIn_new (h : keys[text]? = none) : (keyIn keys text).2.size = keys.size + 1 := by
  have hfree : text ∉ keys := by simpa using h
  simp [keyIn_new h, Std.HashMap.size_insert, hfree]

theorem getElem?_keyIn_new (h : keys[text]? = none) (other : String) :
    (keyIn keys text).2[other]? = if other = text then some keys.size else keys[other]? := by
  simp only [keyIn_new h, Std.HashMap.getElem?_insert, beq_iff_eq, eq_comm (a := text)]

end

/-- The keys in a hash map. -/
def hashed : Interner where
  State := Std.HashMap String Nat
  empty := {}
  getOrIntern := keyIn
  get? keys text := keys[text]?
  size keys := keys.size

instance : hashed.Lawful where
  get?_empty _ := Std.HashMap.getElem?_empty
  size_empty := rfl
  old h := keyIn_old h
  new_key h := congrArg Prod.fst (keyIn_new h)
  new_size h := size_keyIn_new h
  new_get? h other := getElem?_keyIn_new h other

end Interner

/-- The symbols stand at the places that are the keys of their names. -/
structure Aligned (keys : Interner) (state : keys.State) (canonical : Array Symbol) : Prop where
  size_eq : canonical.size = keys.size state
  of_key {name : String} {key : Nat} (h : keys.get? state name = some key) :
    ∃ symbol, canonical[key]? = some symbol ∧ symbol.name = name
  key {key : Nat} {symbol : Symbol} (h : canonical[key]? = some symbol) :
    keys.get? state symbol.name = some key

namespace Aligned

variable {keys : Interner} [keys.Lawful] {state : keys.State} {canonical : Array Symbol}
  {name : String}

theorem empty : Aligned keys keys.empty #[] where
  size_eq := (Interner.Lawful.size_empty).symm
  of_key h := by simp [Interner.Lawful.get?_empty] at h
  key h := by simp at h

/-- A name without a key is given the place behind the last symbol, so its symbol goes there. -/
theorem push (h : Aligned keys state canonical) (hnew : keys.get? state name = none)
    {symbol : Symbol} (hname : symbol.name = name) :
    Aligned keys (keys.getOrIntern state name).2 (canonical.push symbol) where
  size_eq := by rw [Array.size_push, h.size_eq, Interner.Lawful.new_size hnew]
  of_key {other key} hkey := by
    rw [Interner.Lawful.new_get? hnew, ← h.size_eq] at hkey
    split at hkey
    · next heq =>
      cases hkey
      exact ⟨symbol, Array.getElem?_push_size, hname.trans heq.symm⟩
    · obtain ⟨s, hs, hother⟩ := h.of_key hkey
      have hlt : key < canonical.size := (Array.getElem?_eq_some_iff.1 hs).1
      exact ⟨s, by rw [Array.getElem?_push, if_neg (Nat.ne_of_lt hlt), hs], hother⟩
  key {key s} hs := by
    rw [Interner.Lawful.new_get? hnew, ← h.size_eq]
    rw [Array.getElem?_push] at hs
    split at hs
    · next heq =>
      cases hs
      rw [if_pos hname, heq]
    · have hold := h.key hs
      rw [if_neg, hold]
      rintro rfl
      rw [hnew] at hold
      cases hold

/-- The key of a name is the place behind the last symbol exactly when it is new. -/
theorem key_eq_size_iff (h : Aligned keys state canonical) :
    (keys.getOrIntern state name).1 = canonical.size ↔ keys.get? state name = none := by
  cases hkey : keys.get? state name with
  | none => simp [Interner.Lawful.new_key hkey, h.size_eq]
  | some key =>
    obtain ⟨s, hs, -⟩ := h.of_key hkey
    simp [Interner.Lawful.old hkey, Nat.ne_of_lt (Array.getElem?_eq_some_iff.1 hs).1]

/-- A name that was given a key before has a symbol at that place, and keeps both. -/
theorem old (h : Aligned keys state canonical)
    (hold : (keys.getOrIntern state name).1 ≠ canonical.size) :
    (keys.getOrIntern state name).1 < canonical.size ∧
      (keys.getOrIntern state name).2 = state := by
  cases hkey : keys.get? state name with
  | none => exact absurd (h.key_eq_size_iff.2 hkey) hold
  | some key =>
    obtain ⟨s, hs, -⟩ := h.of_key hkey
    rw [Interner.Lawful.old hkey]
    exact ⟨(Array.getElem?_eq_some_iff.1 hs).1, rfl⟩

end Aligned

/-- The canonical symbols by name, and the supply of identities. -/
structure SymbolTable (keys : Interner := .hashed) where
  /-- The keys of the interned names. -/
  names : keys.State
  /-- The symbols of the interned names, each at its key. -/
  canonical : Array Symbol
  /-- The identity of the next symbol to be made, interned or generated. -/
  nextId : Nat
  /-- How many symbols were generated, modulo `2 ^ 32`. -/
  generated : UInt32
  aligned : Aligned keys names canonical

namespace SymbolTable

variable {keys : Interner}

/-- The canonical symbol of a name that was interned before. -/
def lookup (table : SymbolTable keys) (name : String) : Option Symbol :=
  (keys.get? table.names name).bind (table.canonical[·]?)

/-- The symbol of a name stands at its key. -/
theorem lookup_eq_some {table : SymbolTable keys} {name : String} {symbol : Symbol} :
    table.lookup name = some symbol ↔
      ∃ key, keys.get? table.names name = some key ∧ table.canonical[key]? = some symbol :=
  Option.bind_eq_some_iff

/-- The number of interned names. -/
def size (table : SymbolTable keys) : Nat :=
  table.canonical.size

/-- A counter in hexadecimal, with at least four digits. -/
def serial (n : UInt32) : String :=
  let digits := Nat.toDigits 16 n.toNat
  String.ofList (List.replicate (4 - digits.length) '0' ++ digits)

/-- A fresh symbol, not in the table, named by a stem and the running counter. -/
def gensym (table : SymbolTable keys) (stem : String) : Symbol × SymbolTable keys :=
  ({ id := table.nextId, name := stem ++ "-" ++ serial table.generated },
    { table with nextId := table.nextId + 1, generated := table.generated + 1 })

/-- A generated symbol is not entered in the table, whatever its name. -/
theorem lookup_gensym (table : SymbolTable keys) (stem name : String) :
    (table.gensym stem).2.lookup name = table.lookup name := rfl

/-- A name without a symbol is one without a key. -/
theorem lookup_eq_none {table : SymbolTable keys} {name : String} :
    table.lookup name = none ↔ keys.get? table.names name = none := by
  constructor
  · intro h
    cases hkey : keys.get? table.names name with
    | none => rfl
    | some key =>
      obtain ⟨symbol, hsymbol, -⟩ := table.aligned.of_key hkey
      rw [lookup_eq_some.2 ⟨key, hkey, hsymbol⟩] at h
      cases h
  · intro h
    rw [lookup, h, Option.bind_none]

variable [keys.Lawful]

/-- The table with no symbols. -/
def empty : SymbolTable keys where
  names := keys.empty
  canonical := #[]
  nextId := 0
  generated := 0
  aligned := .empty

instance : Inhabited (SymbolTable keys) := ⟨empty⟩

instance : EmptyCollection (SymbolTable keys) := ⟨empty⟩

/-- The canonical symbol of a name, made on first use. -/
def intern : SymbolTable keys → String → Symbol × SymbolTable keys
  | ⟨names, canonical, nextId, generated, aligned⟩, name =>
    if hnew : (keys.getOrIntern names name).1 = canonical.size then
      let symbol : Symbol := { id := nextId, name }
      (symbol, ⟨(keys.getOrIntern names name).2, canonical.push symbol, nextId + 1, generated,
        aligned.push (aligned.key_eq_size_iff.1 hnew) rfl⟩)
    else
      have hold := aligned.old hnew
      (canonical[(keys.getOrIntern names name).1],
        ⟨(keys.getOrIntern names name).2, canonical, nextId, generated, hold.2.symm ▸ aligned⟩)

/-- A known name keeps its symbol, and interning it again changes nothing. -/
theorem intern_of_lookup {table : SymbolTable keys} {name : String} {symbol : Symbol}
    (h : table.lookup name = some symbol) : table.intern name = (symbol, table) := by
  obtain ⟨key, hkey, hsymbol⟩ := lookup_eq_some.1 h
  obtain ⟨hlt, hplace⟩ := Array.getElem?_eq_some_iff.1 hsymbol
  have hold := Interner.Lawful.old hkey
  cases table
  simp only [intern]
  rw [dif_neg (by simp [hold, Nat.ne_of_lt hlt])]
  simp [hold, hplace]

/-- A new name is given a symbol with the next number, at the place behind the last symbol. -/
theorem intern_new {table : SymbolTable keys} {name : String} (h : table.lookup name = none) :
    (table.intern name).1 = ⟨table.nextId, name⟩ ∧
      (table.intern name).2.names = (keys.getOrIntern table.names name).2 ∧
      (table.intern name).2.canonical = table.canonical.push ⟨table.nextId, name⟩ ∧
      (table.intern name).2.nextId = table.nextId + 1 ∧
      (table.intern name).2.generated = table.generated := by
  have hnew := table.aligned.key_eq_size_iff.2 (lookup_eq_none.1 h)
  simp [intern, hnew]

/-- Interning a name makes it known under the symbol that interning gives. -/
theorem lookup_intern (table : SymbolTable keys) (name : String) :
    (table.intern name).2.lookup name = some (table.intern name).1 := by
  cases h : table.lookup name with
  | some symbol => rw [intern_of_lookup h, h]
  | none =>
    obtain ⟨hsymbol, hnames, hcanonical, -⟩ := intern_new h
    rw [lookup, hnames, hcanonical, Interner.Lawful.new_get? (lookup_eq_none.1 h), if_pos rfl,
      Option.bind_some, ← table.aligned.size_eq, Array.getElem?_push_size, hsymbol]

/-- Interning a name leaves all other names as they were. -/
theorem lookup_intern_of_ne (table : SymbolTable keys) {name other : String} (h : other ≠ name) :
    (table.intern name).2.lookup other = table.lookup other := by
  cases hname : table.lookup name with
  | some symbol => rw [intern_of_lookup hname]
  | none =>
    obtain ⟨-, hnames, hcanonical, -⟩ := intern_new hname
    rw [lookup, hnames, hcanonical, Interner.Lawful.new_get? (lookup_eq_none.1 hname), if_neg h,
      lookup]
    cases hkey : keys.get? table.names other with
    | none => rfl
    | some key =>
      -- the place of another name is not the one behind the last symbol
      obtain ⟨s, hs, -⟩ := table.aligned.of_key hkey
      have hlt : key < table.canonical.size := (Array.getElem?_eq_some_iff.1 hs).1
      simp [Array.getElem?_push, Nat.ne_of_lt hlt]

end SymbolTable

end StackLisp


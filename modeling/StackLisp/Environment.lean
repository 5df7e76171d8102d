import StackLisp.Value.Basic
import Std.Data.ExtTreeSet

/-!
# Environments

An environment holds the bindings of one call and a link to the environment that encloses it.
Environments are numbered in the order of their creation and live in a heap, so that closures and
calls share them. A name is looked up from the inside out. The heap also knows which symbols are
bound anywhere, so that a symbol which never is, the usual case of a global name, is not searched
for along the links.

* `Environments.resolve` finds the environment that owns the nearest binding of a symbol.
* `Environments.get?` and `Environments.assign` read and overwrite that binding.
* `Environments.link` redirects the link of an existing environment.
* `Environments.resolve_eq` says that a look-up is a search along the links.
-/

namespace StackLisp

/-- Bindings of one scope, in the order in which the symbols were first bound. -/
abbrev Bindings := List (Symbol × Value)

/-- The value that a symbol is bound to. -/
def Bindings.get? (symbol : Symbol) : Bindings → Option Value
  | [] => none
  | (bound, value) :: rest =>
    if bound = symbol then some value else Bindings.get? symbol rest

/-- Bind a symbol, replacing the binding it has. -/
def Bindings.insert (symbol : Symbol) (value : Value) : Bindings → Bindings
  | [] => [(symbol, value)]
  | (bound, old) :: rest =>
    if bound = symbol then (symbol, value) :: rest
    else (bound, old) :: Bindings.insert symbol value rest

/-- A symbol is bound to what was bound last, and other symbols keep their values. -/
theorem Bindings.get?_insert (bindings : Bindings) (symbol other : Symbol) (value : Value) :
    (bindings.insert symbol value).get? other =
      if symbol = other then some value else bindings.get? other := by
  induction bindings with
  | nil => simp [insert, get?]
  | cons binding rest ih =>
    obtain ⟨bound, old⟩ := binding
    by_cases h : bound = symbol
    · subst h
      by_cases ho : bound = other <;> simp [insert, get?, ho]
    · simp only [insert, h, if_false, get?, ih]
      by_cases ho : symbol = other
      · subst ho
        simp [h]
      · simp [ho]

/-- What is bound is the new value or was bound before. -/
theorem Bindings.eq_or_of_get?_insert {bindings : Bindings} {symbol other : Symbol}
    {value v : Value} (h : (bindings.insert symbol value).get? other = some v) :
    v = value ∨ bindings.get? other = some v := by
  rw [get?_insert] at h
  split at h
  · exact .inl (Option.some.inj h).symm
  · exact .inr h

/-- Bindings made one after the other; the last one of a symbol counts. -/
def Bindings.ofList (pairs : List (Symbol × Value)) : Bindings :=
  pairs.foldl (fun bindings pair => bindings.insert pair.1 pair.2) []

/-- The identities of the bound symbols, added to a set of identities. -/
def Bindings.addTo (ids : Std.ExtTreeSet Nat) : Bindings → Std.ExtTreeSet Nat
  | [] => ids
  | (bound, _) :: rest => Bindings.addTo (ids.insert bound.id) rest

/-- A set holds the identity of every bound symbol. -/
def Bindings.Within (bindings : Bindings) (ids : Std.ExtTreeSet Nat) : Prop :=
  ∀ symbol value, bindings.get? symbol = some value → symbol.id ∈ ids

namespace Bindings

/-- Adding identities keeps those that are there. -/
theorem mem_addTo (bindings : Bindings) {ids : Std.ExtTreeSet Nat} {id : Nat} (h : id ∈ ids) :
    id ∈ bindings.addTo ids := by
  induction bindings generalizing ids with
  | nil => exact h
  | cons binding rest ih => exact ih (by simp [h])

/-- The identities of the bound symbols are among those added. -/
theorem within_addTo (bindings : Bindings) (ids : Std.ExtTreeSet Nat) :
    bindings.Within (bindings.addTo ids) := by
  intro symbol value h
  induction bindings generalizing ids with
  | nil => simp [get?] at h
  | cons binding rest ih =>
    obtain ⟨bound, old⟩ := binding
    by_cases hb : bound = symbol
    · subst hb
      exact mem_addTo rest (by simp)
    · exact ih _ (by simpa [get?, hb] using h)

/-- Bindings stay within a set that grows. -/
theorem Within.mono {bindings : Bindings} {ids more : Std.ExtTreeSet Nat} (h : bindings.Within ids)
    (hm : ∀ id ∈ ids, id ∈ more) : bindings.Within more :=
  fun symbol value hv => hm _ (h symbol value hv)

/-- One more binding needs one more identity. -/
theorem Within.insert {bindings : Bindings} {ids : Std.ExtTreeSet Nat} (h : bindings.Within ids)
    (symbol : Symbol) (value : Value) :
    (bindings.insert symbol value).Within (ids.insert symbol.id) := by
  intro other found hf
  rw [get?_insert] at hf
  by_cases hs : symbol = other
  · simp [hs]
  · have := h other found (by simpa [hs] using hf)
    simp [this]

end Bindings

/-- The bindings of a call and the environment around them. -/
structure Environment where
  /-- The bindings of this scope alone. -/
  bindings : Bindings
  /-- The enclosing environment. -/
  next : Option EnvId
deriving Inhabited

/-- All environments, by number. -/
structure Environments where
  /-- The environment of each number. -/
  heap : Array Environment := #[]
  /-- The identities of the symbols that some environment binds. -/
  bound : Std.ExtTreeSet Nat := ∅
  /-- No environment binds another symbol. -/
  within_bound : ∀ (env : EnvId) (e : Environment), heap[env]? = some e →
    e.bindings.Within bound := by simp

namespace Environments

/-- The heap without environments. -/
def empty : Environments := {}

instance : Inhabited Environments := ⟨empty⟩

/-- How many environments there are. -/
def size (envs : Environments) : Nat :=
  envs.heap.size

/-- A new environment with the given bindings. -/
def create (envs : Environments) (bindings : Bindings) (next : Option EnvId) :
    EnvId × Environments :=
  (envs.heap.size,
    { heap := envs.heap.push { bindings, next }
      bound := bindings.addTo envs.bound
      within_bound := by
        intro env e h
        rw [Array.getElem?_push] at h
        split at h
        · cases h
          exact Bindings.within_addTo bindings envs.bound
        · exact (envs.within_bound env e h).mono fun _ hid => bindings.mem_addTo hid })

/-- The environment that an environment links to. -/
def next? (envs : Environments) (env : EnvId) : Option EnvId :=
  envs.heap[env]?.bind (·.next)

/-- The bindings of an environment's own scope. -/
def bindings (envs : Environments) (env : EnvId) : Bindings :=
  match envs.heap[env]? with
  | some e => e.bindings
  | none => []

/-- The environment itself binds the symbol. -/
def contains (envs : Environments) (env : EnvId) (symbol : Symbol) : Bool :=
  ((envs.bindings env).get? symbol).isSome

/-- Bind a symbol in the environment's own scope. -/
def define (envs : Environments) (env : EnvId) (symbol : Symbol) (value : Value) :
    Environments :=
  { heap := envs.heap.modify env fun e => { e with bindings := e.bindings.insert symbol value }
    bound := envs.bound.insert symbol.id
    within_bound := by
      intro other e h
      rw [Array.getElem?_modify] at h
      split at h
      · obtain ⟨old, ho, rfl⟩ := Option.map_eq_some_iff.1 h
        exact (envs.within_bound other old ho).insert symbol value
      · exact (envs.within_bound other e h).mono fun _ hid => by simp [hid] }

/-- Let an environment be enclosed by another. -/
def link (envs : Environments) (env next : EnvId) : Environments :=
  { heap := envs.heap.modify env fun e => { e with next := some next }
    bound := envs.bound
    within_bound := by
      intro other e h
      rw [Array.getElem?_modify] at h
      split at h
      · obtain ⟨old, ho, rfl⟩ := Option.map_eq_some_iff.1 h
        exact envs.within_bound other old ho
      · exact envs.within_bound other e h }

/-- A new environment takes the next number. -/
theorem size_create (envs : Environments) (bindings : Bindings) (next : Option EnvId) :
    (envs.create bindings next).2.size = envs.size + 1 := by
  simp [create, size]

/-- Binding a symbol makes no environment. -/
theorem size_define (envs : Environments) (env : EnvId) (symbol : Symbol) (value : Value) :
    (envs.define env symbol value).size = envs.size := by
  simp [define, size]

/-- Linking makes no environment. -/
theorem size_link (envs : Environments) (env next : EnvId) :
    (envs.link env next).size = envs.size := by
  simp [link, size]

/-- Follow at most `steps` environments from `env` on to the first that binds the symbol. -/
def resolveWithin (envs : Environments) (symbol : Symbol) : (steps : Nat) → EnvId →
    Option (EnvId × Value)
  | 0, _ => none
  | steps + 1, env =>
    match envs.heap[env]? with
    | none => none
    | some e =>
      match e.bindings.get? symbol with
      | some value => some (env, value)
      | none =>
        match e.next with
        | some next => resolveWithin envs symbol steps next
        | none => none

/-- The nearest binding of a symbol and the environment that owns it. A chain without a cycle is
no longer than the heap, and a symbol that is bound nowhere need not be searched for. -/
def resolve (envs : Environments) (env : EnvId) (symbol : Symbol) : Option (EnvId × Value) :=
  if envs.bound.contains symbol.id then resolveWithin envs symbol envs.size env else none

/-- A search finds no symbol that is bound nowhere. -/
theorem resolveWithin_of_not_mem (envs : Environments) {symbol : Symbol}
    (h : symbol.id ∉ envs.bound) (steps : Nat) (env : EnvId) :
    resolveWithin envs symbol steps env = none := by
  induction steps generalizing env with
  | zero => rfl
  | succ steps ih =>
    unfold resolveWithin
    split
    · rfl
    · rename_i e he
      split
      · rename_i value hv
        exact absurd (envs.within_bound env e he symbol value hv) h
      · split
        · exact ih _
        · rfl

/-- The nearest binding is the one that a search along the links finds. -/
theorem resolve_eq (envs : Environments) (env : EnvId) (symbol : Symbol) :
    envs.resolve env symbol = resolveWithin envs symbol envs.size env := by
  unfold resolve
  split
  · rfl
  · rename_i h
    rw [resolveWithin_of_not_mem envs (by simpa using h)]

/-- The value of a symbol, seen from an environment. -/
def get? (envs : Environments) (env : EnvId) (symbol : Symbol) : Option Value :=
  (envs.resolve env symbol).map (·.2)

/-- Overwrite the nearest binding of a symbol, and tell whether there is one. -/
def assign (envs : Environments) (env : EnvId) (symbol : Symbol) (value : Value) :
    Bool × Environments :=
  match envs.resolve env symbol with
  | some (owner, _) => (true, envs.define owner symbol value)
  | none => (false, envs)

end Environments

end StackLisp

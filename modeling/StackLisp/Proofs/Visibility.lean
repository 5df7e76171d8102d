import StackLisp.Proofs.Meanings
import StackLisp.Proofs.Reference
import StackLisp.Proofs.Running

/-!
# What names stand for

Code knows symbols, and looks them up in environments and among the global bindings. Here the names
of the symbols take their place: a call sees variables, which are names with values, and knows
global values by their names.

- `Environments.Sees`: the variables that are seen from an environment;
- `Engine.Knows`: the global value of a name;
- `FunctionOf`: the closure was made from a function literal, where some variables are seen;
- `FunctionOf.enter`: a call of it sees its parameters, and behind them those variables.
-/

namespace StackLisp

/-- Names with the values that they stand for, the innermost first. -/
abbrev Variables := List (String × Value)

/-- The bindings of one scope, by names. -/
def Bindings.Binds (bindings : Bindings) (table : SymbolTable) (vars : Variables) : Prop :=
  ∀ name s, table.lookup name = some s → bindings.get? s = vars.lookup name

/-- The variables that are seen from an environment along its links. -/
inductive Environments.Sees (envs : Environments) (table : SymbolTable) : EnvId → Variables → Prop
  | outermost {env : EnvId} {bindings : Bindings} {vars : Variables} :
      envs.heap[env]? = some ⟨bindings, none⟩ → bindings.Binds table vars →
      Sees envs table env vars
  | inner {env next : EnvId} {bindings : Bindings} {vars outer : Variables} :
      envs.heap[env]? = some ⟨bindings, some next⟩ → next < env → bindings.Binds table vars →
      Sees envs table next outer → Sees envs table env (vars ++ outer)

/-- The name has a global value. -/
def Engine.Knows (e : Engine) (table : SymbolTable) (name : String) (v : Value) : Prop :=
  ∃ s, table.lookup name = some s ∧ e.global? s = some v

variable {table : SymbolTable}

/-- A name has one global value at most. -/
theorem Engine.Knows.unique {e : Engine} {name : String} {v w : Value} (hv : e.Knows table name v)
    (hw : e.Knows table name w) : v = w := by
  obtain ⟨s, hs, hglobal⟩ := hv
  obtain ⟨s', hs', hglobal'⟩ := hw
  obtain rfl := Option.some.inj (hs.symm.trans hs')
  exact Option.some.inj (hglobal.symm.trans hglobal')

theorem Engine.Knows.globalNamed?_eq {e : Engine} {name : String} {v : Value}
    (h : e.Knows e.store.symbols name v) : e.globalNamed? name = some v := by
  obtain ⟨s, hs, hglobal⟩ := h
  rw [globalNamed?, hs, Option.bind_some, hglobal]

theorem Bindings.binds_nil (table : SymbolTable) : Bindings.Binds [] table [] :=
  fun _ _ _ => rfl

/-- One more binding is one more variable. -/
theorem Bindings.Binds.insert {bindings : Bindings} {vars : Variables} (hn : table.Named)
    (h : bindings.Binds table vars) {name : String} {s : Symbol} (hs : table.lookup name = some s)
    (v : Value) : (bindings.insert s v).Binds table ((name, v) :: vars) := by
  intro other s' hs'
  rw [Bindings.get?_insert, List.lookup_cons, h other s' hs']
  by_cases hname : name = other
  · rw [if_pos ((hn.eq_iff hs hs').2 hname), hname, beq_self_eq_true]
  · rw [if_neg fun hsymbol => hname ((hn.eq_iff hs hs').1 hsymbol),
      beq_eq_false_iff_ne.2 (Ne.symm hname)]

namespace Environments.Sees

variable {envs envs' : Environments} {env : EnvId} {vars : Variables}

/-- Environments that stay as they are see what they saw. -/
theorem kept (h : envs.Sees table env vars)
    (hkept : ∀ {env : EnvId} {scope : Environment}, envs.heap[env]? = some scope →
      envs'.heap[env]? = some scope) : envs'.Sees table env vars := by
  induction h with
  | outermost henv hbinds => exact .outermost (hkept henv) hbinds
  | inner henv hlt hbinds _ ih => exact .inner (hkept henv) hlt hbinds ih

theorem lt_size (h : envs.Sees table env vars) : env < envs.size := by
  cases h with
  | outermost henv _ => exact (Array.getElem?_eq_some_iff.1 henv).1
  | inner henv _ _ _ => exact (Array.getElem?_eq_some_iff.1 henv).1

/-- A look-up finds the variable of the symbol's name. -/
theorem get? (h : envs.Sees table env vars) {name : String} {s : Symbol}
    (hs : table.lookup name = some s) : envs.get? env s = vars.lookup name := by
  have hwithin : ∀ steps, env < steps →
      (envs.resolveWithin s steps env).map (·.2) = vars.lookup name := by
    -- links lead to environments with lower numbers, so there are steps enough
    induction h with
    | outermost henv hbinds =>
      intro steps hlt
      obtain ⟨steps, rfl⟩ := Nat.exists_eq_succ_of_ne_zero (Nat.ne_zero_of_lt hlt)
      rw [resolveWithin, henv, ← hbinds name s hs]
      simp only
      cases Bindings.get? s _ <;> rfl
    | @inner env next _ _ _ henv hnext hbinds _ ih =>
      intro steps hlt
      obtain ⟨steps, rfl⟩ := Nat.exists_eq_succ_of_ne_zero (Nat.ne_zero_of_lt hlt)
      rw [resolveWithin, henv, List.lookup_append, ← hbinds name s hs]
      simp only
      cases Bindings.get? s _ with
      | some v => rfl
      | none => exact ih steps (hnext.trans_le (Nat.le_of_lt_succ hlt))
  rw [Environments.get?, resolve_eq, hwithin _ h.lt_size]

end Environments.Sees

/-! ## Calls -/

/-- The closure was made from a function literal, where the variables `outer` are seen. -/
structure FunctionOf (table : SymbolTable) (envs : Environments) (outer : Variables)
    (signature : Signature) (body : Expression) (c : Closure) : Prop where
  heads : signature.Heads table c
  body : ∃ t, c.Implements [t] ∧ body.Means table t
  scope : ∃ env, c.env = some env ∧ envs.Sees table env outer

theorem FunctionOf.kept {envs envs' : Environments} {outer : Variables} {signature : Signature}
    {body : Expression} {c : Closure} (h : FunctionOf table envs outer signature body c)
    (hkept : ∀ {env : EnvId} {scope : Environment}, envs.heap[env]? = some scope →
      envs'.heap[env]? = some scope) : FunctionOf table envs' outer signature body c where
  heads := h.heads
  body := h.body
  scope := by
    obtain ⟨env, henv, hsees⟩ := h.scope
    exact ⟨env, henv, hsees.kept hkept⟩

namespace Signature.Heads

open Reference Eval

variable {signature : Signature} {c : Closure} (h : signature.Heads table c)
include h

theorem parameter_eq {i : Nat} {name : String} (hi : signature.names[i]? = some name) :
    ∃ s, table.lookup name = some s ∧ CallFrame.parameter c i = .ok s := by
  obtain ⟨s, hs, hconstant⟩ := h.names i name hi
  exact ⟨s, hs, by rw [CallFrame.parameter, hconstant]⟩

/-- Positional parameters are bound to arguments one by one. -/
theorem bindPositional_eq (hn : table.Named) {names : List String} {args : List Value}
    {place : Nat} {bindings : Bindings} {vars : Variables} (hbinds : bindings.Binds table vars)
    (hnames : ∀ (i : Nat) (name : String), names[i]? = some name →
      signature.names[place + i]? = some name) (hlength : args.length = names.length) :
    ∃ bindings', bindPositional c place args bindings = .ok bindings' ∧
      bindings'.Binds table ((names.zip args).reverse ++ vars) := by
  induction args generalizing names place bindings vars with
  | nil =>
    obtain rfl := List.length_eq_zero_iff.1 hlength.symm
    exact ⟨bindings, rfl, hbinds⟩
  | cons v args ih =>
    obtain ⟨name, names, rfl⟩ := List.exists_cons_of_length_eq_add_one hlength.symm
    obtain ⟨s, hs, hparameter⟩ := h.parameter_eq (hnames 0 name rfl)
    obtain ⟨bindings', hrun, hbinds'⟩ := ih (hbinds.insert hn hs v)
      (fun i other hi => by rw [Nat.add_right_comm, Nat.add_assoc]; exact hnames (i + 1) other hi)
      (Nat.succ.inj hlength)
    refine ⟨bindings', ?_, ?_⟩
    · rw [bindPositional]
      exact (congrArg (· >>= fun s => bindPositional c (place + 1) args (bindings.insert s v))
        hparameter).trans hrun
    · simpa using hbinds'

/-- As many arguments as there are positional parameters are bound to these, the last one
nearest. -/
theorem bindPositional_all (hn : table.Named) {args : List Value}
    (hlength : args.length = signature.positional.length) :
    ∃ bindings : Bindings, bindPositional c 0 args [] = .ok bindings ∧
      bindings.Binds table (signature.positional.zip args).reverse := by
  have hnames : ∀ (i : Nat) (name : String), signature.positional[i]? = some name →
      signature.names[0 + i]? = some name := fun i name hi => by
    obtain ⟨hlt, -⟩ := List.getElem?_eq_some_iff.1 hi
    rw [Nat.zero_add, Signature.names, List.getElem?_append_left hlt, hi]
  simpa using h.bindPositional_eq hn (Bindings.binds_nil table) hnames hlength

/-- A function without a collecting parameter binds as many arguments as it has parameters. -/
theorem enter_fixed (hn : table.Named) (hrest : signature.rest = none) {args : List Value}
    (hlength : args.length = signature.positional.length) (t : Engine) :
    ∃ bindings : Bindings, bindings.Binds table (signature.positional.zip args).reverse ∧
      enter c args t = (.ok t.envs.size, { t with envs := (t.envs.create bindings c.env).2 }) := by
  obtain ⟨bindings, hrun, hbinds⟩ := h.bindPositional_all hn hlength
  exact ⟨bindings, hbinds, enter_of_bindPositional (h.positional.trans hlength.symm)
    (by rw [h.variadic, hrest]; rfl) hrun t⟩

/-- A function with a collecting parameter binds that to a list of all further arguments. -/
theorem enter_collecting (hn : table.Named) {rest : String} (hrest : signature.rest = some rest)
    {args others : List Value} (hlength : args.length = signature.positional.length) (t : Engine) :
    ∃ bindings : Bindings, bindings.Binds table
        ((rest, (t.store.list others).1) :: (signature.positional.zip args).reverse) ∧
      enter c (args ++ others) t = (.ok t.envs.size, { t with
        store := (t.store.list others).2
        envs := (t.envs.create bindings c.env).2 }) := by
  obtain ⟨bindings, hrun, hbinds⟩ := h.bindPositional_all hn hlength
  -- the collecting parameter comes last, so its list is inserted in front of the others
  have hlast : signature.names[c.positional]? = some rest := by
    rw [Signature.names, h.positional, List.getElem?_append_right le_rfl, Nat.sub_self, hrest]
    rfl
  obtain ⟨s, hs, hparameter⟩ := h.parameter_eq hlast
  have harity : CallFrame.checkArity c (args ++ others).length = .ok () := by
    simp [CallFrame.checkArity, h.positional, h.variadic, hrest, hlength]
  have hbindings : bindArguments c (args ++ others) t =
      (.ok (bindings.insert s (t.store.list others).1),
        { t with store := (t.store.list others).2 }) := by
    have htake : (args ++ others).take c.positional = args := by
      rw [h.positional, ← hlength, List.take_left]
    have hdrop : (args ++ others).drop c.positional = others := by
      rw [h.positional, ← hlength, List.drop_left]
    rw [bindArguments, htake, hdrop, hrun, bind_of_ok (ofExcept_ok _ t), h.variadic, hrest,
      hparameter]
    rfl
  refine ⟨_, hbinds.insert hn hs _, ?_⟩
  rw [enter, harity, bind_of_ok (ofExcept_ok _ t), bind_of_ok hbindings]
  rfl

end Signature.Heads

end StackLisp

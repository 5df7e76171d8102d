import StackLisp.Proofs.Decompile
import StackLisp.Proofs.Emission
import StackLisp.Proofs.Expressions

/-!
# What expressions mean

The compiler turns a written expression into a term that does what the expression says, provided
that macros make of it what they should.

- `Expression.Means`: a term does what the expression says;
- `ReadsSomewhere.exists_expanded`: a term reads a form by what the form expands to;
- `Expression.policy`: what the compiler relies on when it compiles written expressions;
- `Expression.means_of_reads`: a term that reads a written expression does what it says.
-/

namespace StackLisp

/-- The function has the parameters of the signature. -/
structure Signature.Heads (s : Signature) (table : SymbolTable) (c : Closure) : Prop where
  positional : c.positional = s.positional.length
  variadic : c.variadic = s.rest.isSome
  names : ∀ (i : Nat) (name : String), s.names[i]? = some name →
    ∃ symbol, table.lookup name = some symbol ∧ c.constants[i]? = some (.symbol symbol)

/-- The term does what the expression says. -/
inductive Expression.Means (table : SymbolTable) : Expression → Term → Prop
  | constant {text : String} {v : Value} : literal? text = some v →
      Means table (.constant text) (.constant v)
  | string {text : String} {ref : Ref} : Means table (.string text) (.constant (.string ref text))
  | symbol {name : String} {s : Symbol} : table.lookup name = some s →
      Means table (.symbol name) (.constant (.symbol s))
  | lookup {name : String} {s : Symbol} : table.lookup name = some s →
      Means table (.lookup name) (.lookup s)
  | conditional {test consequent alternative : Expression} {t c a : Term} : Means table test t →
      Means table consequent c → Means table alternative a →
      Means table (.conditional test consequent alternative) (.conditional t c a)
  | call {callee : Expression} {args : List Expression} {t : Term} {ts : List Term} :
      Means table callee t → List.Forall₂ (Means table) args ts →
      Means table (.call callee args) (.call t ts)
  | function {name : Option String} {signature : Signature} {body : Expression}
      {template : Closure} {t : Term} : signature.Heads table template → template.env = none →
      template.Implements [t] → Means table body t →
      Means table (.function name signature body) (.function template)
  | define {name : String} {value : Expression} {s : Symbol} {t : Term} :
      table.lookup name = some s → Means table value t →
      Means table (.define name value) (.assignment .define s t)
  | binding {name : String} {value body : Expression} {t : Term} :
      Means table (.call (.function none ⟨[name], none⟩ body) [value]) t →
      Means table (.binding name value body) t
  | declare {isMacro : Bool} {name : String} {signature : Signature} {body : Expression}
      {t : Term} : Means table (core (.declare isMacro name signature body)) t →
      Means table (.declare isMacro name signature body) t

/-! ## Readings -/

section

variable {k : Keywords} {expands : Engine → Value → Value → Engine → Prop}
  {same : Value → Value → Prop}

/-- From one engine to another, whichever they are, the term reads the form. -/
def ReadsSomewhere (k : Keywords) (expands : Engine → Value → Value → Engine → Prop)
    (same : Value → Value → Prop) (v : Value) (term : Term) : Prop :=
  ∃ e e', Reads k expands same e v term e'

theorem InTurn.somewhere {e e' : Engine} {vs : List Value} {ts : List Term}
    (h : InTurn (Reads k expands same) e vs ts e') :
    List.Forall₂ (ReadsSomewhere k expands same) vs ts := by
  induction h with
  | nil => exact .nil
  | cons h _ ih => exact .cons ⟨_, _, h⟩ ih

/-- The term reads the parts of a shape. -/
def ReadsSomewhere.Parts (k : Keywords) (expands : Engine → Value → Value → Engine → Prop)
    (same : Value → Value → Prop) (term : Term) : Shape → Prop
  | .function literal => ∃ template body, term = .function template ∧ literal.Heads template ∧
      template.Implements body ∧
      (literal.body ≠ [] → List.Forall₂ (ReadsSomewhere k expands same) literal.body body)
  | .quotation v => ∃ u, same u v ∧ term = .constant u
  | .conditional test consequent alternative => ∃ t c a, term = .conditional t c a ∧
      ReadsSomewhere k expands same test t ∧ ReadsSomewhere k expands same consequent c ∧
      ReadsSomewhere k expands same alternative a
  | .assignment way target value => ∃ t, term = .assignment way target t ∧
      ReadsSomewhere k expands same value t
  | .call callee args => ∃ t ts, term = .call t ts ∧ ReadsSomewhere k expands same callee t ∧
      List.Forall₂ (ReadsSomewhere k expands same) args ts

/-- The term reads a form that was expanded. -/
def ReadsSomewhere.Expanded (k : Keywords) (expands : Engine → Value → Value → Engine → Prop)
    (same : Value → Value → Prop) (term : Term) : Value → Prop
  | .list _ head others => ∃ shape, Shape.ofItems k head others = .ok shape ∧
      Parts k expands same term shape
  | .symbol s => term = .lookup s
  | v => ∃ u, same u v ∧ term = .constant u

theorem ReadsSomewhere.Expanded.parts {ref : Ref} {head : Value} {others : List Value}
    {shape : Shape} {term : Term} (h : Expanded k expands same term (.list ref head others))
    (hshape : Shape.ofItems k head others = .ok shape) : Parts k expands same term shape := by
  obtain ⟨_, hread, hparts⟩ := h
  obtain rfl := Except.ok.inj (hread.symm.trans hshape)
  exact hparts

/-- A term reads a form by what the form expands to. -/
theorem ReadsSomewhere.exists_expanded {v : Value} {term : Term}
    (h : ReadsSomewhere k expands same v term) :
    ∃ e w e', expands e v w e' ∧ Expanded k expands same term w := by
  obtain ⟨e, e', h⟩ := h
  cases h with
  | @atom _ _ _ w u hexpands hatom hsymbol hu =>
    refine ⟨e, w, e', hexpands, ?_⟩
    -- an atom is neither a list nor a symbol
    cases w with
    | list => exact hatom.elim
    | symbol => cases hsymbol
    | _ => exact ⟨u, hu, rfl⟩
  | lookup hexpands => exact ⟨_, _, _, hexpands, rfl⟩
  | quotation hexpands hshape hu => exact ⟨_, _, _, hexpands, _, hshape, _, hu, rfl⟩
  | conditional hexpands hshape ht hc ha =>
    exact ⟨_, _, _, hexpands, _, hshape, _, _, _, rfl, ⟨_, _, ht⟩, ⟨_, _, hc⟩, _, _, ha⟩
  | assignment hexpands hshape ht => exact ⟨_, _, _, hexpands, _, hshape, _, rfl, _, _, ht⟩
  | function hexpands hshape hheads himplements _ _ hbody =>
    exact ⟨_, _, _, hexpands, _, hshape, _, _, rfl, hheads, himplements, fun _ => hbody.somewhere⟩
  | empty hexpands hshape hheads himplements _ hnil _ =>
    exact ⟨_, _, _, hexpands, _, hshape, _, _, rfl, hheads, himplements, fun hne => absurd hnil hne⟩
  | call hexpands hshape ht hts =>
    exact ⟨_, _, _, hexpands, _, hshape, _, _, rfl, ⟨_, _, ht⟩, hts.somewhere⟩

end

/-- Among values that are the same as it, the value of a literal is the only one. -/
theorem Value.eq_of_identical_literal {text : String} {u v : Value}
    (hv : Expression.literal? text = some v) (h : u.identity = v.identity) : u = v := by
  rcases Expression.literal?_cases hv with rfl | ⟨b, rfl⟩ | ⟨n, rfl⟩ <;>
    cases u <;> simp_all [identity, Number.ext_iff]

theorem ReadsSomewhere.Expanded.eq_constant {k : Keywords}
    {expands : Engine → Value → Value → Engine → Prop} {text : String} {v : Value} {term : Term}
    (hterm : Expanded k expands (·.identity = ·.identity) term v)
    (hv : Expression.literal? text = some v) : term = .constant v := by
  obtain ⟨u, hu, rfl⟩ : ∃ u : Value, u.identity = v.identity ∧ term = .constant u := by
    rcases Expression.literal?_cases hv with rfl | ⟨b, rfl⟩ | ⟨n, rfl⟩ <;> exact hterm
  rw [Value.eq_of_identical_literal hv hu]

namespace Expression

/-- The value is written as an expression, and its expansion as what the outermost macro makes of
that. -/
def Expands (texts : Ref → Option String) (table : SymbolTable) (macros : List String)
    (_ : Engine) (v w : Value) (_ : Engine) : Prop :=
  (∃ x : Expression, x.wellNamed macros = true ∧ v.Written texts table x.phrase) ∧
    ∀ x : Expression, x.wellNamed macros = true → v.Written texts table x.phrase →
      w.Written texts table x.core.phrase

section

variable {k : Keywords} {texts : Ref → Option String} {table : SymbolTable}
  {macros : List String} (hk : k.Canonical table) (hn : table.Named)
include hk hn

omit hk hn in
/-- What the compiler relies on when it compiles written expressions: what macros make of them. -/
def policy {ev : Evaluator} (hk : k.Canonical table) (hn : table.Named) (state : Engine → Prop)
    (hfresh : ∀ {e}, state e → state { e with store := e.store.fresh.2 })
    (hexpand : ∀ {e e' v w} {x : Expression}, state e → x.wellNamed macros = true →
      v.Written texts table x.phrase → Compiler.expandWithin ev k ev.fuel v e = (.ok w, e') →
      state e' ∧ w.Written texts table x.core.phrase) : Compiler.Policy ev k where
  World := Unit
  state _ := state
  form _ v := ∃ x : Expression, x.wellNamed macros = true ∧ v.Written texts table x.phrase
  value _ := Value.Labelled texts
  same u v := u.identity = v.identity
  expands := Expands texts table macros
  form_mono _ := id
  value_mono _ := id
  same_of_identity _ _ _ h := h
  parts {_ _ _ _ _ _ _ _} hexpands _ hshape := by
    obtain ⟨⟨x, hx, hv⟩, hcore⟩ := hexpands
    obtain ⟨shape, hread, hparts, -⟩ := parts_written hk hn hx (hcore x hx hv)
    obtain rfl := Except.ok.inj (hread.symm.trans hshape)
    exact hparts
  quoted {_ _ _ _ _ _ _ _} hexpands _ hshape := by
    obtain ⟨⟨x, hx, hv⟩, hcore⟩ := hexpands
    obtain ⟨shape, hread, -, hquoted⟩ := parts_written hk hn hx (hcore x hx hv)
    obtain ⟨s, rfl⟩ := hquoted _ (Except.ok.inj (hread.symm.trans hshape))
    exact fun _ _ h => nomatch h
  atom hform _ := by
    obtain ⟨x, -, hv⟩ := hform
    exact hv.labelled
  symbol _ _ _ _ h := nomatch h
  nil _ _ _ h := nomatch h
  fresh := hfresh
  expand {_ v e w e'} hs hform hrun := by
    obtain ⟨x, hx, hv⟩ := hform
    obtain ⟨hs', hw⟩ := hexpand hs hx hv hrun
    exact ⟨(), le_rfl, hs', ⟨_, wellNamed_core hx, hw⟩, ⟨x, hx, hv⟩, fun y hy hvy =>
      (hexpand hs hy hvy hrun).2⟩

/-! ## Terms that read written expressions -/

/-- Terms that read the written expression do what it says. -/
abbrev Follows (k : Keywords) (texts : Ref → Option String) (table : SymbolTable)
    (macros : List String) (x : Expression) : Prop :=
  ∀ (v : Value) (term : Term) (U : Closure → Prop), v.Written texts table x.phrase →
    ReadsSomewhere k (Expands texts table macros) (·.identity = ·.identity) v term →
    term.All (Value.Labelled texts) U → (∀ c, U c → c.Coded (Value.Labelled texts)) →
    x.Means table term

/-- So do terms that read it as it stands. -/
abbrev FollowsCore (k : Keywords) (texts : Ref → Option String) (table : SymbolTable)
    (macros : List String) (x : Expression) : Prop :=
  ∀ (w : Value) (term : Term) (U : Closure → Prop), w.Written texts table x.phrase →
    ReadsSomewhere.Expanded k (Expands texts table macros) (·.identity = ·.identity) term w →
    term.All (Value.Labelled texts) U →
    (∀ c, U c → c.Coded (Value.Labelled texts)) → x.Means table term

omit hk hn in
/-- An expression is compiled as what its outermost macro makes of it. -/
theorem FollowsCore.follows {x : Expression} (h : FollowsCore k texts table macros x.core)
    (hx : x.wellNamed macros = true) (hcore : ∀ t, x.core.Means table t → x.Means table t) :
    Follows k texts table macros x := by
  intro v term U hv hreads hall hU
  obtain ⟨_, w, _, hexpands, hterm⟩ := hreads.exists_expanded
  exact hcore _ (h _ _ _ (hexpands.2 x hx hv) hterm hall hU)

omit hk hn in
theorem means_all {xs : List Expression} (hxs : ∀ x ∈ xs, Follows k texts table macros x)
    {vs : List Value} {ts : List Term} {U : Closure → Prop}
    (hvs : List.Forall₂ (Value.Written texts table) vs (phrases xs))
    (hts : List.Forall₂ (ReadsSomewhere k (Expands texts table macros)
      (·.identity = ·.identity)) vs ts)
    (hall : ∀ t ∈ ts, t.All (Value.Labelled texts) U)
    (hU : ∀ c, U c → c.Coded (Value.Labelled texts)) : List.Forall₂ (Means table) xs ts := by
  induction xs generalizing vs ts with
  | nil =>
    cases hvs
    cases hts
    exact .nil
  | cons x xs ih =>
    cases hvs with
    | cons hv hvs =>
      cases hts with
      | cons ht hts =>
        rw [List.forall_mem_cons] at hxs hall
        exact .cons (hxs.1 _ _ _ hv ht hall.1 hU) (ih hxs.2 hvs hts hall.2)

omit hk hn in
theorem follows_constant {text : String}
    (hx : (constant text).wellNamed macros = true) :
    FollowsCore k texts table macros (.constant text) := by
  intro w term U hw hterm hall hU
  obtain ⟨u, hu⟩ := Option.isSome_iff_exists.1 hx
  cases hw with
  | literal hw => exact hterm.eq_constant hw ▸ .constant hw
  | symbol hname => simp [isName, hu] at hname

omit hk hn in
theorem follows_string {text : String} : FollowsCore k texts table macros (.string text) := by
  intro w term U hw hterm hall hU
  cases hw with
  | string htext =>
    obtain ⟨u, hu, rfl⟩ := hterm
    cases hall with
    | constant hlabelled =>
      rw [hlabelled _ _ hu htext]
      exact .string

omit hk hn in
theorem follows_lookup {name : String} (hname : isName name = true) :
    FollowsCore k texts table macros (.lookup name) := by
  intro w term U hw hterm hall hU
  obtain ⟨s, rfl, hs⟩ := hw.of_isName hname
  cases hterm
  exact .lookup hs

theorem follows_symbol {name : String} (hname : isName name = true) :
    FollowsCore k texts table macros (.symbol name) := by
  intro w term U hw hterm hall hU
  obtain ⟨ref, head, others, rfl⟩ : ∃ ref head others, w = .list ref head others := by
    cases hw
    exact ⟨_, _, _, rfl⟩
  obtain ⟨s, hs, hshape⟩ := shape_symbol hk hn hname hw
  obtain ⟨u, hu, rfl⟩ := hterm.parts hshape
  rw [Compiler.eq_symbol_of_identity hu]
  exact .symbol hs

theorem follows_define {name : String} {value : Expression} (hname : isName name = true)
    (hvalue : Follows k texts table macros value) :
    FollowsCore k texts table macros (.define name value) := by
  intro w term U hw hterm hall hU
  obtain ⟨ref, head, others, rfl, -⟩ := hw.of_list
  obtain ⟨s, v, hs, hv, hshape⟩ := shape_define hk hn hname hw
  obtain ⟨t, rfl, ht⟩ := hterm.parts hshape
  cases hall with
  | assignment hall => exact .define hs (hvalue _ _ _ hv ht hall hU)

theorem follows_conditional {test consequent alternative : Expression}
    (htest : Follows k texts table macros test)
    (hconsequent : Follows k texts table macros consequent)
    (halternative : Follows k texts table macros alternative) :
    FollowsCore k texts table macros (.conditional test consequent alternative) := by
  intro w term U hw hterm hall hU
  obtain ⟨ref, head, others, rfl, -⟩ := hw.of_list
  obtain ⟨u, v, w, hu, hv, hw, hshape⟩ := shape_conditional hk hn hw
  obtain ⟨t, c, a, rfl, ht, hc, ha⟩ := hterm.parts hshape
  cases hall with
  | conditional hallt hallc halla =>
    exact .conditional (htest _ _ _ hu ht hallt hU) (hconsequent _ _ _ hv hc hallc hU)
      (halternative _ _ _ hw ha halla hU)

theorem follows_call {callee : Expression} {args : List Expression}
    (hcallee : callee.isCallee = true) (hx : callee.wellNamed macros = true)
    (hfollows : Follows k texts table macros callee)
    (hargs : ∀ x ∈ args, Follows k texts table macros x) :
    FollowsCore k texts table macros (.call callee args) := by
  intro w term U hw hterm hall hU
  obtain ⟨ref, head, others, rfl, -⟩ := hw.of_list
  obtain ⟨hhead, hothers, hshape⟩ := shape_call hk hn hcallee hx hw
  obtain ⟨t, ts, rfl, ht, hts⟩ := hterm.parts hshape
  cases hall with
  | call hallt hallts =>
    exact .call (hfollows _ _ _ hhead ht hallt hU) (means_all hargs hothers hts hallts hU)

/-- A function literal is compiled to a template of its signature. -/
theorem follows_function {name : Option String} {signature : Signature} {body : Expression}
    (hx : (function name signature body).wellNamed macros = true)
    (hbody : Follows k texts table macros body) :
    FollowsCore k texts table macros (.function name signature body) := by
  intro w term U hw hterm hall hU
  obtain ⟨⟨hname, hsignature⟩, -⟩ := by simpa only [wellNamed, Bool.and_eq_true] using hx
  obtain ⟨ref, head, others, rfl, -⟩ := hw.of_list
  obtain ⟨literal, v, hshape, hv, hwritten, hpositional, hvariadic, hsymbols⟩ :=
    shape_function hk hn hname hsignature hw
  obtain ⟨template, terms, rfl, hheads, himplements, hreads⟩ := hterm.parts hshape
  rw [hv] at hreads
  obtain ⟨t, _, ht, hnil, rfl⟩ := List.forall₂_cons_left_iff.1 (hreads (List.cons_ne_nil v []))
  cases hnil
  cases hall with
  | function hunbound hcoded =>
    -- the template is decompiled to the terms that were read, as code has one reading
    obtain ⟨himplements', hterms⟩ := hU _ hcoded
    obtain rfl := himplements.terms_eq.symm.trans himplements'.terms_eq
    refine .function ⟨hheads.positional.trans hpositional, hheads.variadic.trans hvariadic,
      fun i name hi => ?_⟩ hunbound himplements
      (hbody _ _ _ hwritten ht (hterms t (List.mem_singleton_self t)) fun _ hc => hc)
    obtain ⟨s, hs, hlookup⟩ := exists_getElem?_of_forall₂ hsymbols hi
    exact ⟨s, hlookup, hheads.parameters i s hs⟩

/-- A binding is compiled as the call of a function literal. -/
theorem follows_binding {name : String} {value body : Expression}
    (hx : (binding name value body).wellNamed macros = true)
    (hvalue : Follows k texts table macros value) (hbody : Follows k texts table macros body) :
    Follows k texts table macros (.binding name value body) := by
  have hfunction : (function none ⟨[name], none⟩ body).wellNamed macros = true := by
    simp only [wellNamed, Bool.and_eq_true] at hx
    simp [wellNamed, Signature.names, hx]
  have hliteral : Follows k texts table macros (function none ⟨[name], none⟩ body) :=
    (follows_function hk hn hfunction hbody).follows hfunction fun _ => id
  have hcall := follows_call hk hn rfl hfunction hliteral fun x (hmem : x ∈ [value]) =>
    List.mem_singleton.1 hmem ▸ hvalue
  exact FollowsCore.follows hcall hx fun _ => .binding

/-- A declaration is compiled as the definition of a function literal, and that of a macro as the
definition of what `macro!` makes of one. -/
theorem follows_declare {isMacro : Bool} {name : String} {signature : Signature}
    {body : Expression} (hx : (declare isMacro name signature body).wellNamed macros = true)
    (hbody : Follows k texts table macros body) :
    Follows k texts table macros (.declare isMacro name signature body) := by
  obtain ⟨⟨⟨-, hname⟩, hsignature⟩, hwell⟩ := by
    simpa only [wellNamed, Bool.and_eq_true] using hx
  have hfunction : (function (some name) signature body).wellNamed macros = true := by
    simp only [wellNamed, Bool.and_eq_true]
    exact ⟨⟨by simpa using hname, hsignature⟩, hwell⟩
  have hliteral : Follows k texts table macros (function (some name) signature body) :=
    (follows_function hk hn hfunction hbody).follows hfunction fun _ => id
  refine FollowsCore.follows ?_ hx fun _ => .declare
  -- the core of a declaration is the definition of a function or of a marked one
  cases isMacro with
  | false => exact follows_define hk hn hname hliteral
  | true =>
    have hkind : (lookup "macro!").wellNamed macros = true := isName_macro
    have hcall := follows_call hk hn (by decide) hkind
      ((follows_lookup hkind).follows hkind fun _ => id)
      fun x (hmem : x ∈ [function (some name) signature body]) =>
        List.mem_singleton.1 hmem ▸ hliteral
    refine follows_define hk hn hname (FollowsCore.follows hcall ?_ fun _ => id)
    rw [wellNamed, allWellNamed, allWellNamed, hkind, hfunction]
    decide

/-- What the compiler makes of a written expression does what the expression says. -/
theorem means_of_reads {x : Expression} (hx : x.wellNamed macros = true) :
    Follows k texts table macros x := by
  -- by recursion on the expression, with a lemma for each form
  cases x with
  | constant text => exact (follows_constant hx).follows hx fun _ => id
  | string text => exact follows_string.follows hx fun _ => id
  | symbol name => exact (follows_symbol hk hn hx).follows hx fun _ => id
  | lookup name => exact (follows_lookup hx).follows hx fun _ => id
  | conditional test consequent alternative =>
    obtain ⟨⟨htest, hconsequent⟩, halternative⟩ := by
      simpa only [wellNamed, Bool.and_eq_true] using hx
    exact (follows_conditional hk hn (means_of_reads htest) (means_of_reads hconsequent)
      (means_of_reads halternative)).follows hx fun _ => id
  | call callee args =>
    obtain ⟨⟨hcallee, hname⟩, hargs⟩ := by simpa only [wellNamed, Bool.and_eq_true] using hx
    rw [allWellNamed_iff] at hargs
    exact (follows_call hk hn hcallee hname (means_of_reads hname) fun x hmem =>
      means_of_reads (hargs x hmem)).follows hx fun _ => id
  | function name signature body =>
    obtain ⟨-, hbody⟩ := by simpa only [wellNamed, Bool.and_eq_true] using hx
    exact (follows_function hk hn hx (means_of_reads hbody)).follows hx fun _ => id
  | define name value =>
    obtain ⟨hname, hvalue⟩ := by simpa only [wellNamed, Bool.and_eq_true] using hx
    exact (follows_define hk hn hname (means_of_reads hvalue)).follows hx fun _ => id
  | binding name value body =>
    obtain ⟨⟨-, hvalue⟩, hbody⟩ := by simpa only [wellNamed, Bool.and_eq_true] using hx
    exact follows_binding hk hn hx (means_of_reads hvalue) (means_of_reads hbody)
  | declare isMacro name signature body =>
    obtain ⟨-, hbody⟩ := by simpa only [wellNamed, Bool.and_eq_true] using hx
    exact follows_declare hk hn hx (means_of_reads hbody)
termination_by sizeOf x

end

end Expression

end StackLisp

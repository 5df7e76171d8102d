import StackLisp.Proofs.Language
import StackLisp.Proofs.Printing
import StackLisp.Proofs.Shapes

/-!
# Expressions

The part of the language that its own library is written in, as syntax trees with names. An
`Expression` is written as a phrase and read as a value, and the compiler takes that value for what
was written.

- `Expression.phrase`: how an expression is written;
- `Expression.core`: what its outermost macro makes of it;
- `Value.Written`: the value is written as a phrase says, with symbols known by their names;
- `Expression.shape_define`, `Expression.shape_function` and so on: what the compiler takes a
  written expression for;
- `Expression.parts_written`: the parts that it looks into are written expressions again.
-/

namespace StackLisp

/-- The names of a function's parameters. -/
structure Signature where
  /-- The parameters that are bound one by one. -/
  positional : List String
  /-- The parameter that collects further arguments. -/
  rest : Option String := none

/-- A form of the library. -/
inductive Expression where
  /-- An atom that stands for itself. -/
  | constant (text : String)
  | string (text : String)
  /-- A quoted symbol. -/
  | symbol (name : String)
  /-- What a name is bound to. -/
  | lookup (name : String)
  | conditional (test consequent alternative : Expression)
  | call (callee : Expression) (args : List Expression)
  | function (name : Option String) (signature : Signature) (body : Expression)
  | define (name : String) (value : Expression)
  /-- A value bound to a name by the macro `let`. -/
  | binding (name : String) (value body : Expression)
  /-- A global function, or a macro, defined by one of the macros for that. -/
  | declare (isMacro : Bool) (name : String) (signature : Signature) (body : Expression)

/-- All parameters, the collecting one last. -/
def Signature.names (s : Signature) : List String :=
  s.positional ++ s.rest.toList

/-- How a parameter list is written. -/
def Signature.phrases (s : Signature) : List Phrase :=
  s.positional.map .atom ++ (s.rest.toList.flatMap fun name => [.atom "&", .atom name])

namespace Expression

mutual

/-- How an expression is written. -/
def phrase : Expression → Phrase
  | .constant text => .atom text
  | .string text => .string text
  | .symbol name => .quoted (.atom name)
  | .lookup name => .atom name
  | .conditional test consequent alternative =>
    .list [.atom "if", test.phrase, consequent.phrase, alternative.phrase]
  | .call callee args => .list (callee.phrase :: phrases args)
  | .function name signature body =>
    .list (.atom "fn" :: ((name.map .atom).toList ++ [.list signature.phrases, body.phrase]))
  | .define name value => .list [.atom "def", .atom name, value.phrase]
  | .binding name value body =>
    .list [.atom "let", .list [.list [.atom name, value.phrase]], body.phrase]
  | .declare isMacro name signature body =>
    .list [.atom (if isMacro then "defmacro" else "defn"), .atom name, .list signature.phrases,
      body.phrase]

/-- How expressions are written one after the other. -/
def phrases : List Expression → List Phrase
  | [] => []
  | x :: xs => x.phrase :: phrases xs

end

/-- The value of an atom that stands for itself. -/
def literal? (text : String) : Option Value :=
  if text = "true" then some (.boolean true)
  else if text = "false" then some (.boolean false)
  else if text = "nil" then some .nil
  else (Decimal.read? text.toList).map .number

/-- Any other atom is a name. -/
def isName (text : String) : Bool :=
  (literal? text).isNone

/-- A parameter can have any name but that of the rest marker. -/
def isParameter (name : String) : Bool :=
  isName name && name ≠ "&"

/-- The names that mean something in front of a list: the special forms, and the macros of the
library. -/
def reserved : List String :=
  ["fn", "quote", "if", "def", "set!", "defmacro", "defn", "do", "let", "letfn", "or", "and",
    "when"]

/-- Functions are called by other names, or on the spot. -/
def isCallee : Expression → Bool
  | .lookup name => name ∉ reserved
  | .function _ _ _ => true
  | _ => false

mutual

/-- Names stand where names can stand, and of the macros only those in the list are used. -/
def wellNamed (macros : List String) : Expression → Bool
  | .constant text => (literal? text).isSome
  | .string _ => true
  | .symbol name => isName name
  | .lookup name => isName name
  | .conditional test consequent alternative =>
    test.wellNamed macros && consequent.wellNamed macros && alternative.wellNamed macros
  | .call callee args => callee.isCallee && callee.wellNamed macros && allWellNamed macros args
  | .function name signature body =>
    name.toList.all isName && signature.names.all isParameter && body.wellNamed macros
  | .define name value => isName name && value.wellNamed macros
  | .binding name value body =>
    "let" ∈ macros && isParameter name && value.wellNamed macros && body.wellNamed macros
  | .declare isMacro name signature body =>
    (if isMacro then "defmacro" else "defn") ∈ macros && isName name &&
      signature.names.all isParameter && body.wellNamed macros

/-- So it is in all of the expressions. -/
def allWellNamed (macros : List String) : List Expression → Bool
  | [] => true
  | x :: xs => x.wellNamed macros && allWellNamed macros xs

end

/-- The expression that the outermost macro gives. -/
def core : Expression → Expression
  | .binding name value body => .call (.function none ⟨[name], none⟩ body) [value]
  | .declare false name signature body => .define name (.function (some name) signature body)
  | .declare true name signature body =>
    .define name (.call (.lookup "macro!") [.function (some name) signature body])
  | x => x

/-- The names of special forms and of the rest marker are names. -/
theorem isName_keyword {name : String} (h : name ∈ ["fn", "quote", "if", "def", "set!", "&"]) :
    isName name = true := by
  have hall : ["fn", "quote", "if", "def", "set!", "&"].all isName = true := by decide +kernel
  exact List.all_eq_true.1 hall name h

theorem isName_macro : isName "macro!" = true := by decide +kernel

theorem phrases_eq_map (xs : List Expression) : phrases xs = xs.map phrase := by
  induction xs with
  | nil => rfl
  | cons x xs ih => rw [phrases, ih, List.map_cons]

theorem allWellNamed_iff {macros : List String} {xs : List Expression} :
    allWellNamed macros xs = true ↔ ∀ x ∈ xs, x.wellNamed macros = true := by
  induction xs with
  | nil => simp [allWellNamed]
  | cons x xs ih => rw [allWellNamed, Bool.and_eq_true, ih, List.forall_mem_cons]

theorem core_core (x : Expression) : x.core.core = x.core := by
  cases x with
  | declare isMacro => cases isMacro <;> rfl
  | _ => rfl

/-- What a macro makes of an expression uses no further macros. -/
theorem wellNamed_core {macros : List String} {x : Expression} (h : x.wellNamed macros = true) :
    x.core.wellNamed macros = true := by
  cases x with
  | binding name value body =>
    simp only [wellNamed, Bool.and_eq_true] at h
    simp [core, wellNamed, allWellNamed, isCallee, Signature.names, h]
  | declare isMacro name signature body =>
    simp only [wellNamed, Bool.and_eq_true] at h
    cases isMacro
    · simp [core, wellNamed, h]
    · simp [core, wellNamed, allWellNamed, isCallee, reserved, isName_macro, h]
  | _ => exact h

/-- An atom is read as the literal that it is, or else as the symbol of that name. -/
theorem atomValue_eq (store : Store) (text : String) :
    Phrase.atomValue store text = match literal? text with
      | some v => (v, store)
      | none => (.symbol (store.intern text).1, (store.intern text).2) := by
  unfold Phrase.atomValue literal?
  split_ifs
  · rfl
  · rfl
  · rfl
  · cases Decimal.read? text.toList <;> rfl

/-- Literals are atoms, and none of them is a symbol or has a place in memory. -/
theorem literal?_cases {text : String} {v : Value} (h : literal? text = some v) :
    v = .nil ∨ (∃ b, v = .boolean b) ∨ ∃ n, v = .number n := by
  unfold literal? at h
  split_ifs at h
  · exact .inr (.inl ⟨_, (Option.some.inj h).symm⟩)
  · exact .inr (.inl ⟨_, (Option.some.inj h).symm⟩)
  · exact .inl (Option.some.inj h).symm
  · obtain ⟨n, -, rfl⟩ := Option.map_eq_some_iff.1 h
    exact .inr (.inr ⟨n, rfl⟩)

end Expression

/-! ## Written values -/

/-- The value is written as the phrase says. Symbols are known by their names in the table, and
strings by their places in memory. -/
inductive Value.Written (texts : Ref → Option String) (table : SymbolTable) : Value → Phrase → Prop
  | literal {text : String} {v : Value} : Expression.literal? text = some v →
      Written texts table v (.atom text)
  | symbol {text : String} {s : Symbol} : Expression.isName text = true →
      table.lookup text = some s → Written texts table (.symbol s) (.atom text)
  | string {ref : Ref} {text : String} : texts ref = some text →
      Written texts table (.string ref text) (.string text)
  | quoted {ref : Ref} {quote : Symbol} {v : Value} {p : Phrase} : texts ref = none →
      table.lookup "quote" = some quote → Written texts table v p →
      Written texts table (.list ref (.symbol quote) [v]) (.quoted p)
  | nil : Written texts table .nil (.list [])
  | list {ref : Ref} {v : Value} {vs : List Value} {p : Phrase} {ps : List Phrase} :
      texts ref = none → Written texts table v p → List.Forall₂ (Written texts table) vs ps →
      Written texts table (.list ref v vs) (.list (p :: ps))

/-- A value that is in the place of a string is that string. -/
def Value.Labelled (texts : Ref → Option String) (v : Value) : Prop :=
  ∀ ref text, v.identity = .object ref → texts ref = some text → v = .string ref text

namespace Value.Written

variable {texts : Ref → Option String} {table : SymbolTable} {v : Value}

theorem of_isName {name : String} (h : v.Written texts table (.atom name))
    (hname : Expression.isName name = true) : ∃ s, v = .symbol s ∧ table.lookup name = some s := by
  cases h with
  | literal hv => simp [Expression.isName, hv] at hname
  | symbol _ hs => exact ⟨_, rfl, hs⟩

theorem of_list {p : Phrase} {ps : List Phrase} (h : v.Written texts table (.list (p :: ps))) :
    ∃ ref first others, v = .list ref first others ∧ texts ref = none ∧
      first.Written texts table p ∧ List.Forall₂ (Written texts table) others ps := by
  cases h with
  | list hr hfirst hothers => exact ⟨_, _, _, rfl, hr, hfirst, hothers⟩

theorem labelled {p : Phrase} (h : v.Written texts table p) : v.Labelled texts := by
  intro ref text hidentity htext
  cases h with
  | literal hv =>
    rcases Expression.literal?_cases hv with rfl | ⟨_, rfl⟩ | ⟨_, rfl⟩ <;> cases hidentity
  | symbol => cases hidentity
  | string hv =>
    cases hidentity
    obtain rfl := Option.some.inj (hv.symm.trans htext)
    rfl
  | quoted hr | list hr =>
    cases hidentity
    rw [hr] at htext
    cases htext
  | nil => cases hidentity

/-- The items of a written list are written. -/
theorem items? {ps : List Phrase} (h : v.Written texts table (.list ps)) :
    ∃ items, v.items? = some items ∧ List.Forall₂ (Written texts table) items ps := by
  cases h with
  | nil => exact ⟨[], rfl, .nil⟩
  | list _ hfirst hothers => exact ⟨_, rfl, .cons hfirst hothers⟩

end Value.Written

/-- What two lists have at one place is related. -/
theorem exists_getElem?_of_forall₂ {α β : Type} {R : α → β → Prop} {as : List α} {bs : List β}
    (h : List.Forall₂ R as bs) {i : Nat} {a : α} (ha : as[i]? = some a) :
    ∃ b, bs[i]? = some b ∧ R a b := by
  induction h generalizing i with
  | nil => cases ha
  | cons hab _ ih =>
    cases i with
    | zero => exact ⟨_, rfl, Option.some.inj ha ▸ hab⟩
    | succ i => exact ih ha

/-! ## Keywords -/

/-- The special form that a name marks. -/
def Special.ofName? (name : String) : Option Special :=
  if name = "fn" then some .function
  else if name = "quote" then some .quotation
  else if name = "if" then some .conditional
  else if name = "def" then some (.assignment .define)
  else if name = "set!" then some (.assignment .overwrite)
  else none

/-- The keywords are the symbols of their names. -/
structure Keywords.Canonical (k : Keywords) (table : SymbolTable) : Prop where
  function : table.lookup "fn" = some k.function
  quote : table.lookup "quote" = some k.quote
  conditional : table.lookup "if" = some k.conditional
  define : table.lookup "def" = some k.define
  assign : table.lookup "set!" = some k.assign
  rest : table.lookup "&" = some k.rest

/-- Symbols of one table are the same if they have the same name. -/
theorem SymbolTable.Named.eq_iff {table : SymbolTable} (hn : table.Named) {name other : String}
    {s s' : Symbol} (h : table.lookup name = some s) (h' : table.lookup other = some s') :
    s = s' ↔ name = other := by
  constructor
  · rintro rfl
    rw [← hn _ _ h, ← hn _ _ h']
  · rintro rfl
    exact Option.some.inj (h.symm.trans h')

namespace Keywords.Canonical

variable {k : Keywords} {table table' : SymbolTable}

theorem mono (h : k.Canonical table) (hext : table.Extends table') : k.Canonical table' where
  function := hext.known h.function
  quote := hext.known h.quote
  conditional := hext.known h.conditional
  define := hext.known h.define
  assign := hext.known h.assign
  rest := hext.known h.rest

/-- A symbol marks what its name marks. -/
theorem special?_eq (h : k.Canonical table) (hn : table.Named) {name : String} {s : Symbol}
    (hs : table.lookup name = some s) : k.special? (.symbol s) = Special.ofName? name := by
  simp only [Keywords.special?, Special.ofName?, hn.eq_iff hs h.function, hn.eq_iff hs h.quote,
    hn.eq_iff hs h.conditional, hn.eq_iff hs h.define, hn.eq_iff hs h.assign]

end Keywords.Canonical

namespace Expression

section

variable {k : Keywords} {texts : Ref → Option String} {table : SymbolTable}
  {macros : List String} (hk : k.Canonical table) (hn : table.Named)
include hk hn

/-! ## The shapes of written expressions -/

section Shapes

variable {ref : Ref} {head : Value} {others : List Value}

/-- The keyword in front of a list marks its special form. -/
theorem special?_keyword {name : String} {special : Special} {v : Value}
    (hname : name ∈ ["fn", "quote", "if", "def", "set!", "&"])
    (hspecial : Special.ofName? name = some special) (hv : v.Written texts table (.atom name)) :
    k.special? v = some special := by
  obtain ⟨s, rfl, hs⟩ := hv.of_isName (isName_keyword hname)
  exact (hk.special?_eq hn hs).trans hspecial

/-- What stands in front of a call marks no special form. -/
theorem special?_callee {callee : Expression} (hcallee : callee.isCallee = true)
    (hx : callee.wellNamed macros = true) {v : Value}
    (hv : v.Written texts table callee.phrase) : k.special? v = none := by
  cases callee with
  | lookup name =>
    obtain ⟨s, rfl, hs⟩ := hv.of_isName hx
    rw [hk.special?_eq hn hs, Special.ofName?]
    simp only [isCallee, reserved, List.mem_cons, decide_eq_true_eq, not_or] at hcallee
    simp [hcallee]
  | function name signature body =>
    obtain ⟨_, _, _, rfl, -⟩ := hv.of_list
    rfl
  | _ => cases hcallee

theorem shape_symbol {name : String} (hname : isName name = true)
    (hw : Value.Written texts table (.list ref head others) (symbol name).phrase) :
    ∃ s, table.lookup name = some s ∧
      Shape.ofItems k head others = .ok (.quotation (.symbol s)) := by
  cases hw with
  | quoted _ hquote hv =>
    obtain ⟨s, rfl, hs⟩ := hv.of_isName hname
    exact ⟨s, hs, Shape.ofItems_eq_ok_iff.2 ⟨hk.special?_eq hn hquote, [], rfl⟩⟩

theorem shape_define {name : String} {value : Expression} (hname : isName name = true)
    (hw : Value.Written texts table (.list ref head others) (define name value).phrase) :
    ∃ s v, table.lookup name = some s ∧ v.Written texts table value.phrase ∧
      Shape.ofItems k head others = .ok (.assignment .define s v) := by
  obtain ⟨_, _, _, ⟨⟩, -, hhead, hothers⟩ := hw.of_list
  obtain ⟨target, _, htarget, hvalues, rfl⟩ := List.forall₂_cons_right_iff.1 hothers
  obtain ⟨v, extra, hv, -, rfl⟩ := List.forall₂_cons_right_iff.1 hvalues
  obtain ⟨s, rfl, hs⟩ := htarget.of_isName hname
  exact ⟨s, v, hs, hv, Shape.ofItems_eq_ok_iff.2
    ⟨special?_keyword hk hn (by simp) rfl hhead, extra, rfl⟩⟩

theorem shape_conditional {test consequent alternative : Expression}
    (hw : Value.Written texts table (.list ref head others)
      (conditional test consequent alternative).phrase) :
    ∃ t c a, t.Written texts table test.phrase ∧ c.Written texts table consequent.phrase ∧
      a.Written texts table alternative.phrase ∧
      Shape.ofItems k head others = .ok (.conditional t c a) := by
  obtain ⟨_, _, _, ⟨⟩, -, hhead, hothers⟩ := hw.of_list
  obtain ⟨t, _, ht, hbranches, rfl⟩ := List.forall₂_cons_right_iff.1 hothers
  obtain ⟨c, _, hc, hlast, rfl⟩ := List.forall₂_cons_right_iff.1 hbranches
  obtain ⟨a, extra, ha, -, rfl⟩ := List.forall₂_cons_right_iff.1 hlast
  exact ⟨t, c, a, ht, hc, ha, Shape.ofItems_eq_ok_iff.2
    ⟨special?_keyword hk hn (by simp) rfl hhead, a :: extra, rfl, rfl⟩⟩

theorem shape_call {callee : Expression} {args : List Expression}
    (hcallee : callee.isCallee = true) (hx : callee.wellNamed macros = true)
    (hw : Value.Written texts table (.list ref head others) (call callee args).phrase) :
    head.Written texts table callee.phrase ∧
      List.Forall₂ (Value.Written texts table) others (phrases args) ∧
      Shape.ofItems k head others = .ok (.call head others) := by
  obtain ⟨_, _, _, ⟨⟩, -, hhead, hothers⟩ := hw.of_list
  exact ⟨hhead, hothers, Shape.ofItems_eq_ok_iff.2
    ⟨special?_callee hk hn hcallee hx hhead, rfl, rfl⟩⟩

/-- Written parameters are read as the signature that they are written for. -/
theorem named_of_written {signature : Signature} {names : List Value}
    (hsignature : signature.names.all isParameter = true)
    (hnames : List.Forall₂ (Value.Written texts table) names signature.phrases) :
    ∃ parameters : Parameters, parameters.Named k.rest names ∧
      parameters.positional = signature.positional.length ∧
      parameters.variadic = signature.rest.isSome ∧
      List.Forall₂ (fun name s => table.lookup name = some s) signature.names
        parameters.symbols := by
  obtain ⟨positional, rest⟩ := signature
  simp only [Signature.names, Signature.phrases] at hsignature hnames ⊢
  induction positional generalizing names with
  | nil =>
    cases rest with
    | none =>
      cases hnames
      exact ⟨_, Parameters.named_nil_iff.2 rfl, rfl, rfl, .nil⟩
    | some name =>
      have hname : isName name = true := by simp_all [isParameter]
      -- the rest marker stands before the only parameter
      obtain ⟨marker, _, hmarker, hbehind, rfl⟩ := List.forall₂_cons_right_iff.1 hnames
      obtain ⟨last, _, hlast, hnil, rfl⟩ := List.forall₂_cons_right_iff.1 hbehind
      cases hnil
      obtain ⟨s, rfl, hs⟩ := hmarker.of_isName (isName_keyword (by simp))
      obtain ⟨s', rfl, hs'⟩ := hlast.of_isName hname
      obtain rfl := Option.some.inj (hk.rest.symm.trans hs)
      exact ⟨_, Parameters.named_cons_iff.2 ⟨_, rfl, .inl ⟨rfl, s', rfl, rfl⟩⟩, rfl, rfl,
        .cons hs' .nil⟩
  | cons name positional ih =>
    simp only [List.cons_append, List.all_cons, Bool.and_eq_true] at hsignature
    obtain ⟨hname, hne⟩ : isName name = true ∧ name ≠ "&" := by
      simpa [isParameter] using hsignature.1
    obtain ⟨v, others, hv, hothers, rfl⟩ := List.forall₂_cons_right_iff.1 hnames
    obtain ⟨s, rfl, hs⟩ := hv.of_isName hname
    obtain ⟨more, hmore, hpositional, hvariadic, hsymbols⟩ := ih hsignature.2 hothers
    have hrest : s ≠ k.rest := fun hrest => hne ((hn.eq_iff hs hk.rest).1 hrest)
    exact ⟨_, Parameters.named_cons_iff.2 ⟨s, rfl, .inr ⟨hrest, more, hmore, rfl⟩⟩,
      congrArg (· + 1) hpositional, hvariadic, .cons hs hsymbols⟩

omit hk hn in
/-- A written function literal consists of a name or none, the parameter list and the body. -/
theorem parts_of_function {name : Option String} {signature : Signature} {body : Expression}
    (hname : name.toList.all isName = true)
    (h : List.Forall₂ (Value.Written texts table) others
      ((name.map .atom).toList ++ [.list signature.phrases, body.phrase])) :
    ∃ (given : Option Symbol) (listed v : Value),
      others = (given.map .symbol).toList ++ [listed, v] ∧
        listed.Written texts table (.list signature.phrases) ∧
        v.Written texts table body.phrase := by
  -- with or without a name, two parts are left
  have htwo : ∀ {vs : List Value},
      List.Forall₂ (Value.Written texts table) vs [.list signature.phrases, body.phrase] →
      ∃ listed v, vs = [listed, v] ∧ listed.Written texts table (.list signature.phrases) ∧
        v.Written texts table body.phrase := by
    intro vs hvs
    obtain ⟨listed, _, hlisted, hbehind, rfl⟩ := List.forall₂_cons_right_iff.1 hvs
    obtain ⟨v, _, hv, hnil, rfl⟩ := List.forall₂_cons_right_iff.1 hbehind
    cases hnil
    exact ⟨listed, v, rfl, hlisted, hv⟩
  cases name with
  | none =>
    obtain ⟨listed, v, rfl, hwritten⟩ := htwo h
    exact ⟨none, listed, v, rfl, hwritten⟩
  | some name =>
    obtain ⟨given, behind, hgiven, hbehind, rfl⟩ := List.forall₂_cons_right_iff.1 h
    obtain ⟨s, rfl, -⟩ := hgiven.of_isName (by simpa using hname)
    obtain ⟨listed, v, rfl, hwritten⟩ := htwo hbehind
    exact ⟨some s, listed, v, rfl, hwritten⟩

theorem shape_function {name : Option String} {signature : Signature} {body : Expression}
    (hname : name.toList.all isName = true) (hsignature : signature.names.all isParameter = true)
    (hw : Value.Written texts table (.list ref head others)
      (function name signature body).phrase) :
    ∃ literal v, Shape.ofItems k head others = .ok (.function literal) ∧ literal.body = [v] ∧
      v.Written texts table body.phrase ∧
      literal.parameters.positional = signature.positional.length ∧
      literal.parameters.variadic = signature.rest.isSome ∧
      List.Forall₂ (fun name s => table.lookup name = some s) signature.names
        literal.parameters.symbols := by
  obtain ⟨_, _, _, ⟨⟩, -, hhead, hothers⟩ := hw.of_list
  obtain ⟨given, listed, v, rfl, hlisted, hv⟩ := parts_of_function hname hothers
  obtain ⟨names, hitems, hnames⟩ := hlisted.items?
  obtain ⟨parameters, hnamed, hsymbols⟩ := named_of_written hk hn hsignature hnames
  exact ⟨⟨given, parameters, [v]⟩, v, Shape.ofItems_eq_ok_iff.2
    ⟨special?_keyword hk hn (by simp) rfl hhead, listed, names, rfl, hitems, hnamed⟩, rfl, hv,
    hsymbols⟩

/-- The parts of an expression's core are expressions again, and only symbols are quoted. -/
theorem parts_written {x : Expression} (hx : x.wellNamed macros = true)
    (hw : Value.Written texts table (.list ref head others) x.core.phrase) :
    ∃ shape, Shape.ofItems k head others = .ok shape ∧
      (∀ part ∈ shape.parts, ∃ y : Expression, y.wellNamed macros = true ∧
        part.Written texts table y.phrase) ∧ ∀ v, shape = .quotation v → ∃ s, v = .symbol s := by
  have hcore := core_core x
  -- a core is its own core, so only the forms that are no abbreviations are left
  replace hx := wellNamed_core hx
  generalize x.core = x at hcore hx hw
  cases x with
  | constant text =>
    cases hw with
    | literal hv => rcases literal?_cases hv with h | ⟨_, h⟩ | ⟨_, h⟩ <;> cases h
  | string text => cases hw
  | symbol name =>
    obtain ⟨s, -, hshape⟩ := shape_symbol hk hn hx hw
    exact ⟨_, hshape, fun _ h => absurd h List.not_mem_nil,
      fun v h => ⟨s, (Shape.quotation.inj h).symm⟩⟩
  | lookup name =>
    obtain ⟨_, h, -⟩ := hw.of_isName hx
    cases h
  | conditional test consequent alternative =>
    obtain ⟨⟨htest, hconsequent⟩, halternative⟩ := by
      simpa only [wellNamed, Bool.and_eq_true] using hx
    obtain ⟨t, c, a, ht, hc, ha, hshape⟩ := shape_conditional hk hn hw
    refine ⟨_, hshape, ?_, by rintro _ ⟨⟩⟩
    simp only [Shape.parts, List.forall_mem_cons]
    exact ⟨⟨_, htest, ht⟩, ⟨_, hconsequent, hc⟩, ⟨_, halternative, ha⟩,
      fun _ h => absurd h List.not_mem_nil⟩
  | call callee args =>
    obtain ⟨⟨hcallee, hname⟩, hargs⟩ := by simpa only [wellNamed, Bool.and_eq_true] using hx
    obtain ⟨hhead, hothers, hshape⟩ := shape_call hk hn hcallee hname hw
    rw [phrases_eq_map, List.forall₂_map_right_iff] at hothers
    refine ⟨_, hshape, ?_, by rintro _ ⟨⟩⟩
    refine List.forall_mem_cons.2 ⟨⟨callee, hname, hhead⟩, fun part hpart => ?_⟩
    obtain ⟨i, hi⟩ := List.getElem?_of_mem hpart
    obtain ⟨y, hy, hwritten⟩ := exists_getElem?_of_forall₂ hothers hi
    exact ⟨y, allWellNamed_iff.1 hargs y (List.mem_of_getElem? hy), hwritten⟩
  | function name signature body =>
    obtain ⟨⟨hname, hsignature⟩, hbody⟩ := by simpa only [wellNamed, Bool.and_eq_true] using hx
    obtain ⟨literal, v, hshape, hv, hwritten, -⟩ := shape_function hk hn hname hsignature hw
    refine ⟨_, hshape, ?_, by rintro _ ⟨⟩⟩
    simp only [Shape.parts, hv, List.forall_mem_singleton]
    exact ⟨_, hbody, hwritten⟩
  | define name value =>
    obtain ⟨hname, hvalue⟩ := by simpa only [wellNamed, Bool.and_eq_true] using hx
    obtain ⟨s, v, -, hv, hshape⟩ := shape_define hk hn hname hw
    refine ⟨_, hshape, ?_, by rintro _ ⟨⟩⟩
    simp only [Shape.parts, List.forall_mem_singleton]
    exact ⟨_, hvalue, hv⟩
  | binding => cases hcore
  | declare isMacro => cases isMacro <;> cases hcore

end Shapes

end

end Expression

end StackLisp

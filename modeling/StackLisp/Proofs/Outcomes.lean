import StackLisp.Proofs.Capture
import StackLisp.Proofs.Triples
import StackLisp.Proofs.Visibility

/-!
# What expressions come to

The rules for terms, lifted once more to the expressions that the terms do what they say. An
expression is evaluated where some variables are seen, at any later time; what is known of its
result is known of it whenever that is.

- `Setting`: what evaluates expressions, and how the engine may change meanwhile;
- `Setting.Comes`, `Setting.ComeAll`: what expressions come to;
- `Setting.Replies`: what calls of a value come to;
- `Setting.Comes.call`, `Setting.Comes.binding` and so on: one rule for each kind of expression;
- `Setting.Enters.fixed`, `Setting.Enters.collecting`: what is seen by the body of a function;
- `Setting.Handles`, `Setting.Serves.ends`: a call comes to what the body comes to.
-/

namespace StackLisp

open Eval

/-- A computation that makes values changes nothing but the store. -/
theorem Eval.make_run {α : Type} (action : Make α) (e : Engine) : Eval.make action e =
    ((action.run e.store).1.mapError .fault, { e with store := (action.run e.store).2 }) := by
  rw [Eval.make, bind_of_ok (onStore_run _ _)]
  rcases (action.run e.store).1 with _ | _ <;> rfl

/-- Where expressions are evaluated. The engine may change as the regime says: global bindings stay,
and new environments, objects and symbols may be made. -/
structure Setting where
  regime : Regime
  evaluator : Evaluator
  /-- The names of the symbols. -/
  table : SymbolTable
  named : table.Named
  /-- Objects that are made from now on have this number at least. -/
  low : Engine → Ref
  low_le : ∀ t, low t ≤ t.store.nextRef
  low_mono : ∀ {t t'}, regime.allows t t' → low t ≤ low t'
  globals : ∀ {t t'}, regime.allows t t' → t'.globals = t.globals
  creates : ∀ (t : Engine) (bindings : Bindings) (next : Option EnvId),
    regime.allows t { t with envs := (t.envs.create bindings next).2 }
  lists : ∀ (t : Engine) (items : List Value),
    regime.allows t { t with store := (t.store.list items).2 }
  generates : ∀ (t : Engine) (stem : String),
    regime.allows t { t with store := (t.store.gensym stem).2 }

/-- A condition on results that is met by values only. -/
def Meets (Q : Value → Prop) (r : Except Error Value) : Prop :=
  ∃ v, r = .ok v ∧ Q v

/-- A condition on each of several values. -/
def MeetAll (Qs : List (Value → Prop)) (r : Except Error (List Value)) : Prop :=
  ∃ vs, r = .ok vs ∧ List.Forall₂ (fun Q v => Q v) Qs vs

@[simp]
theorem meets_ok {Q : Value → Prop} {v : Value} : Meets Q (.ok v) ↔ Q v := by
  simp [Meets]

@[simp]
theorem not_meets_error {Q : Value → Prop} {error : Error} : ¬ Meets Q (.error error) := by
  simp [Meets]

@[simp]
theorem meetAll_ok {Qs : List (Value → Prop)} {vs : List Value} :
    MeetAll Qs (.ok vs) ↔ List.Forall₂ (fun Q v => Q v) Qs vs := by
  simp [MeetAll]

@[simp]
theorem not_meetAll_error {Qs : List (Value → Prop)} {error : Error} :
    ¬ MeetAll Qs (.error error) := by
  simp [MeetAll]

namespace Setting

variable (W : Setting)

/-- Functions may be bound, and then a new closure is a macro if the function is one. -/
def Binds : Prop :=
  ∀ (t : Engine) (c : Closure), W.regime.allows t { t with
    store := t.store.fresh.2
    macros := if t.isMacro c then t.macros.insert t.store.nextRef else t.macros }

/-- The value is a list of these items, and if it is an object, it was made since. -/
def Lists (t : Engine) (items : List Value) (v : Value) : Prop :=
  v.items? = some items ∧ ∀ ref, v.identity = .object ref → W.low t ≤ ref

/-- Calls of the value with these arguments, from now on, take at most `n` steps and come to `P`. -/
def Replies (t : Engine) (n : Nat) (callee : Value) (args : List Value)
    (P : Except Error Value → Prop) : Prop :=
  ∀ t', W.regime.allows t t' →
    Responds W.regime W.evaluator n t' callee args fun r _ => P r

/-- The expression, evaluated from now on where the variables are seen, with the environments of
the calls around, takes at most `n` steps and comes to `P`. -/
def Comes (t : Engine) (n : Nat) (callers : List EnvId) (vars : Variables) (x : Expression)
    (P : Except Error Value → Prop) : Prop :=
  ∀ t' env term, W.regime.allows t t' → x.Means W.table term → t'.envs.Sees W.table env vars →
    Evals W.regime W.evaluator n t' env callers term fun r _ => P r

/-- So do the expressions, evaluated one after the other. -/
def ComeAll (t : Engine) (n : Nat) (callers : List EnvId) (vars : Variables)
    (xs : List Expression) (P : Except Error (List Value) → Prop) : Prop :=
  ∀ t' env terms, W.regime.allows t t' → List.Forall₂ (Expression.Means W.table) xs terms →
    t'.envs.Sees W.table env vars →
    EvalsAll W.regime W.evaluator n t' env callers terms fun r _ => P r

variable {W} {t t' : Engine} {n m k : Nat} {callers : List EnvId} {vars : Variables}
  {x : Expression} {xs : List Expression} {P : Except Error Value → Prop}

theorem knows (h : W.regime.allows t t') {name : String} {v : Value}
    (hv : t.Knows W.table name v) : t'.Knows W.table name v := by
  obtain ⟨s, hs, hglobal⟩ := hv
  exact ⟨s, hs, by rw [Engine.global?, W.globals h]; exact hglobal⟩

/-- A list that is made now was made since. -/
theorem lists_list (h : W.regime.allows t t') (items : List Value) :
    W.Lists t items (t'.store.list items).1 := by
  refine ⟨Store.items?_list _ _, fun ref hidentity => ?_⟩
  cases items with
  | nil => cases hidentity
  | cons =>
    cases hidentity
    exact (W.low_mono h).trans (W.low_le t')

/-- A list with items is a list object that was made since. -/
theorem Lists.exists_list {v w : Value} {items : List Value} (h : W.Lists t (v :: items) w) :
    ∃ ref, w = .list ref v items ∧ W.low t ≤ ref := by
  obtain ⟨hitems, hnew⟩ := h
  cases w with
  | list ref _ _ =>
    cases hitems
    exact ⟨ref, rfl, hnew ref rfl⟩
  | _ => cases hitems

/-! ## Weakening -/

theorem Replies.mono {callee : Value} {args : List Value} {Q : Except Error Value → Prop}
    (h : W.Replies t n callee args P) (hnm : n ≤ m) (hpq : ∀ r, P r → Q r) :
    W.Replies t m callee args Q :=
  fun _ hallows => (h _ hallows).mono hnm fun r _ _ => hpq r

theorem Comes.later (h : W.Comes t n callers vars x P) (hallows : W.regime.allows t t') :
    W.Comes t' n callers vars x P :=
  fun _ _ _ hlater => h _ _ _ (W.regime.trans hallows hlater)

theorem Comes.mono {Q : Except Error Value → Prop} (h : W.Comes t n callers vars x P)
    (hnm : n ≤ m) (hpq : ∀ r, P r → Q r) : W.Comes t m callers vars x Q :=
  fun _ _ _ hallows hmeans hsees => (h _ _ _ hallows hmeans hsees).mono hnm fun r _ _ => hpq r

/-! ## Expressions -/

namespace Comes

theorem constant {text : String} {v : Value} (hv : Expression.literal? text = some v) :
    W.Comes t 1 callers vars (.constant text) (Meets (· = v)) := by
  intro t' env term _ hmeans _
  cases hmeans with
  | constant hv' =>
    obtain rfl := Option.some.inj (hv.symm.trans hv')
    exact .constant (meets_ok.2 rfl)

theorem string (text : String) :
    W.Comes t 1 callers vars (.string text) (Meets fun v => ∃ ref, v = .string ref text) := by
  intro t' env term _ hmeans _
  cases hmeans with
  | string => exact .constant (meets_ok.2 ⟨_, rfl⟩)

/-- A quoted name is the symbol of that name. -/
theorem symbol (name : String) : W.Comes t 1 callers vars (.symbol name)
    (Meets fun v => ∃ s, W.table.lookup name = some s ∧ v = .symbol s) := by
  intro t' env term _ hmeans _
  cases hmeans with
  | symbol hs => exact .constant (meets_ok.2 ⟨_, hs, rfl⟩)

/-- A variable stands for its value. -/
theorem seen {name : String} {v : Value} (hv : vars.lookup name = some v) :
    W.Comes t 2 callers vars (.lookup name) (Meets (· = v)) := by
  intro t' env term _ hmeans hsees
  cases hmeans with
  | lookup hs =>
    refine .lookup ?_ (meets_ok.2 rfl)
    rw [Reference.lookup, bind_of_ok (get_run t'), hsees.get? hs, hv]
    rfl

/-- A name that is no variable stands for its global value. -/
theorem global {name : String} {v : Value} (hname : vars.lookup name = none)
    (hv : t.Knows W.table name v) :
    W.Comes t 2 callers vars (.lookup name) (Meets (· = v)) := by
  intro t' env term hallows hmeans hsees
  cases hmeans with
  | lookup hs =>
    obtain ⟨s, hs', hglobal⟩ := knows hallows hv
    obtain rfl := Option.some.inj (hs.symm.trans hs')
    refine .lookup ?_ (meets_ok.2 rfl)
    rw [Reference.lookup, bind_of_ok (get_run t'), hsees.get? hs, hname]
    simp only [hglobal]
    rfl

/-- One of the branches is evaluated, unless the test fails. -/
theorem branch {test consequent alternative : Expression} {P₁ : Except Error Value → Prop}
    (htest : W.Comes t n callers vars test P₁)
    (hthen : ∀ v, P₁ (.ok v) → v.isTruthy = true → W.Comes t m callers vars consequent P)
    (helse : ∀ v, P₁ (.ok v) → v.isTruthy = false → W.Comes t m callers vars alternative P)
    (herror : ∀ error, P₁ (.error error) → P (.error error)) :
    W.Comes t (n + m + 2) callers vars (.conditional test consequent alternative) P := by
  intro t' env term hallows hmeans hsees
  cases hmeans with
  | conditional ht hc ha =>
    refine .conditional (htest _ _ _ hallows ht hsees) (fun v t₁ hallows₁ hv => ?_)
      (fun error _ _ => herror error)
    have hlater := W.regime.trans hallows hallows₁
    have hsees₁ := hsees.kept (W.regime.kept hallows₁)
    cases htruthy : v.isTruthy with
    | true => exact hthen v hv htruthy _ _ _ hlater hc hsees₁
    | false => exact helse v hv htruthy _ _ _ hlater ha hsees₁

/-- A test that gives a boolean decides between the branches. -/
theorem conditional {test consequent alternative : Expression} {b : Bool}
    (htest : W.Comes t n callers vars test (Meets (· = .boolean b)))
    (hthen : b = true → W.Comes t m callers vars consequent P)
    (helse : b = false → W.Comes t m callers vars alternative P) :
    W.Comes t (n + m + 2) callers vars (.conditional test consequent alternative) P :=
  branch htest (fun _ hv htruthy => hthen (by rw [meets_ok.1 hv] at htruthy; exact htruthy))
    (fun _ hv htruthy => helse (by rw [meets_ok.1 hv] at htruthy; exact htruthy))
    fun _ herror => absurd herror not_meets_error

end Comes

namespace ComeAll

variable {S : Except Error (List Value) → Prop}

theorem nil (h : S (.ok [])) : W.ComeAll t 0 callers vars [] S := by
  intro t' env terms _ hmeans _
  cases hmeans
  exact .nil h

/-- The first expression is evaluated, and then the others. -/
theorem cons (hfirst : W.Comes t n callers vars x P)
    (hothers : ∀ v, P (.ok v) → W.ComeAll t m callers vars xs fun r => S (r.map (v :: ·)))
    (herror : ∀ error, P (.error error) → S (.error error)) :
    W.ComeAll t (n + m) callers vars (x :: xs) S := by
  intro t' env terms hallows hmeans hsees
  cases hmeans with
  | cons hx hxs =>
    exact .cons (hfirst _ _ _ hallows hx hsees)
      (fun v t₁ hallows₁ hv => hothers v hv _ _ _ (W.regime.trans hallows hallows₁) hxs
        (hsees.kept (W.regime.kept hallows₁)))
      (fun error _ _ => herror error)

theorem meets_nil : W.ComeAll t 0 callers vars [] (MeetAll []) :=
  nil (meetAll_ok.2 .nil)

/-- Conditions on single values make one on all of them. -/
theorem meets_cons {Q : Value → Prop} {Qs : List (Value → Prop)}
    (hfirst : W.Comes t n callers vars x (Meets Q))
    (hothers : W.ComeAll t m callers vars xs (MeetAll Qs)) :
    W.ComeAll t (n + m) callers vars (x :: xs) (MeetAll (Q :: Qs)) := by
  refine cons hfirst (fun v hv => ?_) (fun error herror => absurd herror not_meets_error)
  intro t' env terms hallows hmeans hsees f rest p q l R hf hrest hblock hlt hok hstop
  refine hothers t' env terms hallows hmeans hsees f rest p q l R hf hrest hblock hlt
    (fun vs t₁ hlength hallows₁ hvs => hok vs t₁ hlength hallows₁ ?_)
    (fun error _ _ herror => absurd herror not_meetAll_error)
  exact meetAll_ok.2 (.cons (meets_ok.1 hv) (meetAll_ok.1 hvs))

end ComeAll

/-! ## Calls -/

namespace Comes

/-- The function is evaluated, then the arguments, and then the function is called. -/
theorem call {callee : Expression} {S : Except Error (List Value) → Prop} {f : Value}
    (hcallee : W.Comes t k callers vars callee (Meets (· = f)))
    (hargs : W.ComeAll t n callers vars xs S)
    (hreplies : ∀ vs, S (.ok vs) → W.Replies t m f vs P)
    (herror : ∀ error, S (.error error) → P (.error error)) :
    W.Comes t (k + n + m) callers vars (.call callee xs) P := by
  intro t' env term hallows hmeans hsees
  cases hmeans with
  | @call _ _ callee' args' hcallee' hxs =>
    -- of all results, the function is known, and the rest is what is known of the arguments
    have hitems : EvalsAll W.regime W.evaluator (k + n) t' env callers (callee' :: args')
        fun r _ =>
        (∃ vs, r = .ok (f :: vs) ∧ S (.ok vs)) ∨ ∃ error, r = .error error ∧ S (.error error) := by
      refine .cons (hcallee _ _ _ hallows hcallee' hsees) (fun v t₁ hallows₁ hv => ?_)
        (fun _ _ _ herror => absurd herror not_meets_error)
      obtain rfl := meets_ok.1 hv
      intro g rest p q l Q hg hrest hblock hlt hok hstop
      refine hargs _ _ _ (W.regime.trans hallows hallows₁) hxs
        (hsees.kept (W.regime.kept hallows₁)) g rest p q l Q hg hrest hblock hlt
        (fun vs t₂ hlength hallows₂ hvs => hok vs t₂ hlength hallows₂ (.inl ⟨vs, rfl, hvs⟩))
        (fun error t₂ hallows₂ he => hstop error t₂ hallows₂ (.inr ⟨error, rfl, he⟩))
    refine .call hitems (fun v vs t₁ hallows₁ hvs => ?_) (fun error _ _ he => ?_)
    · obtain ⟨_, ⟨⟩, hvs⟩ | ⟨_, ⟨⟩, -⟩ := hvs
      exact hreplies _ hvs _ (W.regime.trans hallows hallows₁)
    · obtain ⟨_, ⟨⟩, -⟩ | ⟨_, ⟨⟩, he⟩ := he
      exact herror _ he

/-- A call with arguments that are evaluated without errors. -/
theorem call_meets {callee : Expression} {Qs : List (Value → Prop)} {f : Value}
    (hcallee : W.Comes t k callers vars callee (Meets (· = f)))
    (hargs : W.ComeAll t n callers vars xs (MeetAll Qs))
    (hreplies : ∀ vs, List.Forall₂ (fun Q v => Q v) Qs vs → W.Replies t m f vs P) :
    W.Comes t (k + n + m) callers vars (.call callee xs) P :=
  call hcallee hargs (fun vs hvs => hreplies vs (meetAll_ok.1 hvs))
    fun _ herror => absurd herror not_meetAll_error

/-- A call with one argument. -/
theorem call₁ {callee : Expression} {Q : Value → Prop} {f : Value}
    (hcallee : W.Comes t k callers vars callee (Meets (· = f)))
    (harg : W.Comes t n callers vars x (Meets Q))
    (hreplies : ∀ v, Q v → W.Replies t m f [v] P) :
    W.Comes t (k + n + m) callers vars (.call callee [x]) P := by
  have hargs : W.ComeAll t (n + 0) callers vars [x] (MeetAll [Q]) :=
    ComeAll.meets_cons harg ComeAll.meets_nil
  refine call_meets hcallee hargs fun vs hvs => ?_
  obtain ⟨v, _, hv, ⟨⟩, rfl⟩ := List.forall₂_cons_left_iff.1 hvs
  exact hreplies v hv

/-- A call with two arguments, each of which may fail. -/
theorem call_pair {callee y : Expression} {P₁ P₂ : Except Error Value → Prop} {f : Value} {l : Nat}
    (hcallee : W.Comes t k callers vars callee (Meets (· = f)))
    (hfirst : W.Comes t n callers vars x P₁) (hsecond : W.Comes t l callers vars y P₂)
    (hreplies : ∀ v w, P₁ (.ok v) → P₂ (.ok w) → W.Replies t m f [v, w] P)
    (herror : ∀ error, P₁ (.error error) → P (.error error))
    (herror' : ∀ v error, P₁ (.ok v) → P₂ (.error error) → P (.error error)) :
    W.Comes t (k + (n + (l + 0)) + m) callers vars (.call callee [x, y]) P := by
  have hargs : W.ComeAll t (n + (l + 0)) callers vars [x, y] fun r =>
      (∃ v w, r = .ok [v, w] ∧ P₁ (.ok v) ∧ P₂ (.ok w)) ∨
        ∃ error, r = .error error ∧ P (.error error) :=
    .cons hfirst
      (fun v hv => .cons hsecond (fun w hw => .nil (.inl ⟨v, w, rfl, hv, hw⟩))
        fun error he => .inr ⟨error, rfl, herror' v error hv he⟩)
      fun error he => .inr ⟨error, rfl, herror error he⟩
  refine call hcallee hargs (fun vs hvs => ?_) fun error he => ?_
  · obtain ⟨v, w, ⟨⟩, hv, hw⟩ | ⟨_, ⟨⟩, -⟩ := hvs
    exact hreplies v w hv hw
  · obtain ⟨_, _, ⟨⟩, -⟩ | ⟨_, ⟨⟩, he⟩ := he
    exact he

/-- A call with two arguments. -/
theorem call₂ {callee y : Expression} {Q Q' : Value → Prop} {f : Value} {l : Nat}
    (hcallee : W.Comes t k callers vars callee (Meets (· = f)))
    (harg : W.Comes t n callers vars x (Meets Q))
    (harg' : W.Comes t l callers vars y (Meets Q'))
    (hreplies : ∀ v w, Q v → Q' w → W.Replies t m f [v, w] P) :
    W.Comes t (k + (n + (l + 0)) + m) callers vars (.call callee [x, y]) P :=
  call_pair hcallee harg harg' (fun v w hv hw => hreplies v w (meets_ok.1 hv) (meets_ok.1 hw))
    (fun _ he => absurd he not_meets_error) fun _ _ _ he => absurd he not_meets_error

end Comes

namespace Replies

variable {ref : Ref} {function : Intrinsic} {args : List Value}

theorem intrinsic (hmodest : Runs.Modest (function.call W.evaluator args))
    (h : ∀ t', W.regime.allows t t' → ∃ r t₁,
      function.call W.evaluator args t' = (r.mapError .fault, t₁) ∧ W.regime.allows t' t₁ ∧ P r) :
    W.Replies t 1 (.intrinsic ref function) args P := by
  intro t' hallows
  obtain ⟨r, t₁, hrun, hallows₁, hr⟩ := h t' hallows
  exact .intrinsic hmodest hrun hallows₁ hr

/-- A function that only looks at its arguments. -/
theorem ofExcept {r : Except Error Value}
    (hcall : function.call W.evaluator args = Eval.ofExcept r) (h : P r) :
    W.Replies t 1 (.intrinsic ref function) args P := by
  have hrun : ∀ t' : Engine, (Eval.ofExcept r : Eval Value) t' = (r.mapError .fault, t') :=
    fun t' => by cases r <;> rfl
  refine intrinsic ⟨hcall ▸ .ofExcept r, fun s => ?_⟩ fun t' _ =>
    ⟨r, t', by rw [hcall, hrun], W.regime.refl t', h⟩
  rw [hcall, hrun]
  exact .of_same_envs rfl

/-- A function that makes its value in the store. -/
theorem make {action : Make Value} (hcall : function.call W.evaluator args = Eval.make action)
    (hallows : ∀ t', W.regime.allows t t' →
      W.regime.allows t' { t' with store := (action.run t'.store).2 })
    (h : ∀ t', W.regime.allows t t' → P (action.run t'.store).1) :
    W.Replies t 1 (.intrinsic ref function) args P := by
  refine intrinsic ⟨hcall ▸ .make action, fun s => ?_⟩ fun t' hlater =>
    ⟨_, _, by rw [hcall, make_run], hallows t' hlater, h t' hlater⟩
  rw [hcall, make_run]
  exact .of_same_envs rfl

end Replies

/-! ## Calls of closures -/

variable (W) in
/-- When the function is called with the arguments, from now on, its body is evaluated where
variables are seen of which `V` holds. -/
def Enters (t : Engine) (c : Closure) (args : List Value) (body : Expression)
    (V : Variables → Prop) : Prop :=
  ∃ term, c.Implements [term] ∧ body.Means W.table term ∧ ∀ t', W.regime.allows t t' →
    ∃ env t₁ vars, Reference.enter c args t' = (.ok env, t₁) ∧ W.regime.allows t' t₁ ∧ V vars ∧
      t₁.envs.Sees W.table env vars

variable (W) in
/-- A call of the function from outside takes at most `n` steps for its body and comes to `P`. -/
def Serves (t : Engine) (n : Nat) (c : Closure) (args : List Value)
    (P : Except Error Value → Prop) : Prop :=
  ∃ body V, W.Enters t c args body V ∧ ∀ vars, V vars → W.Comes t n [] vars body P

section

variable {signature : Signature} {body : Expression} {outer : Variables} {c : Closure}
  {args : List Value}

/-- The parameters are seen, and behind them what is seen where the function was made. -/
theorem Enters.fixed (hc : FunctionOf W.table t.envs outer signature body c)
    (hrest : signature.rest = none) (hlength : args.length = signature.positional.length) :
    W.Enters t c args body (· = (signature.positional.zip args).reverse ++ outer) := by
  obtain ⟨term, himplements, hmeans⟩ := hc.body
  refine ⟨term, himplements, hmeans, fun t' hallows => ?_⟩
  obtain ⟨next, hnext, houter⟩ := (hc.kept (W.regime.kept hallows)).scope
  obtain ⟨bindings, hbinds, henter⟩ := hc.heads.enter_fixed W.named hrest hlength t'
  have hallows₁ := W.creates t' bindings c.env
  refine ⟨_, _, _, henter, hallows₁, rfl,
    .inner ?_ houter.lt_size hbinds (houter.kept (W.regime.kept hallows₁))⟩
  rw [hnext]
  exact Array.getElem?_push_size

/-- Further arguments are seen as a list of them. -/
theorem Enters.collecting {rest : String} (args others : List Value)
    (hc : FunctionOf W.table t.envs outer signature body c) (hrest : signature.rest = some rest)
    (hlength : args.length = signature.positional.length) :
    W.Enters t c (args ++ others) body fun vars => ∃ v, W.Lists t others v ∧
      vars = (rest, v) :: (signature.positional.zip args).reverse ++ outer := by
  obtain ⟨term, himplements, hmeans⟩ := hc.body
  refine ⟨term, himplements, hmeans, fun t' hallows => ?_⟩
  obtain ⟨next, hnext, houter⟩ := (hc.kept (W.regime.kept hallows)).scope
  obtain ⟨bindings, hbinds, henter⟩ := hc.heads.enter_collecting W.named hrest hlength t'
  have hallows₁ : W.regime.allows t' { t' with
      store := (t'.store.list others).2, envs := (t'.envs.create bindings c.env).2 } :=
    W.regime.trans (W.lists t' others) (W.creates _ bindings c.env)
  refine ⟨_, _, _, henter, hallows₁, ⟨_, lists_list hallows others, rfl⟩,
    .inner ?_ houter.lt_size hbinds (houter.kept (W.regime.kept hallows₁))⟩
  rw [hnext]
  exact Array.getElem?_push_size

/-- A call comes to what the body comes to. -/
theorem Enters.replies {V : Variables → Prop} (h : W.Enters t c args body V)
    (hbody : ∀ vars callers, V vars → W.Comes t n callers vars body P) :
    W.Replies t (n + 2) (.closure c) args P := by
  intro t' hallows
  obtain ⟨term, himplements, hmeans, henters⟩ := h
  obtain ⟨env, t₁, vars, henter, hallows₁, hvars, hsees⟩ := henters t' hallows
  exact .closure himplements henter hallows₁ fun callers =>
    hbody vars callers hvars _ _ _ (W.regime.trans hallows hallows₁) hmeans hsees

variable (W) in
/-- A call of the function comes to `P`, whether code calls it or it is called from outside. -/
structure Handles (t : Engine) (n : Nat) (c : Closure) (args : List Value)
    (P : Except Error Value → Prop) : Prop where
  inside : W.Replies t (n + 2) (.closure c) args P
  outside : W.Serves t n c args P

theorem Handles.fixed (hc : FunctionOf W.table t.envs outer signature body c)
    (hrest : signature.rest = none) (hlength : args.length = signature.positional.length)
    (hbody : ∀ callers,
      W.Comes t n callers ((signature.positional.zip args).reverse ++ outer) body P) :
    W.Handles t n c args P where
  inside := (Enters.fixed hc hrest hlength).replies fun _ callers hvars => hvars ▸ hbody callers
  outside := ⟨body, _, .fixed hc hrest hlength, fun _ hvars => hvars ▸ hbody []⟩

theorem Handles.collecting {rest : String} (args : List Value) {others : List Value}
    (hc : FunctionOf W.table t.envs outer signature body c) (hrest : signature.rest = some rest)
    (hlength : args.length = signature.positional.length)
    (hbody : ∀ v callers, W.Lists t others v →
      W.Comes t n callers ((rest, v) :: (signature.positional.zip args).reverse ++ outer) body P) :
    W.Handles t n c (args ++ others) P where
  inside := (Enters.collecting args others hc hrest hlength).replies fun _ callers hvars => by
    obtain ⟨v, hv, rfl⟩ := hvars
    exact hbody v callers hv
  outside := ⟨body, _, .collecting args others hc hrest hlength, fun _ hvars => by
    obtain ⟨v, hv, rfl⟩ := hvars
    exact hbody v [] hv⟩

theorem Serves.mono {Q : Except Error Value → Prop} (h : W.Serves t n c args P) (hnm : n ≤ m)
    (hpq : ∀ r, P r → Q r) : W.Serves t m c args Q := by
  obtain ⟨body, V, henters, hbody⟩ := h
  exact ⟨body, V, henters, fun vars hvars => (hbody vars hvars).mono hnm hpq⟩

theorem Handles.mono {Q : Except Error Value → Prop} (h : W.Handles t n c args P) (hnm : n ≤ m)
    (hpq : ∀ r, P r → Q r) : W.Handles t m c args Q where
  inside := h.inside.mono (Nat.add_le_add_right hnm 2) hpq
  outside := h.outside.mono hnm hpq

/-- A call from outside ends as it is said, or the stack is used up, or the fuel. -/
theorem Serves.ends {e : Engine} (h : W.Serves { e with depth := e.depth + 1 } n c args P)
    (hframe : e.frame ≤ e.sp) (hdepth : e.depth < e.limits.maxApplyDepth) :
    Machine.CallEnds W.regime W.evaluator n e c args fun r _ => P r := by
  obtain ⟨body, V, ⟨term, himplements, hmeans, henters⟩, hbody⟩ := h
  obtain ⟨env, t₁, vars, henter, hallows, hvars, hsees⟩ := henters _ (W.regime.refl _)
  exact Machine.applyWith_ends himplements hframe hdepth henter hallows
    (hbody vars hvars _ _ _ hallows hmeans hsees)

end

/-- A value is bound to a name by a function literal that is called on the spot. -/
theorem Comes.binding {name : String} {value body : Expression} {Q : Value → Prop} (hW : W.Binds)
    (hvalue : W.Comes t n [] vars value (Meets Q))
    (hbody : ∀ v callers, Q v → W.Comes t m callers ((name, v) :: vars) body P) :
    W.Comes t (2 + (n + 0) + (m + 2)) [] vars (.binding name value body) P := by
  intro t' env term hallows hmeans hsees
  obtain ⟨template, tv, tb, himplements, heads, hmeansBody, hmeansValue, rfl⟩ :
      ∃ template tv tb, template.Implements [tb] ∧
        Signature.Heads ⟨[name], none⟩ W.table template ∧ body.Means W.table tb ∧
        value.Means W.table tv ∧ term = .call (.function template) [tv] := by
    cases hmeans with
    | binding hmeans =>
      cases hmeans with
      | call hfunction hvalues =>
        obtain ⟨tv, _, hv, ⟨⟩, rfl⟩ := List.forall₂_cons_left_iff.1 hvalues
        cases hfunction with
        | function heads _ himplements hbody =>
          exact ⟨_, tv, _, himplements, heads, hbody, hv, rfl⟩
  -- no other call is running, so the environment keeps its link when the literal is bound to it
  obtain ⟨bound, t₁, hbind, hallows₁, henvs, hbound⟩ : ∃ (bound : Closure) (t₁ : Engine),
      Reference.bind env [] template t' = (.ok (.closure bound), t₁) ∧ W.regime.allows t' t₁ ∧
        t₁.envs = t'.envs ∧ FunctionOf W.table t'.envs vars ⟨[name], none⟩ body bound :=
    ⟨_, _, Reference.bind_eq env [] template t', hW t' template, rfl,
      ⟨heads.positional, heads.variadic, heads.names⟩,
      ⟨tb, ⟨himplements.code, himplements.parameters⟩, hmeansBody⟩, env, rfl, hsees⟩
  rw [← henvs] at hbound hsees
  have hlater := W.regime.trans hallows hallows₁
  have hvalue₁ : Evals W.regime W.evaluator n t₁ env [] tv fun r t₂ =>
      Meets Q r ∧ W.regime.allows t₁ t₂ :=
    (hvalue _ _ _ hlater hmeansValue hsees).mono le_rfl fun r t₂ hallows₂ hr => ⟨hr, hallows₂⟩
  refine .call (S := fun r t₂ => ∃ v, r = .ok [.closure bound, v] ∧ Q v ∧ W.regime.allows t₁ t₂)
    (.cons (P := fun r t₂ => r = .ok (.closure bound) ∧ t₂ = t₁)
      (.function hbind hallows₁ ⟨rfl, rfl⟩) ?_ ?_) ?_ ?_
  · rintro _ _ - ⟨⟨⟩, rfl⟩
    refine .cons hvalue₁ (fun v t₂ _ hv => .nil ?_)
      (fun _ _ _ herror => absurd herror.1 not_meets_error)
    exact ⟨v, rfl, meets_ok.1 hv.1, hv.2⟩
  · rintro _ _ - ⟨⟨⟩, -⟩
  · rintro _ _ t₂ - ⟨v, ⟨⟩, hv, hallows₂⟩
    have hreplies : W.Replies t₁ (m + 2) (.closure bound) [v] P :=
      (Handles.fixed hbound rfl rfl fun callers => (hbody v callers hv).later hlater).inside
    exact hreplies t₂ hallows₂
  · rintro _ _ - ⟨_, ⟨⟩, -⟩

end Setting

end StackLisp

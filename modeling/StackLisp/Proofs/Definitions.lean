import StackLisp.Proofs.Weights

/-!
# Loading definitions

A form of the prelude is compiled as a function without parameters, and calling that binds one more
definition to its name.

- `Engine.Loaded.delivers_compileThunk`: a written expression is compiled to code that does what it
  says;
- `Engine.Loaded.evals_definition`: a definition is loaded when its core is evaluated;
- `Engine.Loaded.delivers_apply`: so it is when the code of a form is called.
-/

namespace StackLisp

open Compiler

/-- What only makes symbols and objects gains. -/
theorem Engine.Gains.store {t : Engine} {store : Store} (h : Phrase.StoreReads t.store store) :
    t.Gains { t with store } where
  __ := Gains.refl t
  symbols := h.symbols
  made := h.made
  ids := h.ids
  refs := h.refs

/-- The closure was compiled, since the engine was `e₀`, as a function without parameters that does
what the core of the expression says. -/
structure Engine.Thunk (e₀ e : Engine) (x : Expression) (c : Closure) : Prop where
  positional : c.positional = 0
  variadic : c.variadic = false
  unbound : c.env = none
  body : ∃ t, c.Implements [t] ∧ x.core.Means e.store.symbols t ∧
    t.All (fun _ => True) fun template => e₀.store.nextRef ≤ template.ref

/-- The outermost macro of an expression does not change what it means. -/
theorem Expression.Means.core {table : SymbolTable} {x : Expression} {t : Term}
    (h : x.Means table t) : x.core.Means table t := by
  cases h with
  | binding h => exact h
  | declare h => exact h
  | constant h => exact .constant h
  | string => exact .string
  | symbol h => exact .symbol h
  | lookup h => exact .lookup h
  | conditional ht hc ha => exact .conditional ht hc ha
  | call h hs => exact .call h hs
  | function hheads hunbound himplements h => exact .function hheads hunbound himplements h
  | define hs h => exact .define hs h

namespace Engine.Loaded

variable {n : Nat} {e₀ : Engine} (h : e₀.Loaded n) (hidle : e₀.Idle)
include h hidle

theorem delivers_compileTop {k : Keywords} (hk : k.Canonical e₀.store.symbols)
    {texts : Ref → Option String}
    (htexts : ∀ ref text, texts ref = some text → ref < e₀.store.nextRef) {x : Expression}
    (hx : x.wellNamed (Vocabulary.macros n) = true) {v : Value}
    (hv : v.Written texts e₀.store.symbols x.phrase) (hsmall : x.weight ≤ 250) (fuel : Nat) :
    Delivers (Enough fuel e₀.limits) (fun c e => e₀.Since e ∧ e₀.Thunk e x c)
      (compileTop (Machine.evaluator fuel) k (.thunk [v]) e₀) := by
  have hn := h.made.named
  -- while the form is compiled its expansions stay written expressions
  let π : Policy (Machine.evaluator fuel) k := Expression.policy hk hn e₀.Since
    Since.fresh fun {e e' v w x} he (hx : x.wellNamed (Vocabulary.macros n) = true)
      (hv : v.Written texts e₀.store.symbols x.phrase) hrun => by
      obtain ⟨w', e'', hrun', hw, hgains, hidle⟩ | ⟨-, stop, e'', hrun'⟩ :=
        h.delivers_expandWithin hk he.1 he.2 htexts hx hv fuel
      · cases hrun.symm.trans hrun'
        exact ⟨⟨he.1.trans hgains, hidle⟩, hw⟩
      · cases hrun.symm.trans hrun'
  have hstate : π.state () e₀ := ⟨.refl e₀, hidle⟩
  rcases hrun : compileTop (Machine.evaluator fuel) k (.thunk [v]) e₀ with ⟨stop | c, e⟩
  · -- with enough of everything, the literal is compiled
    refine .of_error fun henough => ?_
    have hbody : Takes e₀.Since x.weight (compileBody (compileForm (Machine.evaluator fuel) k
        e₀.limits.maxCompileDepth e₀.limits.maxCompileDepth) [v]) :=
      h.takes_written hk htexts henough _ hx hv (hsmall.trans henough.compileDepth) (by omega)
    obtain ⟨c, e', hrun', -⟩ : ∃ c e', compileLiteral (compileForm (Machine.evaluator fuel) k
        e₀.limits.maxCompileDepth e₀.limits.maxCompileDepth) (.thunk [v]) e₀ = (.ok c, e') ∧
        e₀.Since e' :=
      exists_compileLiteral Since.fresh hstate (compileForm_added _ _) hbody
        (by simp [FunctionLiteral.thunk]; omega)
    rw [compileTop_run] at hrun
    cases hrun.symm.trans hrun'
  -- what was compiled evaluates a reading of the form, and every reading means what it says
  · have hform : ∀ u ∈ [v], π.form () u := fun u hu =>
      List.mem_singleton.1 hu ▸ ⟨x, hx, hv⟩
    obtain ⟨_, hcompiled⟩ :=
      compileTop_compiled (FunctionLiteral.complete_thunk [v]) hstate hform hrun
    have hsince : e₀.Since e := hcompiled.state
    obtain ⟨body, e₁, hreads | ⟨hnil, -⟩, -, -, himplements, hfit⟩ := hcompiled.body
    · obtain ⟨t, _, ht, hnil, rfl⟩ := List.forall₂_cons_left_iff.1 hreads.2.somewhere
      cases hnil
      have hall := hfit t (List.mem_singleton_self t)
      have hmeans := Expression.means_of_reads hk hn hx v t _ hv ht hall fun c hc => hc.1
      refine .of_ok ⟨hsince, hcompiled.heads.positional, hcompiled.heads.variadic,
        hcompiled.heads.unbound, t, himplements, (hmeans.mono hsince.1.symbols).core,
        hall.mono (fun _ _ => trivial) fun template htemplate => ?_⟩
      obtain ⟨_, e', he', href⟩ := htemplate.2
      exact href ▸ he'.1.refs
    · cases hnil

/-- A written expression is compiled to code that does what it says. -/
theorem delivers_compileThunk {texts : Ref → Option String}
    (htexts : ∀ ref text, texts ref = some text → ref < e₀.store.nextRef) {x : Expression}
    (hx : x.wellNamed (Vocabulary.macros n) = true) {v : Value}
    (hv : v.Written texts e₀.store.symbols x.phrase) (hsmall : x.weight ≤ 250) (fuel : Nat) :
    Delivers (Enough fuel e₀.limits) (fun c e => e₀.Since e ∧ e₀.Thunk e x c)
      (compileThunk (Machine.evaluator fuel) v e₀) := by
  obtain ⟨hreads, hk⟩ := Keywords.intern_cases e₀.store
  rw [compileThunk_run]
  generalize Keywords.intern e₀.store = made at hreads hk ⊢
  obtain ⟨k, store⟩ := made
  have hgains : e₀.Gains { e₀ with store } := .store hreads
  have hidle₁ : Idle { e₀ with store } := ⟨hidle.sp, hidle.frame, hidle.depth⟩
  have hcompiled := (h.gains hgains).delivers_compileTop hidle₁ hk
    (fun ref text href => (htexts ref text href).trans_le hreads.refs) hx
    (hv.mono hreads.symbols) hsmall fuel
  refine hcompiled.mono fun c e ⟨hsince, hthunk⟩ => ⟨⟨hgains.trans hsince.1, hsince.2⟩, ?_⟩
  obtain ⟨t, himplements, hmeans, hall⟩ := hthunk.body
  exact ⟨hthunk.positional, hthunk.variadic, hthunk.unbound, t, himplements, hmeans,
    hall.mono (fun _ => id) fun _ => hreads.refs.trans⟩

end Engine.Loaded

/-! ## Running definitions -/

/-- Anything may happen but that limits or environments are changed. -/
def Regime.loading : Regime where
  allows t t' := t'.limits = t.limits ∧ ∀ {env : EnvId} {scope : Environment},
    t.envs.heap[env]? = some scope → t'.envs.heap[env]? = some scope
  refl _ := ⟨rfl, id⟩
  trans h h' := ⟨h'.1.trans h.1, fun henv => h'.2 (h.2 henv)⟩
  limits h := h.1
  kept h := h.2

/-- What a function literal is bound to when it is evaluated next. -/
abbrev Engine.boundTo (t : Engine) (env : EnvId) (template : Closure) : Closure :=
  { template with ref := t.store.nextRef, env := some env }

/-- The engine after an object was made. -/
abbrev Engine.withObject (t : Engine) : Engine :=
  { t with store := t.store.fresh.2 }

section

variable (ev : Evaluator) {t : Engine} {env : EnvId} {template : Closure}

/-- A function literal that stands outside of all functions. -/
theorem evals_literal (hkind : t.isMacro template = false) :
    Evals .loading ev 2 t env [] (.function template) fun r t' =>
      r = .ok (.closure (t.boundTo env template)) ∧ t' = t.withObject := by
  have hbind : Reference.bind env [] template t =
      (.ok (.closure (t.boundTo env template)), t.withObject) := by
    rw [Reference.bind_eq, hkind]
    rfl
  exact .function hbind ⟨rfl, id⟩ ⟨rfl, rfl⟩

/-- A function literal that is made a macro. -/
theorem evals_marked (hkind : t.isMacro template = false)
    (hscope : t.envs.heap[env]? = some ⟨[], none⟩) {s : Symbol} {ref : Ref}
    (hs : t.store.symbols.lookup "macro!" = some s)
    (hmark : t.Knows t.store.symbols "macro!" (.intrinsic ref (.builtin .markMacro))) :
    Evals .loading ev 5 t env [] (.call (.lookup s) [.function template]) fun r t' =>
      r = .ok (.closure (t.boundTo env template)) ∧
        t' = t.withObject.markMacro (t.boundTo env template) := by
  have hsees : t.envs.Sees t.store.symbols env [] := .outermost hscope (Bindings.binds_nil _)
  have hlookup : Reference.lookup env s t = (.ok (.intrinsic ref (.builtin .markMacro)), t) := by
    obtain ⟨s', hs', hglobal⟩ := hmark
    obtain rfl := Option.some.inj (hs.symm.trans hs')
    rw [Reference.lookup, Eval.bind_of_ok (Eval.get_run t), hsees.get? hs]
    simp only [List.lookup_nil, hglobal]
    rfl
  -- marking gives back the very closure and changes nothing but the set of macros
  have hcall : ∀ t' : Engine, (Intrinsic.builtin .markMacro).call ev
      [.closure (t.boundTo env template)] t' =
        (.ok (.closure (t.boundTo env template)), t'.markMacro (t.boundTo env template)) := by
    intro t'
    rw [Intrinsic.call_builtin]
    rfl
  refine .call (n := 4) (m := 1) (S := fun r t' =>
      r = .ok [.intrinsic ref (.builtin .markMacro), .closure (t.boundTo env template)] ∧
        t' = t.withObject)
    (.cons (n := 2) (m := 2) (P := fun r t' =>
        r = .ok (.intrinsic ref (.builtin .markMacro)) ∧ t' = t)
      (.lookup hlookup ⟨rfl, rfl⟩) ?_ ?_) ?_ ?_
  · rintro _ _ - ⟨⟨⟩, rfl⟩
    refine .cons (n := 2) (m := 0) (evals_literal ev hkind) ?_ ?_
    · rintro _ _ - ⟨⟨⟩, rfl⟩
      exact .nil ⟨rfl, rfl⟩
    · rintro _ _ - ⟨⟨⟩, -⟩
  · rintro _ _ - ⟨⟨⟩, -⟩
  · rintro _ _ _ - ⟨⟨⟩, rfl⟩
    have hmodest : Runs.Modest ((Intrinsic.builtin .markMacro).call ev
        [.closure (t.boundTo env template)]) := by
      refine ⟨fun e stack sp frame maxSlots => ?_, fun e => ?_⟩
      · rw [hcall, hcall]
        rfl
      · rw [hcall]
        exact .of_same_envs rfl
    exact .intrinsic (r := .ok _) hmodest (hcall _) ⟨rfl, id⟩ ⟨rfl, rfl⟩
  · rintro _ _ - ⟨⟨⟩, -⟩

end

namespace Engine.Loaded

variable {n : Nat} {t : Engine} (h : t.Loaded n) {d : Definition}
  (hd : Vocabulary.all[n]? = some d) {env : EnvId}
  (hscope : t.envs.heap[env]? = some ⟨[], none⟩)
include h hd hscope

/-- The definition is loaded when the function that it says is bound to its name. -/
theorem define_bound {template : Closure} (hheads : d.signature.Heads t.store.symbols template)
    {tb : Term} (himplements : template.Implements [tb]) (hmeans : d.body.Means t.store.symbols tb)
    {s : Symbol} (hs : t.store.symbols.lookup d.name = some s) {t' : Engine}
    (ht' : t' = if d.isMacro then t.withObject.markMacro (t.boundTo env template)
      else t.withObject) :
    (t'.define s (.closure (t.boundTo env template))).Loaded (n + 1) := by
  have hobject := h.gains (.object t)
  have hlt : t.store.nextRef < t.withObject.store.nextRef := Nat.lt_succ_self _
  have hscope' : ∃ env', (t.boundTo env template).env = some env' ∧
      t.envs.heap[env']? = some ⟨[], none⟩ := ⟨env, rfl, hscope⟩
  have hbody : ∃ tb, (t.boundTo env template).Implements [tb] ∧ d.body.Means t.store.symbols tb :=
    ⟨tb, ⟨himplements.code, himplements.parameters⟩, hmeans⟩
  have hheads' : d.signature.Heads t.store.symbols (t.boundTo env template) :=
    ⟨hheads.positional, hheads.variadic, hheads.names⟩
  cases hkind : d.isMacro with
  | false =>
    -- no object as new as this one is a macro
    rw [hkind, if_neg Bool.false_ne_true] at ht'
    subst ht'
    refine hobject.define hd ⟨hheads', hbody, hscope', ?_⟩ hlt hs
    rw [hkind, isMacro, Std.HashSet.contains_eq_false_iff_not_mem]
    exact fun hmem => Nat.lt_irrefl _ (h.macros_lt _ hmem)
  | true =>
    rw [hkind, if_pos rfl] at ht'
    subst ht'
    refine (hobject.markMacro hlt fun s' c' hglobal heq => ?_).define hd
      ⟨hheads', hbody, hscope', ?_⟩ hlt hs
    · exact (h.closures_lt s' c' hglobal).ne heq
    · rw [hkind, isMacro, Engine.markMacro]
      simp

/-- Binding what the function literal gives, marked if it is a macro, loads the definition. -/
theorem evals_bound {ev : Evaluator} {template : Closure}
    (hheads : d.signature.Heads t.store.symbols template) {tb : Term}
    (himplements : template.Implements [tb]) (hmeans : d.body.Means t.store.symbols tb)
    {s : Symbol} (hs : t.store.symbols.lookup d.name = some s) {m : Nat} {value : Term}
    (hvalue : Evals .loading ev m t env [] value fun r t' =>
      r = .ok (.closure (t.boundTo env template)) ∧ t' = if d.isMacro then
        t.withObject.markMacro (t.boundTo env template) else t.withObject) :
    Evals .loading ev (m + 2) t env [] (.assignment .define s value) fun r t' =>
      (∃ v, r = .ok v) ∧ t'.Loaded (n + 1) := by
  refine hvalue.assignment (P := fun r t' => (∃ v, r = .ok v) ∧ t'.Loaded (n + 1)) ?_ ?_
  · rintro _ t' - ⟨⟨⟩, ht'⟩
    exact ⟨_, rfl, ⟨rfl, id⟩, ⟨_, rfl⟩,
      h.define_bound hd hscope hheads himplements hmeans hs ht'⟩
  · rintro _ _ - ⟨⟨⟩, -⟩

/-- Evaluating the core of a definition loads it. -/
theorem evals_definition (ev : Evaluator) {term : Term}
    (hmeans : d.expression.core.Means t.store.symbols term)
    (hall : term.All (fun _ => True) fun template => t.isMacro template = false) :
    Evals .loading ev 7 t env [] term fun r t' =>
      (∃ v, r = .ok v) ∧ t'.Loaded (n + 1) := by
  cases hkind : d.isMacro with
  | false =>
    have hcore : d.expression.core =
        .define d.name (.function (some d.name) d.signature d.body) := by
      rw [Definition.expression, hkind]
      rfl
    rw [hcore] at hmeans
    match hmeans, hall with
    | .define hs (.function hheads _ himplements hbody), .assignment (.function _ hnot) =>
      refine (h.evals_bound hd hscope hheads himplements hbody hs (m := 2) ?_).mono
        (by omega) fun _ _ _ => id
      rw [hkind]
      exact evals_literal ev hnot
  | true =>
    have hcore : d.expression.core = .define d.name
        (.call (.lookup "macro!") [.function (some d.name) d.signature d.body]) := by
      rw [Definition.expression, hkind]
      rfl
    rw [hcore] at hmeans
    obtain ⟨ref, hmark⟩ := h.builtin .markMacro
    -- the literal is the only argument, so what holds of the functions in the term holds of it
    match hmeans, hall with
    | .define hs (.call (.lookup hs₀) (.cons (.function hheads _ himplements hbody) .nil)),
        .assignment (.call _ hargs) =>
      match hargs _ (List.mem_singleton_self _) with
      | .function _ hnot =>
        refine h.evals_bound hd hscope hheads himplements hbody hs (m := 5) ?_
        rw [hkind]
        exact evals_marked ev hnot hscope hs₀ hmark

omit hd hscope in
/-- What is loaded does not depend on stack and depth. -/
theorem of_core {r : Engine} {depth : Nat} (hr : r.core = core { t with depth }) : r.Loaded n :=
  h.gains (@Gains.of_core t t r t.depth depth (.refl t) hr)

end Engine.Loaded

namespace Engine.Loaded

variable {n : Nat} {e₀ e : Engine} (h : e₀.Loaded n) {d : Definition}
  (hd : Vocabulary.all[n]? = some d)
include h hd

/-- Calling the code of a definition loads it. -/
theorem delivers_apply (he : e₀.Since e) {x : Expression} (hx : x.core = d.expression.core)
    {c : Closure} (hc : e₀.Thunk e x c) (fuel : Nat) :
    Delivers (Enough fuel e₀.limits)
      (fun _ r => r.Loaded (n + 1) ∧ r.Idle ∧ r.limits = e₀.limits ∧ 0 < r.limits.maxApplyDepth)
      ((Machine.evaluator fuel).apply c [] e) := by
  obtain ⟨hgains, hidle⟩ := he
  obtain ⟨term, himplements, hmeans, hall⟩ := hc.body
  obtain ⟨s, hs⟩ : ∃ s : Engine, s = { e with depth := e.depth + 1 } := ⟨_, rfl⟩
  have hcreate : e.Gains { s with envs := (s.envs.create [] none).2 } := by
    subst hs
    exact .of_core (.create { e with depth := e.depth + 1 } [] none) rfl
  have henter := Reference.enter_thunk hc.positional hc.variadic s
  rw [hc.unbound] at henter
  generalize ht : ({ s with envs := (s.envs.create [] none).2 } : Engine) = t at hcreate henter
  have hloaded : t.Loaded n := (h.gains hgains).gains hcreate
  have hscope : t.envs.heap[s.envs.size]? = some ⟨[], none⟩ := by
    subst ht
    simp [Environments.create, Environments.size]
  have hmeans' : d.expression.core.Means t.store.symbols term :=
    (hx ▸ hmeans).mono hcreate.symbols
  -- the function literals were made when there were no macros of these numbers
  have hnot : term.All (fun _ => True) fun template => t.isMacro template = false := by
    refine hall.mono (fun _ => id) fun template href => ?_
    rw [hcreate.isMacro_eq, hgains.isMacro_eq, Engine.isMacro,
      Std.HashSet.contains_eq_false_iff_not_mem]
    exact fun hmem => absurd (h.macros_lt _ hmem) (Nat.not_lt.2 href)
  have hframe : e.frame ≤ e.sp := by rw [hidle.frame]; exact Nat.zero_le _
  have hallows : Regime.loading.allows s t := by
    subst ht
    exact ⟨rfl, (Gains.create s [] none).kept⟩
  have hdelivers := @Machine.delivers_apply .loading 7 e c [] _
    (fun ev hdepth => Machine.applyWith_ends himplements hframe hdepth (hs ▸ henter)
      (hs ▸ hallows) (hloaded.evals_definition hd hscope ev hmeans' hnot))
    (by rintro _ _ ⟨⟨_, ⟨⟩⟩, -⟩) (by decide) (Nat.zero_le _) hidle fuel
  rw [hgains.limits] at hdelivers
  refine hdelivers.mono ?_
  rintro v r ⟨hdepth, hidle', t', hcore, hlater, -, hloaded'⟩
  have hlimits : r.limits = e₀.limits :=
    (Engine.limits_of_core hcore).trans hlater.1
  exact ⟨hloaded'.of_core hcore, hidle', hlimits, hlimits ▸ Nat.zero_lt_of_lt hdepth⟩

end Engine.Loaded

end StackLisp

import StackLisp.Proofs.Building

/-!
# Expanding macros that bind

The macros `let`, `or` and `and` are turned into calls of function literals, `or` and `and` by way
of `let`, with a parameter that is a new symbol.

- `CallsLiteral`, `StopsEarly`: what forms are expanded to;
- `Engine.Loaded.macroCall?_grows`: macros are called as before while engines grow;
- `Engine.Loaded.expands_let`, `Engine.Loaded.expands_shortCircuit`: the macros one by one;
- `expansions_of_binding_macros`: their expansions on an engine that was built with the prelude.
-/

namespace StackLisp

open Compiler

/-- The form is a call `((fn (target ...) body ...) source ...)` of a function literal. -/
def CallsLiteral (table : SymbolTable) (targets body sources : List Value) (form : Value) : Prop :=
  ∃ fn parameters literal, table.lookup "fn" = some fn ∧ parameters.items? = some targets ∧
    literal.items? = some (.symbol fn :: parameters :: body) ∧
    form.items? = some (literal :: sources)

/-- The symbol occurs in the value. -/
inductive Value.Mentions (s : Symbol) : Value → Prop
  | symbol : Mentions s (.symbol s)
  | item {v item : Value} {items : List Value} : v.items? = some items → item ∈ items →
      Mentions s item → Mentions s v

/-- The form binds the value of `first` to a symbol that is unlike all symbols of the table, and
occurs in no value that is made of those. It goes on with the others if that value does not decide,
`((fn (g) (if g g (or other ...))) first)` or `((fn (g) (if g (and other ...) g)) first)`. -/
def StopsEarly (table : SymbolTable) (name : String) (keeps : Bool) (first : Value)
    (others : List Value) (form : Value) : Prop :=
  ∃ g if' op rest conditional,
    (∀ s : Symbol, s.id < table.nextId → s ≠ g) ∧
    (∀ v : Value, (∀ s, v.Mentions s → s.id < table.nextId) → ¬ v.Mentions g) ∧
    table.lookup "if" = some if' ∧ table.lookup name = some op ∧
    rest.items? = some (.symbol op :: others) ∧
    conditional.items? =
      some (.symbol if' :: .symbol g :: Vocabulary.branches keeps (.symbol g) rest) ∧
    CallsLiteral table [.symbol g] [conditional] [first] form

/-! ## Single expansions -/

section

variable {ev : Evaluator} {k : Keywords} {e e' : Engine} {form w : Value} {steps : Nat}

theorem Compiler.expandWithin_of_error {stop : Stop}
    (honce : expandOnce ev k form e = (.error stop, e')) :
    expandWithin ev k (steps + 1) form e = (.error stop, e') := by
  rw [expandWithin, Eval.bind_of_error honce]

/-- A form that was expanded to another one is expanded like that. -/
theorem Compiler.expandWithin_of_ok (honce : expandOnce ev k form e = (.ok w, e'))
    (hnot : w.identical form = false) :
    expandWithin ev k (steps + 1) form e = expandWithin ev k steps w e' := by
  rw [expandWithin, Eval.bind_of_ok honce, hnot]
  rfl

/-- A form that was expanded to one that calls no macro is expanded to that. -/
theorem Compiler.expandWithin_of_final (honce : expandOnce ev k form e = (.ok w, e'))
    (hnone : macroCall? k e' w = none) (hsteps : 0 < steps) :
    expandWithin ev k (steps + 1) form e = (.ok w, e') := by
  rw [expandWithin, Eval.bind_of_ok honce]
  split
  · rfl
  · exact expandWithin_of_noMacroCall hsteps hnone

end

/-- A function literal that is called is no call of a macro. -/
theorem CallsLiteral.macroCall?_eq_none {table : SymbolTable} {targets body sources : List Value}
    {form : Value} (h : CallsLiteral table targets body sources form) (k : Keywords) (e : Engine) :
    macroCall? k e form = none := by
  obtain ⟨fn, parameters, literal, -, -, hliteral, hform⟩ := h
  cases form with
  | list ref head args =>
    cases hform
    cases literal with
    | list => rfl
    | _ => cases hliteral
  | _ => rfl

/-- What is known of the end of an expansion while engines grow. -/
def Engine.Expands (e : Engine) (Q : Value → Prop) (slots : Nat)
    (outcome : Except Stop Value × Engine) : Prop :=
  ∃ r e', outcome = (r, e') ∧ e.Grows e' ∧ e'.Idle ∧ ((∃ w, r = .ok w ∧ Q w) ∨
    e.limits.maxSlots < slots ∧
      ∃ needed limit, r = .error (.fault (.exhausted (.stack needed limit))))

/-- A macro is applied by a form that calls it. -/
theorem Setting.Serves.expands {m : Nat} {table : SymbolTable} {named : table.Named} {e : Engine}
    {k : Keywords} {form : Value} {c : Closure} {args : List Value} {Q : Value → Prop}
    (h : ∀ ev, (Setting.growing ev table named).Serves { e with depth := e.depth + 1 } m c args
      (Meets Q)) (hcall : macroCall? k e form = some (c, args)) (hidle : e.Idle)
    (hdepth : 0 < e.limits.maxApplyDepth) {fuel : Nat} (hfuel : m + 2 ≤ fuel) :
    e.Expands Q (args.length + (m + 2) * stride)
      (expandOnce (Machine.evaluator fuel) k form e) := by
  have hframe : e.frame ≤ e.sp := by rw [hidle.frame]; exact Nat.zero_le _
  obtain ⟨r, e', t, hrun, hidle', hcore, hgrows, hresult⟩ := Machine.apply_cases (R := .growing)
    (P := fun r _ => Meets Q r) (fun ev hnot => (h ev).ends hframe hnot) hidle hdepth hfuel
  rw [expandOnce, Eval.bind_of_ok (Eval.get_run e), hcall]
  refine ⟨r, e', hrun, .of_core hgrows hcore, hidle', hresult.imp_left ?_⟩
  rintro ⟨_, rfl, w, rfl, hw⟩
  exact ⟨w, rfl, hw⟩

namespace Engine.Loaded

variable {n : Nat} {e₀ e : Engine} {k : Keywords} (h : e₀.Loaded n) (hg : e₀.Grows e)
include h hg

/-- The names of macros call them as long as nothing but new objects was made macros. -/
theorem macroCall?_grows (form : Value) : macroCall? k e form = macroCall? k e₀ form := by
  -- a name bound to a closure is bound to an old object, and no old object became a macro
  have hsame : ∀ (s : Symbol) (c : Closure), e₀.global? s = some (.closure c) →
      e.isMacro c = e₀.isMacro c := fun s c hglobal => by
    have hmem := hg.macros c.ref (h.closures_lt s c hglobal)
    rw [Engine.isMacro, Engine.isMacro, Bool.eq_iff_iff, ← Std.HashSet.mem_iff_contains,
      ← Std.HashSet.mem_iff_contains]
    exact hmem
  have hglobals : ∀ s, e.global? s = e₀.global? s := fun s => by
    rw [global?, global?, hg.globals]
  cases form with
  | list ref head args =>
    cases head with
    | symbol s =>
      rw [macroCall?, macroCall?, hglobals]
      cases hglobal : e₀.global? s with
      | none => rfl
      | some v =>
        cases v with
        | closure c => simp only [hsame s c hglobal]
        | _ => rfl
    | _ => rfl
  | _ => rfl

end Engine.Loaded

namespace Engine.Loaded

-- the names are those that were known before the keywords of the compiler
variable {n : Nat} {base e₀ e : Engine} {k : Keywords} (h : base.Loaded n) (hb : base.Gains e₀)
  (hk : k.Canonical e₀.store.symbols) (hg : e₀.Grows e) (hidle : e.Idle)
  (hdepth : 0 < e.limits.maxApplyDepth)
include h hb hk hg hidle hdepth

/-- A form that calls a macro of the library is turned into what the macro makes of it. -/
theorem expands_once {i m : Nat} {d : Definition} (hd : Vocabulary.all[i]? = some d) (hi : i < n)
    (hkind : d.isMacro = true) {s : Symbol} (hs : base.store.symbols.lookup d.name = some s)
    {args : List Value} {Q : Value → Prop}
    (hserves : ∀ (ev : Evaluator) (t : Engine), t = { e with depth := e.depth + 1 } →
      Library base.store.symbols n t → ∃ c, t.Knows base.store.symbols d.name (.closure c) ∧
        (Setting.growing ev base.store.symbols h.made.named).Serves t m c args (Meets Q))
    (ref : Ref) {fuel : Nat} (hfuel : m + 2 ≤ fuel) :
    e.Expands Q (args.length + (m + 2) * stride)
      (expandOnce (Machine.evaluator fuel) k (.list ref (.symbol s) args) e) := by
  obtain ⟨c, hknows, -⟩ := h.defines i d hd hi
  have hcall : macroCall? k e (.list ref (.symbol s) args) = some (c, args) := by
    rw [(h.gains hb).macroCall?_grows hg]
    exact (h.gains hb).macroCall?_eq_some hk hd hi hkind (hb.knows hknows) (hb.symbols.known hs)
  -- the macro runs one level deeper, on an engine that has grown since the library was loaded
  have hlater : base.Grows { e with depth := e.depth + 1 } :=
    @Grows.of_core base e _ base.depth (e.depth + 1) (hb.grows.trans hg) rfl
  have hlibrary : Library base.store.symbols n { e with depth := e.depth + 1 } :=
    Library.later (W := .growing (Machine.evaluator 0) base.store.symbols h.made.named)
      (h.library (.refl _)) hlater
  have hserve : ∀ ev, (Setting.growing ev base.store.symbols h.made.named).Serves
      { e with depth := e.depth + 1 } m c args (Meets Q) := fun ev => by
    obtain ⟨c', hknows', hc'⟩ := hserves ev _ rfl hlibrary
    have hsame := hknows'.unique
      (Setting.knows (W := .growing ev base.store.symbols h.made.named) hlater hknows)
    exact Value.closure.inj hsame ▸ hc'
  exact Setting.Serves.expands hserve hcall hidle hdepth hfuel

/-- The macro `let` is expanded to a call of a function literal. -/
theorem expands_let (hn : 18 ≤ n) {s : Symbol} (hs : base.store.symbols.lookup "let" = some s)
    {l : Value} {bindings : List Value} (hl : l.items? = some bindings)
    {pairs : List (Value × List Value)}
    (hpairs : List.Forall₂ (fun b p => Value.items? b = some (p.1 :: p.2)) bindings pairs)
    (body : List Value) (ref : Ref) {steps fuel : Nat} (hsteps : 2 ≤ steps)
    (hfuel : 62 + pairs.length * 213 ≤ fuel) :
    e.Expands
      (CallsLiteral base.store.symbols (pairs.map Prod.fst) body (pairs.map (·.2.headD .nil)))
      (body.length + 1 + (62 + pairs.length * 213) * stride)
      (expandWithin (Machine.evaluator fuel) k steps (.list ref (.symbol s) (l :: body)) e) := by
  -- what the macro takes out of the bindings is what their pairs say
  have hmap : ∀ {f : Value → Value} {g : Value × List Value → Value},
      (∀ b p, b.items? = some (p.1 :: p.2) → f b = g p) → bindings.map f = pairs.map g :=
    fun hfg => (congrFun (congrFun List.forall₂_eq_eq_eq _) _).mp (List.forall₂_map_left_iff.2
      (List.forall₂_map_right_iff.2 (hpairs.imp hfg)))
  have htargets : bindings.map Library.targetOf = pairs.map Prod.fst :=
    hmap fun b p hb => by rw [Library.targetOf, hb]; rfl
  have hsources : bindings.map Library.sourceOf = pairs.map (·.2.headD .nil) :=
    hmap fun b p hb => by rw [Library.sourceOf, hb]; rfl
  have hlists : ∀ b ∈ bindings, ∃ items, b.items? = some items :=
    ((List.forall₂_and_left _ _).1 (hpairs.imp fun b p hb => ⟨⟨_, hb⟩, hb⟩)).1
  have hserves : ∀ (ev : Evaluator) (t : Engine), t = { e with depth := e.depth + 1 } →
      Library base.store.symbols n t → ∃ c, t.Knows base.store.symbols "let" (.closure c) ∧
        (Setting.growing ev base.store.symbols h.made.named).Serves t (60 + pairs.length * 213) c
          (l :: body) (Meets (CallsLiteral base.store.symbols (pairs.map Prod.fst) body
            (pairs.map (·.2.headD .nil)))) := fun ev t _ hlibrary => by
    obtain ⟨c, hknows, hhandles⟩ := Library.letMacro
      (W := .growing ev base.store.symbols h.made.named) hlibrary hn
    refine ⟨c, hknows, (hhandles body hl hlists).outside.mono (by rw [hpairs.length_eq])
      fun r hr => hr.imp fun w hw => ⟨hw.1, ?_⟩⟩
    obtain ⟨fn, targets, literal, hfn, hparameters, hliteral, hform⟩ := hw.2
    exact ⟨fn, targets, literal, hfn, htargets ▸ hparameters.1, hliteral.1, hsources ▸ hform.1⟩
  have hcost : 60 + pairs.length * 213 + 2 = 62 + pairs.length * 213 := by omega
  obtain ⟨r, e', hrun, hgrows, hidle', hresult⟩ := h.expands_once hb hk hg hidle hdepth
    (d := Vocabulary.letMacro) (i := 17) rfl (by omega) rfl hs hserves ref (hcost.trans_le hfuel)
  rw [hcost, List.length_cons] at hresult
  obtain ⟨steps, rfl⟩ := Nat.exists_eq_add_of_le' hsteps
  refine ⟨r, e', ?_, hgrows, hidle', hresult⟩
  obtain ⟨w, rfl, hw⟩ | ⟨-, needed, limit, rfl⟩ := hresult
  · exact expandWithin_of_final hrun (hw.macroCall?_eq_none k e') (Nat.succ_pos steps)
  · exact expandWithin_of_error hrun

/-- The form that `or` and `and` make is a call of `let`, which is expanded in turn. -/
theorem expands_shortCircuits (hn : 18 ≤ n) {name : String} {keeps : Bool} {first w : Value}
    {others : List Value} {t : Engine}
    (hw : Library.ShortCircuits (.growing (Machine.evaluator 0) base.store.symbols h.made.named) t
      name keeps first others w)
    (hids : base.store.symbols.nextId ≤ t.store.symbols.nextId) {steps fuel : Nat}
    (hsteps : 2 ≤ steps) (hfuel : 300 ≤ fuel) :
    e.Expands (StopsEarly base.store.symbols name keeps first others) (300 * stride)
      (expandWithin (Machine.evaluator fuel) k steps w e) := by
  obtain ⟨let', if', op, g, pair, pairs, rest, conditional, hlet, hif, hop,
    ⟨t₁, hallows, hsymbol⟩, hpair, hpairs, hrest, hconditional, hform⟩ := hw
  obtain ⟨ref, rfl, -⟩ := hform.exists_list
  have hbound : List.Forall₂ (fun b (p : Value × List Value) => b.items? = some (p.1 :: p.2))
      [pair] [(.symbol g, [first])] := .cons hpair.1 .nil
  have henough : 62 + [(Value.symbol g, [first])].length * 213 ≤ fuel := by
    rw [List.length_singleton]
    omega
  obtain ⟨r, e', hrun, hgrows, hidle', hresult⟩ := h.expands_let hb hk hg hidle hdepth hn hlet
    hpairs.1 hbound [conditional] ref hsteps henough
  refine ⟨r, e', hrun, hgrows, hidle', ?_⟩
  -- the symbol is younger than all that the names of the library were known with
  have hfresh : base.store.symbols.nextId ≤ g.id := by
    subst hsymbol
    exact hids.trans (Engine.Grows.toAdds hallows).ids
  obtain ⟨w, rfl, hw⟩ | ⟨hfull, hstop⟩ := hresult
  · refine .inl ⟨w, rfl, g, if', op, rest, conditional, ?_, ?_, hif, hop, hrest.1,
      hconditional.1, hw⟩
    · rintro s hlt rfl
      exact absurd hlt (Nat.not_lt.2 hfresh)
    · exact fun v hv hmentions => absurd (hv g hmentions) (Nat.not_lt.2 hfresh)
  · refine .inr ⟨?_, hstop⟩
    simp only [List.length_cons, List.length_nil, stride] at hfull ⊢
    omega

/-- The macros `or` and `and` are expanded by way of `let`, when there are two forms or more. -/
theorem expands_shortCircuit (hn : 18 ≤ n) {name empty : String} {keeps : Bool} {i : Nat}
    (hd : Vocabulary.all[i]? = some (Vocabulary.shortCircuit name empty keeps)) (hi : i < n)
    {s : Symbol} (hs : base.store.symbols.lookup name = some s) {ref : Ref}
    (href : ref < e.store.nextRef) (first other : Value) (others : List Value) {steps fuel : Nat}
    (hsteps : 3 ≤ steps) (hfuel : 300 ≤ fuel) :
    e.Expands (StopsEarly base.store.symbols name keeps first (other :: others))
      (others.length + 300 * stride)
      (expandWithin (Machine.evaluator fuel) k steps
        (.list ref (.symbol s) (first :: other :: others)) e) := by
  have hserves : ∀ (ev : Evaluator) (t : Engine), t = { e with depth := e.depth + 1 } →
      Library base.store.symbols n t → ∃ c, t.Knows base.store.symbols name (.closure c) ∧
        (Setting.growing ev base.store.symbols h.made.named).Serves t 94 c
          (first :: other :: others) (Meets fun w => ∃ t, t = { e with depth := e.depth + 1 } ∧
            Library.ShortCircuits (.growing (Machine.evaluator 0) base.store.symbols h.made.named) t
              name keeps first (other :: others) w) := fun ev t ht hlibrary => by
    obtain ⟨c, hknows, hserves⟩ := Library.shortCircuit
      (W := .growing ev base.store.symbols h.made.named) Setting.growing_binds hlibrary (by omega)
      hd hi
    exact ⟨c, hknows, (hserves first other others).mono le_rfl fun r hr =>
      hr.imp fun w hw => ⟨hw.1, t, ht, hw.2⟩⟩
  have henough : 94 + 2 ≤ fuel := by omega
  obtain ⟨r, e', hrun, hgrows, hidle', hresult⟩ :=
    h.expands_once hb hk hg hidle hdepth hd hi rfl hs hserves ref henough
  obtain ⟨steps, rfl⟩ := Nat.exists_eq_add_of_le' hsteps
  obtain ⟨w, rfl, t, ht, hw⟩ | ⟨hfull, needed, limit, rfl⟩ := hresult
  · -- the new list is not the form that was there
    have hnot : w.identical (.list ref (.symbol s) (first :: other :: others)) = false := by
      obtain ⟨_, _, _, _, _, _, _, _, -, -, -, -, -, -, -, -, hform⟩ := hw
      obtain ⟨ref', rfl, hnew⟩ := hform.exists_list
      have hne : ref' ≠ ref := by
        subst ht
        exact (href.trans_le hnew).ne'
      simp [Value.identical, Value.identity, hne]
    -- the new parameter is newer than every symbol of the library
    have hids : base.store.symbols.nextId ≤ t.store.symbols.nextId := by
      subst ht
      exact hb.ids.trans hg.ids
    have hdepth' : 0 < e'.limits.maxApplyDepth := by rwa [hgrows.limits]
    obtain ⟨r, e'', hrun', hgrows', hidle'', hresult⟩ := h.expands_shortCircuits hb hk
      (hg.trans hgrows) hidle' hdepth' hn hw hids (Nat.le_add_left 2 steps) hfuel
    refine ⟨r, e'', (expandWithin_of_ok hrun hnot).trans hrun', hgrows.trans hgrows', hidle'',
      hresult.imp_right fun hstop => ⟨?_, hstop.2⟩⟩
    have hfull := hstop.1
    rw [hgrows.limits] at hfull
    omega
  · refine ⟨_, e', expandWithin_of_error hrun, hgrows, hidle', .inr ⟨?_, needed, limit, rfl⟩⟩
    simp only [List.length_cons, stride] at hfull ⊢
    omega

end Engine.Loaded

/-! ## Expanding on engines that were built -/

/-- What is known of the end of an expansion is known of it from before the keywords were made. -/
theorem Engine.Expands.concludes {e e₁ : Engine} {Q : Value → Prop} {slots : Nat}
    {outcome : Except Stop Value × Engine} (h : e₁.Expands Q slots outcome) (hg : e.Gains e₁) :
    Concludes e (Meets Q) slots outcome := by
  obtain ⟨r, e', rfl, hgrows, -, hresult⟩ := h
  rw [hg.limits] at hresult
  refine ⟨hresult.imp_left ?_, hgrows.globals.trans hg.globals, fun env scope henv =>
    hgrows.kept (hg.kept henv)⟩
  rintro ⟨w, rfl, hw⟩
  exact ⟨.ok w, rfl, w, rfl, hw⟩

theorem Machine.evaluator_fuel (fuel : Nat) : (Machine.evaluator fuel).fuel = fuel - 1 := by
  cases fuel <;> rfl

/-- The keywords are made, and then the form is expanded. -/
theorem Compiler.exists_expand {e : Engine} (hidle : e.Idle) :
    ∃ k e₁, k.Canonical e₁.store.symbols ∧ e.Gains e₁ ∧ e₁.Idle ∧
      ∀ ev v, expand ev v e = expandWithin ev k ev.fuel v e₁ := by
  obtain ⟨hreads, hk⟩ := Keywords.intern_cases e.store
  have hexpand : ∀ ev v, expand ev v e = (Eval.onStore Keywords.intern >>= fun k =>
      expandWithin ev k ev.fuel v) e := fun ev v => rfl
  have hrun := Eval.onStore_run Keywords.intern e
  generalize Keywords.intern e.store = made at hreads hk hrun
  exact ⟨made.1, { e with store := made.2 }, hk, .store hreads,
    ⟨hidle.sp, hidle.frame, hidle.depth⟩, fun ev v => (hexpand ev v).trans (Eval.bind_of_ok hrun _)⟩

/-- On an engine that was built with the prelude, and then made symbols and objects for forms, `let`
is expanded to a call of a function literal, where a source that is missing is nil. So are `or` and
`and` with two forms or more, of which each stays what it is, and the parameter of the literal is a
new symbol. Nothing else can happen but that the stack is used up. -/
theorem expansions_of_binding_macros {setup : Setup} (hbuiltins : setup.builtins = true)
    (hprelude : setup.prelude = true) {files : String → FileAnswer} {building : Nat}
    {built : Engine} (hbuild : Interpreter.build building setup files = .ok built) {store : Store}
    (hstore : Phrase.StoreReads built.store store) {e : Engine} (he : e = { built with store }) :
    (∀ (ref : Ref) (s : Symbol) (l : Value) (bindings body : List Value)
        (pairs : List (Value × List Value)), e.store.symbols.lookup "let" = some s →
      l.items? = some bindings →
      List.Forall₂ (fun b p => Value.items? b = some (p.1 :: p.2)) bindings pairs →
      ∀ fuel, 62 + pairs.length * 213 ≤ fuel →
        Concludes e (Meets (CallsLiteral e.store.symbols (pairs.map Prod.fst) body
            (pairs.map (·.2.headD .nil))))
          (body.length + 1 + (62 + pairs.length * 213) * stride)
          (expand (Machine.evaluator fuel) (.list ref (.symbol s) (l :: body)) e)) ∧
    ∀ name keeps, (name, keeps) ∈ [("or", true), ("and", false)] →
      ∀ (ref : Ref) (s : Symbol) (first other : Value) (others : List Value),
        e.store.symbols.lookup name = some s → ref < e.store.nextRef →
        ∀ fuel, 300 ≤ fuel →
          Concludes e (Meets (StopsEarly e.store.symbols name keeps first (other :: others)))
            (others.length + 300 * stride)
            (expand (Machine.evaluator fuel)
              (.list ref (.symbol s) (first :: other :: others)) e) := by
  obtain ⟨hloaded₀, hidle₀, hdepth⟩ := Interpreter.loaded_of_build hbuiltins hprelude hbuild
  have hloaded : e.Loaded Vocabulary.phrases.length := he ▸ hloaded₀.gains (.store hstore)
  have hidle : e.Idle := he ▸ ⟨hidle₀.sp, hidle₀.frame, hidle₀.depth⟩
  have hlimits : e.limits = built.limits := he ▸ rfl
  -- the keywords come first, which adds nothing but symbols
  obtain ⟨k, e₁, hk, hgains, hidle₁, hexpand⟩ := Compiler.exists_expand hidle
  have hdepth₁ : 0 < e₁.limits.maxApplyDepth := by rwa [hgains.limits, hlimits]
  have hsame := (Engine.Gains.refl e₁).grows
  constructor
  · intro ref s l bindings body pairs hs hl hpairs fuel hfuel
    have hsteps : 2 ≤ (Machine.evaluator fuel).fuel := by
      rw [Machine.evaluator_fuel]
      omega
    rw [hexpand]
    exact (hloaded.expands_let hgains hk hsame hidle₁ hdepth₁ (by decide) hs hl hpairs body ref
      hsteps hfuel).concludes hgains
  · intro name keeps hname ref s first other others hs href fuel hfuel
    have href₁ : ref < e₁.store.nextRef := href.trans_le hgains.refs
    have hsteps : 3 ≤ (Machine.evaluator fuel).fuel := by
      rw [Machine.evaluator_fuel]
      omega
    obtain ⟨i, empty, hi, hd⟩ : ∃ i empty, i < Vocabulary.phrases.length ∧
        Vocabulary.all[i]? = some (Vocabulary.shortCircuit name empty keeps) := by
      simp only [List.mem_cons, Prod.mk.injEq, List.not_mem_nil, or_false] at hname
      rcases hname with ⟨rfl, rfl⟩ | ⟨rfl, rfl⟩
      · exact ⟨19, "nil", by decide, rfl⟩
      · exact ⟨20, "true", by decide, rfl⟩
    rw [hexpand]
    exact (hloaded.expands_shortCircuit hgains hk hsame hidle₁ hdepth₁ (by decide) hd hi hs href₁
      first other others hsteps hfuel).concludes hgains

/-- Forms with a symbol that was made for them: a binding without a source, and a form that occurs
twice. -/
theorem expansions_of_forms_with_new_symbol :
    ∃ (built : Engine) (let' and' : Symbol),
      Interpreter.build 301 Interpreter.roomy (fun _ => .unread) = .ok built ∧
      let x := Value.symbol (built.store.intern "x").1
      let e := { built with store := (built.store.intern "x").2.fresh.2 }
      e.store.symbols.lookup "let" = some let' ∧ e.store.symbols.lookup "and" = some and' ∧
      Concludes e (Meets (CallsLiteral e.store.symbols [x, x] [x] [.boolean true, .nil]))
        (2 + 488 * stride)
        (expand (Machine.evaluator 600) (.list 0 (.symbol let')
          [.list 1 (.list 2 x [.boolean true]) [.list 3 x []], x]) e) ∧
      Concludes e (Meets (StopsEarly e.store.symbols "and" false x [x, .nil])) (1 + 300 * stride)
        (expand (Machine.evaluator 600)
          (.list built.store.nextRef (.symbol and') [x, x, .nil]) e) := by
  obtain ⟨built, hbuild⟩ := Interpreter.exists_build_roomy fun _ => .unread
  have hreads : Phrase.StoreReads built.store (built.store.intern "x").2.fresh.2 :=
    (Phrase.StoreReads.intern built.store "x").trans (.object _)
  obtain ⟨hloaded, -, -⟩ := Interpreter.loaded_of_build rfl rfl hbuild
  obtain ⟨_, ⟨let', hlet, -⟩, -⟩ := hloaded.defines 17 _ rfl (by decide)
  obtain ⟨_, ⟨and', hand, -⟩, -⟩ := hloaded.defines 20 _ rfl (by decide)
  obtain ⟨hlets, hearly⟩ := expansions_of_binding_macros rfl rfl hbuild hreads rfl
  obtain ⟨x, hx⟩ : ∃ x, x = Value.symbol (built.store.intern "x").1 := ⟨_, rfl⟩
  have hlet' := hlets 0 let' (.list 1 (.list 2 x [.boolean true]) [.list 3 x []])
    [.list 2 x [.boolean true], .list 3 x []] [x] [(x, [.boolean true]), (x, [])]
    (hreads.symbols.known hlet) rfl (.cons rfl (.cons rfl .nil)) 600 (by simp)
  have hand' := hearly "and" false (by simp) built.store.nextRef and' x x [.nil]
    (hreads.symbols.known hand) (Nat.lt_succ_self _) 600 (by decide)
  subst hx
  exact ⟨built, let', and', hbuild, hreads.symbols.known hlet, hreads.symbols.known hand,
    hlet'.mono (fun _ => id) (by simp), hand'⟩

end StackLisp

import StackLisp.Proofs.Sessions

/-!
# What capturing an environment does to scopes

When a function literal is evaluated, the environment of the running call is linked to that of its
caller, also if it was already enclosed by the environment of the function that runs. From then on
the scope of the running function is that of its caller.

- `Environments.resolve_link_iff`: when linking an environment anew is not seen;
- `closure_keeps_scopes_iff`: evaluating a function literal keeps all scopes exactly when the caller
  of the running function sees, of the symbols that are not bound in the call itself, what the
  function sees;
- `Stands`: where a machine stands in the course of a session, call by call, for an example in which
  it does not.
-/

namespace StackLisp

attribute [local instance] Unbound.never

namespace Environments

variable {envs : Environments} {env inner outer : EnvId} {symbol : Symbol}

/-- Older environments do not see a new link. -/
theorem resolve_link_of_lt (ho : envs.Older) (hlt : outer < inner) (henv : env < inner) :
    (envs.link inner outer).resolve env symbol = envs.resolve env symbol := by
  induction env using Nat.strong_induction_on with
  | _ env ih =>
    rw [resolve_step (ho.link hlt), resolve_step ho, bindings_link, next?_link,
      if_neg fun h => henv.ne h.1]
    split
    · rfl
    · cases h : envs.next? env with
      | none => rfl
      | some next =>
        have hnext := ho env next h
        exact ih next hnext (hnext.trans henv)

/-- A new link of an environment is not seen exactly when the environment that it leads to resolves
the symbols that are not bound in between as the one that the old link led to. -/
theorem resolve_link_iff (ho : envs.Older) (hlt : outer < inner)
    (hlinked : (envs.next? inner).isSome) :
    (∀ env symbol, (envs.next? env).isSome →
      (envs.link inner outer).resolve env symbol = envs.resolve env symbol) ↔
    ∀ symbol, envs.contains inner symbol = false →
      envs.resolve outer symbol = (envs.next? inner).bind fun next => envs.resolve next symbol := by
  obtain ⟨old, hold⟩ := Option.isSome_iff_exists.1 hlinked
  have hsize := envs.lt_size_of_next? _ hold
  have ho' := ho.link hlt
  have hinner : (envs.link inner outer).next? inner = some outer := by
    rw [next?_link, if_pos ⟨rfl, hsize⟩]
  constructor
  · intro h symbol hfree
    have hbindings : (envs.bindings inner).get? symbol = none := by
      simpa [contains] using hfree
    have heq := h inner symbol hlinked
    rw [resolve_step ho', resolve_step ho, bindings_link, hbindings, hinner] at heq
    dsimp only [Option.bind_some] at heq
    rw [← heq, resolve_link_of_lt ho hlt hlt]
  · intro h
    -- by induction on the environment: only the inner one has a new link
    have hsame : ∀ env symbol,
        (envs.link inner outer).resolve env symbol = envs.resolve env symbol := by
      intro env symbol
      induction env using Nat.strong_induction_on with
      | _ env ih =>
        rw [resolve_step ho', resolve_step ho, bindings_link]
        cases hv : (envs.bindings env).get? symbol with
        | some v => rfl
        | none =>
          dsimp only
          by_cases heq : env = inner
          · subst heq
            rw [hinner, Option.bind_some, resolve_link_of_lt ho hlt hlt]
            exact h symbol (by simp [contains, hv])
          · rw [next?_link, if_neg fun h => heq h.1]
            cases hnext : envs.next? env with
            | none => rfl
            | some next => exact ih next (ho env next hnext)
    exact fun env symbol _ => hsame env symbol

end Environments

/-! ## Evaluating a function literal -/

theorem Code.decode_of_fetch {code : Code} {p : Nat} {i : Instruction}
    (h : code.fetch p = .ok i) : code.decode p = .ok i := by
  unfold fetch at h
  split at h
  · rename_i hd
    unfold executable at h
    split at h
    · cases h
    · cases h
      exact hd
  · cases h

/-- Of the calls in progress, only the running one gets a new link. -/
theorem linkUp_eq {envs : Environments} {env caller : EnvId} {callers : List EnvId}
    (hne : caller ≠ env)
    (hlinked : ∀ other ∈ (env :: caller :: callers).dropLast, (envs.next? other).isSome) :
    linkUp envs (env :: caller :: callers) = envs.link env caller := by
  rw [linkUp]
  split
  · rfl
  · rename_i hunlinked
    cases callers with
    | nil => rfl
    | cons other others =>
      -- the caller is a call of a bound closure, so its environment is linked
      have hcaller := hlinked caller (by simp)
      rw [Environments.next?_link, if_neg fun h => hne h.1] at hunlinked
      exact absurd hcaller hunlinked

/-- The function that is bound is a fresh copy, which is a macro if the function was one. -/
theorem Reference.bind_eq (env : EnvId) (callers : List EnvId) (template : Closure) (e : Engine) :
    bind env callers template e =
      (.ok (.closure { template with ref := e.store.nextRef, env := some env }),
        { e with
          store := e.store.fresh.2
          envs := linkUp e.envs (env :: callers)
          macros := if e.isMacro template then e.macros.insert e.store.nextRef
            else e.macros }) := by
  unfold bind
  simp only [Eval.bind_run, Eval.modify_run, Eval.onStore_run, chain_eq, Eval.pure_run]
  refine Prod.ext rfl ?_
  dsimp only
  split
  case isTrue hmarked =>
    rw [if_pos (show e.isMacro template from hmarked)]
    rfl
  case isFalse hmarked =>
    rw [if_neg (show ¬ e.isMacro template from hmarked)]
    rfl

/-- Binding a function links up the environments of the calls in progress. -/
theorem Reference.bind_run (env : EnvId) (callers : List EnvId) (template : Closure) (e : Engine) :
    ∃ v e', bind env callers template e = (.ok v, e') ∧
      e'.envs = linkUp e.envs (env :: callers) :=
  ⟨_, _, bind_eq env callers template e, rfl⟩

/-- Wherever a program evaluates a function literal, all environments that are enclosed by others
resolve all symbols as before exactly when there is no caller, or else the environment of the
caller resolves the symbols that are not bound in the running call as the environment around the
running call did. -/
theorem closure_keeps_scopes_iff {fuel home : Nat} {e : Engine} {a : Activation}
    (h : Occurs fuel home e a) (hd : a.closure.code.fetch a.position = .ok .closure) :
    ∃ env callers next e',
      CallFrame.enclosing e.stack home (e.stack.size + 1) e.frame #[] =
        .ok (env :: callers).toArray ∧
      Machine.step (Machine.evaluator fuel) home a e = (.ok (.running next), e') ∧
      ((∀ other symbol, (e.envs.next? other).isSome →
          e'.envs.resolve other symbol = e.envs.resolve other symbol) ↔
        ∀ caller ∈ callers.head?, ∀ symbol, e.envs.contains env symbol = false →
          e.envs.resolve caller symbol =
            (e.envs.next? env).bind fun around => e.envs.resolve around symbol) := by
  obtain ⟨floor, hhome, hs, f, rest, hclosure, hf, hgo⟩ := h.coherent
  obtain ⟨c, p⟩ := a
  obtain rfl : c = f.closure := hclosure
  have hdecode := Code.decode_of_fetch hd
  -- the function to be bound is on top of the operands
  obtain ⟨-, template, operands, -, -, hoperands⟩ := hgo.of_closure hdecode
  obtain ⟨v, e₁, hbind, henvs⟩ := Reference.bind_run f.env (rest.map Frame.env) template e
  have hperforms : Performs home floor e (Machine.step (Machine.evaluator fuel) home ⟨f.closure, p⟩)
    _ _ _ := Machine.performs_closure hhome hf hdecode hoperands
  obtain ⟨e', hstep, hr, -⟩ := hperforms.ok hbind
  have hwalk := CallFrame.enclosing_eq hhome hf (Nat.lt_succ_of_le hf.length_le_size) #[]
  refine ⟨f.env, rest.map Frame.env, _, e', by simpa [Stack.size] using hwalk, hstep, ?_⟩
  rw [hr.envs, henvs]
  cases rest with
  | nil => simp [linkUp]
  | cons g rest =>
    have hlt : g.env < f.env := (List.pairwise_cons.1 hgo.scopes).1 g.env (List.mem_cons_self ..)
    have hlinked := hgo.linked id
    rw [List.map_cons, List.map_cons] at hlinked
    rw [List.map_cons, linkUp_eq hlt.ne hlinked,
      Environments.resolve_link_iff hs.older hlt (hlinked f.env (by simp))]
    simp

/-! ## An example -/

/-- Evaluating a form asks for a call of the function that it is compiled to. -/
theorem asks_evalForm {ev : Evaluator} {form : Value} {c : Closure} {e e' : Engine}
    (h : ∀ other : Evaluator, other.fuel = ev.fuel →
      Compiler.compileThunk other form e = (.ok c, e')) :
    Asks (Machine.evalForm · form) ev e (.apply c []) e' := by
  classical
  obtain ⟨answer, hne⟩ : ∃ answer : Except Stop Value × Engine,
      answer.1 ≠ (ev.apply c [] e').1 := by
    cases (ev.apply c [] e').1 with
    | ok v => exact ⟨(.error .outOfFuel, e'), by simp⟩
    | error stop => exact ⟨(.ok .nil, e'), by simp⟩
  -- another evaluator, which gives the other answer to this request only
  obtain ⟨other, hother⟩ : ∃ other : Evaluator, other = { ev with
      apply := fun d args s =>
        if Request.apply d args = .apply c [] ∧ s = e' then answer else ev.apply d args s } :=
    ⟨_, rfl⟩
  have hfuel : other.fuel = ev.fuel := by rw [hother]
  have hanswer : other.apply c [] e' = answer := by
    rw [hother]
    exact if_pos ⟨rfl, rfl⟩
  have hrun : ∀ any : Evaluator, any.fuel = ev.fuel →
      Machine.evalForm any form e = any.apply c [] e' :=
    fun any hany => Eval.bind_of_ok (h any hany) _
  refine ⟨other, hfuel, fun r s hrs => ?_, ?_⟩
  · rw [hother]
    cases r with
    | apply d args => exact if_neg hrs
    | loadFile path => rfl
  · simp only [hrun other hfuel, hrun ev rfl, hanswer]
    exact hne

namespace Compiler

/-- The form `(fn (x) (fn () (fn ())))`. -/
def makerLiteral (k : Keywords) (x : Symbol) : Value :=
  .list 3 (.symbol k.function) [.list 2 (.symbol x) [],
    .list 1 (.symbol k.function) [.nil, emptyLiteral k]]

/-- What it is compiled to. -/
def maker (x : Symbol) (ref : Ref) : Closure :=
  { ref := ref + 2, name := "anonymous", code := #[1, 8, 1, 12, 3], positional := 1
    variadic := false, constants := #[.symbol x, .closure (emptyThunk ref)], env := none }

/-- The form `(((fn (x) (fn () (fn ()))) nil))`, which calls what the function makes. -/
def callOfMade (k : Keywords) (x : Symbol) : Value :=
  .list 5 (.list 4 (makerLiteral k x) [.nil]) []

/-- What it is compiled to. -/
def callOfMadeThunk (x : Symbol) (ref : Ref) : Closure :=
  { ref := ref + 3, name := "anonymous", code := #[2, 8, 0, 12, 8, 1, 4, 1, 4, 0, 3]
    positional := 0, variadic := false, constants := #[.closure (maker x ref), .nil], env := none }

theorem proper_callOfMade (k : Keywords) (x : Symbol) : (callOfMade k x).Proper 0 := by
  simp [callOfMade, makerLiteral, emptyLiteral, Value.proper_list_iff, Value.Proper.symbol,
    Value.Proper.nil]

section

variable {ev : Evaluator} (hfuel : 0 < ev.fuel) {k : Keywords} {x : Symbol}
include hfuel

theorem compileForm_makerLiteral (hx : x ≠ k.rest) (limit room : Nat) (e : Engine) :
    compileForm ev k limit (room + 3) (makerLiteral k x) {} e =
      (.ok ((), (({ constants := #[.closure (maker x e.store.nextRef)] } : Builder).emit
        (.const 0)).emit .closure), { e with store := e.store.fresh.2.fresh.2.fresh.2 }) := by
  let body : List Value := [.list 1 (.symbol k.function) [.nil, emptyLiteral k]]
  have hmade : (Shape.function (.thunk [emptyLiteral k])).Of k (.symbol k.function)
      [.nil, emptyLiteral k] :=
    ⟨Keywords.special?_eq_function_iff.2 rfl, .nil, [], rfl, rfl, .plain [] (by simp)⟩
  have hmaker : (Shape.function ⟨none, ⟨[x], 1, false⟩, body⟩).Of k (.symbol k.function)
      (.list 2 (.symbol x) [] :: body) :=
    ⟨Keywords.special?_eq_function_iff.2 rfl, _, _, rfl, rfl, .plain [x] (by simpa using hx.symm)⟩
  have hone : (Builder.ofParameters [x]).constants.size ≤ 65535 := Nat.le_of_ble_eq_true rfl
  have hliteral : compileLiteral (compileForm ev k limit (room + 2))
      ⟨none, ⟨[x], 1, false⟩, body⟩ e =
        (.ok (maker x e.store.nextRef), { e with store := e.store.fresh.2.fresh.2.fresh.2 }) :=
    compileLiteral_form _ rfl (compileForm_function hfuel hmade
      (compileLiteral_emptyLiteral hfuel k limit room e) hone) rfl
  exact compileForm_function hfuel hmaker hliteral (Nat.zero_le _)

theorem compileForm_callOfMade (hx : x ≠ k.rest) (limit room : Nat) (e : Engine) :
    compileForm ev k limit (room + 5) (callOfMade k x) {} e =
      (.ok ((), ((((({ constants := #[.closure (maker x e.store.nextRef)] } : Builder).emit
        (.const 0)).emit .closure).push .nil).emit (.const 1)).emit (.call 1) |>.emit (.call 0)),
        { e with store := e.store.fresh.2.fresh.2.fresh.2 }) := by
  let e' : Engine := { e with store := e.store.fresh.2.fresh.2.fresh.2 }
  let b : Builder := ({ constants := #[.closure (maker x e.store.nextRef)] } : Builder).emit
    (.const 0) |>.emit .closure
  have hmaker : compileForm ev k limit (room + 3) (makerLiteral k x) {} e = (.ok ((), b), e') :=
    compileForm_makerLiteral hfuel hx limit room e
  have hadded : b.constant .nil = .ok ((b.push .nil).emit (.const 1)) := by
    simp [Builder.constant, Builder.place, Builder.pushAt, Builder.emit, b]
  have hnil : compileForm ev k limit (room + 3) .nil b e' =
      (.ok ((), (b.push .nil).emit (.const 1)), e') := by
    rw [compileForm_atom (v := .nil) hfuel trivial rfl]
    exact constant_eq_ok.2 ⟨hadded, rfl⟩
  have hcall : compileForm ev k limit (room + 4) (.list 4 (makerLiteral k x) [.nil]) {} e =
      (.ok ((), ((b.push .nil).emit (.const 1)).emit (.call 1)), e') :=
    compileForm_call hfuel (Nat.le_of_ble_eq_true rfl)
      ((Build.bind_of_ok hmaker _).trans (Build.bind_of_ok hnil _))
  exact compileForm_call hfuel (Nat.zero_le _) (Build.bind_of_ok hcall _)

theorem compileThunk_callOfMade (e : Engine) (hx : x ≠ (Keywords.intern e.store).1.rest)
    {room : Nat} (hroom : e.limits.maxCompileDepth = room + 5) :
    compileThunk ev (callOfMade (Keywords.intern e.store).1 x) e =
      (.ok (callOfMadeThunk x (Keywords.intern e.store).2.nextRef),
        { e with store := (Keywords.intern e.store).2.fresh.2.fresh.2.fresh.2.fresh.2 }) := by
  rw [compileThunk_run, compileTop_run]
  -- named, since interning the keywords is not to be computed here
  generalize Keywords.intern e.store = interned at hx
  obtain ⟨k, store⟩ := interned
  simp only [hroom]
  have hform := compileForm_callOfMade hfuel hx (room + 5) room { e with store }
  exact compileLiteral_form (.thunk [callOfMade k x]) rfl hform rfl

end

/-- The form `(fn ())` stands for a function literal, also when its function is bound. -/
theorem implements_emptyThunk (ref other : Ref) (env : Option EnvId) :
    ({ emptyThunk ref with ref := other, env } : Closure).Implements
      [.function (emptyFunction ref)] := by
  have hcode : EmitsBody (emptyThunk ref).constants [.function (emptyFunction ref)]
      [.const 0, .closure, .ret] := .last (.function rfl .nil)
  exact ⟨⟨_, rfl, hcode, by simp [labelIds]⟩, by simp [ClosureOf.parameters, emptyThunk]⟩

theorem implements_maker (x : Symbol) (ref other : Ref) (env : Option EnvId) :
    ({ maker x ref with ref := other, env } : Closure).Implements [.function (emptyThunk ref)] := by
  have hcode : EmitsBody (maker x ref).constants [.function (emptyThunk ref)]
      [.const 1, .closure, .ret] := .last (.function rfl .nil)
  exact ⟨⟨_, rfl, hcode, by simp [labelIds]⟩, by simp [ClosureOf.parameters, maker]⟩

end Compiler

/-- A function of one parameter binds its argument. -/
theorem Reference.enter_unary {c : Closure} {x : Symbol} (hpositional : c.positional = 1)
    (hvariadic : c.variadic = false) (hx : c.constants[0]? = some (.symbol x)) (v : Value)
    (e : Engine) : enter c [v] e =
      (.ok e.envs.size, { e with envs := (e.envs.create [(x, v)] c.env).2 }) := by
  have hparameter : CallFrame.parameter c 0 = .ok x := by rw [CallFrame.parameter, hx]
  have hbindings : bindPositional c 0 [v] [] = .ok [(x, v)] := by
    rw [bindPositional, hparameter]
    rfl
  exact enter_of_bindPositional hpositional hvariadic hbindings e

/-- In the course of a session, a machine stands at `p` in the innermost one of the calls. -/
def Stands (envs : Environments) (f : Frame) (rest : List Frame) (p : Nat) : Prop :=
  ∃ e, Occurs 1 0 e ⟨f.closure, p⟩ ∧ e.Holds 0 0 (f :: rest) ∧ e.envs = envs ∧ e.limits = {}

namespace Stands

open Machine

variable {envs : Environments} {f g : Frame} {rest : List Frame} {p : Nat} {operands : List Value}

/-- A constant is pushed. -/
theorem const (h : Stands envs f rest p) {i : UInt16} {v : Value}
    (hd : f.closure.code.decode p = .ok (.const i))
    (hv : f.closure.constants[i.toNat]? = some v)
    (hlt : f.operands.length < f.closure.code.maxStack) :
    Stands envs (f.withOperands (v :: f.operands)) rest (p + 2) := by
  obtain ⟨e, hoccurs, hf, henvs, hlimits⟩ := h
  have hperforms : Performs 0 0 e (step (evaluator 1) 0 ⟨f.closure, p⟩) _ _ _ :=
    performs_const hf hd hv hlt
  obtain ⟨e', hstep, hr, hf'⟩ := hperforms.ok rfl
  exact ⟨e', hoccurs.step hstep, hf', hr.envs.trans henvs, hr.limits.trans hlimits⟩

/-- A function is bound. -/
theorem closure (h : Stands envs f rest p) {template : Closure}
    (hd : f.closure.code.decode p = .ok .closure)
    (hf : f.operands = .closure template :: operands) :
    ∃ ref, Stands (linkUp envs (f.env :: rest.map Frame.env)) (f.withOperands
      (.closure { template with ref, env := some f.env } :: operands)) rest (p + 1) := by
  obtain ⟨e, hoccurs, hholds, rfl, hlimits⟩ := h
  have hperforms : Performs 0 0 e (step (evaluator 1) 0 ⟨f.closure, p⟩) _ _ _ :=
    performs_closure le_rfl hholds hd hf
  obtain ⟨e', hstep, hr, hf'⟩ := hperforms.ok (Reference.bind_eq _ _ _ _)
  exact ⟨_, e', hoccurs.step hstep, hf', hr.envs, hr.limits.trans hlimits⟩

/-- A function is called. -/
theorem call (h : Stands envs f rest p) {n : UInt16} {c : Closure} (args : List Value)
    {body : List Term} {bindings : Bindings} (hc : c.Implements body)
    (hd : f.closure.code.decode p = .ok (.call n))
    (hf : f.operands = args.reverse ++ .closure c :: operands) (hn : n.toNat = args.length)
    (hroom : demand c (height (f :: rest)) ≤ ({} : Limits).maxSlots)
    (henter : ∀ e, Reference.enter c args e = (.ok e.envs.size,
      { e with envs := (e.envs.create bindings c.env).2 })) :
    Stands (envs.create bindings c.env).2 ⟨c, envs.size, [], 0⟩
      (⟨f.closure, f.env, operands, p + 2⟩ :: rest) 1 := by
  obtain ⟨e, hoccurs, hholds, rfl, hlimits⟩ := h
  have hsp : e.sp = height (f :: rest) := (Spelled.sp_eq hholds).trans (Nat.zero_add _)
  have hcases : _ ∨ Admits c args e ∧
      Performs 0 0 e (step (evaluator 1) 0 ⟨f.closure, p⟩) _ _ _ :=
    performs_call hc hholds hd hf hn
  obtain ⟨hfull, -⟩ | ⟨-, hperforms⟩ := hcases
  · exact absurd (fun _ => .inr (by rw [hsp, hlimits]; exact hroom)) hfull
  · obtain ⟨e', hstep, hr, hf'⟩ := hperforms.ok (henter e)
    exact ⟨e', hoccurs.step hstep, hf', hr.envs, hr.limits.trans hlimits⟩

/-- A call returns. -/
theorem ret (h : Stands envs f (g :: rest) p) {v : Value}
    (hd : f.closure.code.decode p = .ok .ret) (hf : f.operands = v :: operands)
    (hpos : 0 < g.resume) (hlt : g.resume < g.closure.code.size) :
    Stands envs (g.withOperands (v :: g.operands)) rest g.resume := by
  obtain ⟨e, hoccurs, hholds, henvs, hlimits⟩ := h
  have hperforms : Performs 0 0 e (step (evaluator 1) 0 ⟨f.closure, p⟩) _ _ _ :=
    performs_return le_rfl hholds hd hf hpos hlt
  obtain ⟨e', hstep, hr, hf'⟩ := hperforms.ok rfl
  exact ⟨e', hoccurs.step hstep, hf', hr.envs.trans henvs, hr.limits.trans hlimits⟩

end Stands

/-- A function without parameters is called from outside. -/
theorem Stands.start {c : Closure} {e : Engine} (h : Requested 2 (.apply c []) e)
    (hpositional : c.positional = 0) (hvariadic : c.variadic = false)
    (hroom : c.code.maxStack + 5 ≤ ({} : Limits).maxSlots) (hlimits : e.limits = {})
    (hdepth : e.depth = 0) (hsp : e.sp = 0) (hframe : e.frame = 0) (henvs : e.envs = .empty) :
    Stands (Environments.empty.create [] c.env).2 ⟨c, 0, [], 0⟩ [] 1 := by
  obtain ⟨himplements, -⟩ := h.allowed.2.1.coded
  obtain ⟨e', hstarted⟩ := exists_started (e := { e with depth := e.depth + 1 }) himplements
    hpositional hvariadic (by rw [hsp, hlimits, Nat.zero_add]; exact hroom)
  have hoccurs := Occurs.start h (by rw [hdepth, hlimits]; decide) hstarted.start
  have hholds : e'.Holds e.frame e.sp [⟨c, e.envs.size, [], 0⟩] := hstarted.holds
  rw [hframe] at hoccurs hholds
  rw [hsp, henvs] at hholds
  exact ⟨e', hoccurs, hholds, hstarted.envs.trans (by rw [henvs]), hstarted.limits.trans hlimits⟩

/-- The form `(((fn (x) (fn () (fn ()))) nil))` in a new interpreter: the function that is made by a
call, where `x` is bound, is called by the form and about to evaluate its function literal. -/
theorem Stands.made : ∃ (x : Symbol) (c template : Closure) (f : Frame) (envs : Environments),
    envs.heap = #[⟨[], none⟩, ⟨[(x, .nil)], some 0⟩, ⟨[], some 1⟩] ∧ f.env = 0 ∧
      c.code.fetch 3 = .ok .closure ∧ Stands envs ⟨c, 2, [.closure template], 0⟩ [f] 3 := by
  have hsession := Session.bare {} fun _ => .unread
  obtain ⟨e, he⟩ : ∃ e, e = Interpreter.bare {} fun _ => .unread := ⟨_, rfl⟩
  have hnew := Interpreter.bare_eq {} fun _ => .unread
  rw [← he] at hsession hnew
  have hlimits : e.limits = {} := by rw [hnew]; rfl
  have hdepth : e.depth = 0 := by rw [hnew]; rfl
  have hsp : e.sp = 0 := by rw [hnew]; rfl
  have hframe : e.frame = 0 := by rw [hnew]; rfl
  have henvs : e.envs = .empty := by rw [hnew]; rfl
  have hroom : e.limits.maxCompileDepth = 251 + 5 := by rw [hlimits]
  obtain ⟨x, hx⟩ : ∃ x : Symbol, x ≠ (Keywords.intern e.store).1.rest :=
    ⟨⟨_ + 1, "x"⟩, fun h => absurd (congrArg Symbol.id h) (Nat.succ_ne_self _)⟩
  have hrequested : Requested 2 _ _ := .form hsession (Compiler.proper_callOfMade _ x)
    (asks_evalForm fun other hfuel =>
      Compiler.compileThunk_callOfMade (hfuel.symm ▸ Nat.one_pos : 0 < other.fuel) e hx hroom)
  generalize (Keywords.intern e.store).2.nextRef = ref at hrequested
  let thunk := Compiler.callOfMadeThunk x ref
  have hstart : Stands _ ⟨thunk, 0, [], 0⟩ [] 1 :=
    .start hrequested rfl rfl (Nat.le_of_ble_eq_true rfl) hlimits hdepth hsp hframe henvs
  -- the outer function is bound and called
  have hpush : Stands _ ⟨thunk, 0, [.closure (Compiler.maker x ref)], 0⟩ [] 3 :=
    hstart.const (i := 0) rfl rfl (Nat.le_of_ble_eq_true rfl)
  obtain ⟨bound, hbound⟩ := hpush.closure rfl rfl
  let maker := { Compiler.maker x ref with ref := bound, env := some 0 }
  have harg : Stands _ ⟨thunk, 0, [.nil, .closure maker], 0⟩ [] 6 :=
    hbound.const (i := 1) rfl rfl (Nat.le_of_ble_eq_true rfl)
  have hcall : Stands _ ⟨maker, 1, [], 0⟩ [⟨thunk, 0, [], 8⟩] 1 :=
    harg.call (n := 1) [.nil] (Compiler.implements_maker x ref bound (some 0)) rfl rfl rfl
      (Nat.le_of_ble_eq_true rfl) (Reference.enter_unary rfl rfl rfl .nil)
  -- it binds the function that it returns
  have htemplate : Stands _ ⟨maker, 1, [.closure (Compiler.emptyThunk ref)], 0⟩
      [⟨thunk, 0, [], 8⟩] 3 := hcall.const (i := 1) rfl rfl (Nat.le_of_ble_eq_true rfl)
  obtain ⟨made, hmade⟩ := htemplate.closure rfl rfl
  let inner := { Compiler.emptyThunk ref with ref := made, env := some 1 }
  have hback : Stands _ ⟨thunk, 0, [.closure inner], 8⟩ [] 8 :=
    hmade.ret rfl rfl (Nat.le_of_ble_eq_true rfl) (Nat.le_of_ble_eq_true rfl)
  -- which is called in turn
  have hinner : Stands _ ⟨inner, 2, [], 0⟩ [⟨thunk, 0, [], 10⟩] 1 :=
    hback.call (n := 0) [] (Compiler.implements_emptyThunk ref made (some 1)) rfl rfl rfl
      (Nat.le_of_ble_eq_true rfl) (Reference.enter_thunk rfl rfl)
  exact ⟨x, inner, Compiler.emptyFunction ref, ⟨thunk, 0, [], 10⟩, _, rfl, rfl, rfl,
    hinner.const (i := 0) rfl rfl (Nat.le_of_ble_eq_true rfl)⟩

/-- There, the environment of the running call was enclosed by that of the call which made the
function, and not all scopes stay what they were. -/
theorem closure_keeps_scopes_made : ∃ e a next e', Occurs 1 0 e a ∧
    a.closure.code.fetch a.position = .ok .closure ∧
    CallFrame.enclosing e.stack 0 (e.stack.size + 1) e.frame #[] = .ok #[2, 0] ∧
    e.envs.next? 2 = some 1 ∧
    Machine.step (Machine.evaluator 1) 0 a e = (.ok (.running next), e') ∧
    ¬ ∀ other symbol, (e.envs.next? other).isSome →
      e'.envs.resolve other symbol = e.envs.resolve other symbol := by
  obtain ⟨x, c, template, f, envs, hheap, hf, hd, e, hoccurs, hholds, rfl, -⟩ := Stands.made
  obtain ⟨env, callers, next, e', hfound, hstep, hiff⟩ := closure_keeps_scopes_iff hoccurs hd
  have hwalk := CallFrame.enclosing_eq le_rfl hholds (Nat.lt_succ_of_le hholds.length_le_size) #[]
  obtain ⟨rfl, rfl⟩ : env = 2 ∧ callers = [0] := by
    have hsame := hfound.symm.trans hwalk
    simpa [hf] using hsame
  have hnext : e.envs.next? 2 = some 1 := by simp [Environments.next?, hheap]
  refine ⟨e, _, next, e', hoccurs, hd, hfound, hnext, hstep, fun hkeeps => ?_⟩
  -- the caller does not see `x`, which the call that made the function binds
  have hfree : e.envs.contains 2 x = false := by
    simp [Environments.contains, Environments.bindings, hheap, Bindings.get?]
  have hseen := hiff.1 hkeeps 0 rfl x hfree
  rw [hnext, Option.bind_some] at hseen
  simp [Environments.resolve_eq, Environments.resolveWithin, Environments.size, hheap,
    Bindings.get?] at hseen

end StackLisp

import StackLisp.Proofs.Expansion
import StackLisp.Proofs.Knowledge
import StackLisp.Proofs.Reached

/-!
# Constants stay in place

The pool of a compiled function has its parameters first, then each other constant once; what the
code pushes for a literal, a quotation, a symbol or a target is read from the finished pool and is
that very value, whatever was compiled after it and whatever macros did in between.

- `Compiler.Policy.expanding`: known forms are read with known constants, and each is expanded where
  it is compiled;
- `constants_stay_in_place`: the whole of it.
-/

namespace StackLisp

namespace Compiler

variable {ev : Evaluator} {k : Keywords}

/-- At the engine that it is compiled in, the form is expanded to another, which leaves `e'`. -/
def ExpandsTo (ev : Evaluator) (k : Keywords) (e : Engine) (form expanded : Value) (e' : Engine) :
    Prop :=
  expandWithin ev k ev.fuel form e = (.ok expanded, e')

/-- Forms are made of known objects, and so is what macros make of them. Constants that are one and
the same are equal then. -/
def Policy.expanding (hev : ev.Allocates) (k : Keywords) : Policy ev k where
  World := Objects
  state w e := e.KnownIn w
  form w v := v.KnownIn w
  value w v := v.KnownIn w
  same := Eq
  expands := ExpandsTo ev k
  form_mono hle h := h.mono hle
  value_mono hle h := h.mono hle
  same_of_identity _ hu hv h := hu.eq_of_identity hv h
  parts {_ _ _ _ _ _ _ _} _ hform hshape part hpart := by
    rcases Shape.mem_of_mem_parts hshape hpart with rfl | hmem
    · exact Value.madeOf_nil
    · exact (Value.madeOf_list_iff.1 hform).2 part hmem
  quoted {_ _ _ _ _ _ _ _} _ hform hshape :=
    (Value.madeOf_list_iff.1 hform).2 _ (List.mem_cons_of_mem _ (Shape.mem_of_quotation hshape))
  atom hform _ := hform
  symbol := Value.knownIn_symbol
  nil := Value.knownIn_nil
  fresh hs := hs.withStore subset_rfl (hs.below.mono (Nat.le_succ _))
  expand hs hform h := by
    obtain ⟨w', hle, hknows, hu⟩ := (allocates_expandWithin hev _ hform).of_ok hs h
    exact ⟨w', hle, hknows, hu, h⟩

end Compiler

open Compiler

/-- Take a function that was compiled from a known form, in an engine in which all is known, with an
evaluator that comes to new objects by allocation only. Its pool starts with the parameters in
order; its code evaluates a reading of the form, in which every constant that is pushed for a
literal, a quotation, a symbol or a target is read from the finished pool and is the value that
stands in the form, as it was expanded on the way. And in the pools of the function and of all
functions inside it no constant after the parameters is identical to one before it, and each is
pushed. -/
theorem constants_stay_in_place {ev : Evaluator} {w : Objects} {form : Value} {c : Closure}
    {e e' : Engine} (hev : ev.Allocates) (he : e.KnownIn w) (hform : form.KnownIn w)
    (h : compileFunction ev form e = (.ok c, e')) :
    (∃ literal body e₁, FunctionLiteral.ofForm (Keywords.intern e.store).1 form = .ok literal ∧
      literal.Heads c ∧ c.Implements body ∧
      ReadsBody (Keywords.intern e.store).1 (ExpandsTo ev (Keywords.intern e.store).1) Eq
        { e with store := (Keywords.intern e.store).2 } literal.body body e₁ ∧
      e' = { e₁ with store := e₁.store.fresh.2 }) ∧
    ∀ d : Closure, d.Within c → d.Pooled := by
  obtain ⟨_, -, -, -, hpooled⟩ := (compileFunction_allocates hev hform).of_ok he h
  refine ⟨?_, hpooled⟩
  obtain ⟨k, e₁, hintern, h⟩ := Eval.bind_eq_ok.1 h
  simp only [Eval.onStore_run, Eval.outcome_inj, Except.ok.injEq] at hintern
  obtain ⟨rfl, rfl⟩ := hintern
  obtain ⟨literal, e₂, hread, htop⟩ := Eval.bind_eq_ok.1 h
  obtain ⟨hliteral, rfl⟩ := Eval.ofExcept_eq_ok.1 hread
  -- the keywords are symbols, and symbols are no objects
  have hknows : Engine.KnownIn { e with store := (Keywords.intern e.store).2 } w := by
    refine he.withStore subset_rfl ?_
    rw [Keywords.nextRef_intern]
    exact he.below
  obtain ⟨_, hcompiled⟩ :=
    compileTop_compiled (π := .expanding hev (Keywords.intern e.store).1)
      (FunctionLiteral.complete_of_ofForm hliteral) hknows
      (FunctionLiteral.known_of_ofForm hform hliteral) htop
  obtain ⟨body, e₁, hreads, -, hend, himplements, -⟩ := hcompiled.body
  exact ⟨literal, body, e₁, hliteral, hcompiled.heads, himplements, hreads, hend⟩

/-! ## An example -/

theorem Compiler.implements_emptyFunction (ref : Ref) :
    ∃ body, (emptyFunction ref).Implements body := by
  obtain ⟨e, rfl⟩ : ∃ e : Engine, e.store.nextRef = ref :=
    ⟨{ (default : Engine) with store := { nextRef := ref } }, rfl⟩
  obtain ⟨_, hcompiled⟩ := compileLiteral_compiled
    (π := .lax (Machine.evaluator 0) (Keywords.intern e.store).1) (w := ()) (compileForm_added 0 0)
    (FunctionLiteral.complete_thunk []) trivial (fun _ _ => trivial) (compileLiteral_empty _ e)
  obtain ⟨body, _, -, -, -, himplements, -⟩ := hcompiled.body
  exact ⟨body, himplements⟩

open Machine in
/-- A function without forms gives the empty list. -/
theorem Machine.callWith_emptyFunction (ev : Evaluator) (ref : Ref) {e : Engine}
    (hroom : e.sp + 6 ≤ e.limits.maxSlots) :
    ∃ e', callWith ev 2 (emptyFunction ref) [] e = (.ok .nil, e') := by
  obtain ⟨body, himplements⟩ := implements_emptyFunction ref
  have hmax : (emptyFunction ref).code.maxStack = 1 := rfl
  obtain ⟨e₁, hstarted⟩ := exists_started himplements rfl rfl (by rw [hmax]; exact hroom)
  -- the empty list is pushed and returned
  have hconst : Performs e.frame e.sp e₁ (step ev e.frame ⟨emptyFunction ref, 1⟩) (pure ())
      (fun _ => .running ⟨emptyFunction ref, 3⟩)
      fun _ => [⟨emptyFunction ref, e.envs.size, [.nil], 0⟩] :=
    performs_const hstarted.holds rfl rfl (hmax.symm ▸ Nat.one_pos)
  obtain ⟨e₂, hstep, -, hholds⟩ := hconst.ok rfl
  have hret : step ev e.frame ⟨emptyFunction ref, 3⟩ e₂ = (.ok (.returned .nil), _) :=
    finish_run hholds rfl rfl
  refine ⟨{ e₂ with sp := e₂.frame, frame := e.frame }, ?_⟩
  rw [callWith_run, Eval.bind_of_ok hstarted.start]
  simp only [run, hstep, hret]

theorem Machine.apply_emptyFunction (ref : Ref) {e : Engine}
    (hroom : e.sp + 6 ≤ e.limits.maxSlots) (hdepth : e.depth < e.limits.maxApplyDepth) :
    ∃ e', (Machine.evaluator 3).apply (emptyFunction ref) [] e = (.ok .nil, e') := by
  obtain ⟨e', hcall⟩ := callWith_emptyFunction (evaluator 2) ref
    (e := { e with depth := e.depth + 1 }) hroom
  have happly : applyWith (evaluator 2) 2 (emptyFunction ref) [] e = _ :=
    applyWith_run _ _ _ _ hdepth.not_ge
  rw [hcall] at happly
  exact ⟨_, happly⟩

/-- The form `(fn (x x) (fn ()) x (m))`. -/
def sharingLiteral (k : Keywords) (m x : Symbol) : Value :=
  .list 4 (.symbol k.function) [.list 1 (.symbol x) [.symbol x],
    .list 2 (.symbol k.function) [.nil], .symbol x, .list 3 (.symbol m) []]

/-- An engine with a macro, after the lists of the form were made. -/
def Engine.withSharing (m : Symbol) : Engine :=
  { Engine.withMacro m with store := { nextRef := 5 } }

section

variable {k : Keywords} {m x : Symbol} {e : Engine} {store : Store}

/-- The macro and the form are all there is. -/
theorem known_sharingLiteral (k : Keywords) (m x : Symbol) :
    ∃ w, (Engine.withSharing m).KnownIn w ∧ (sharingLiteral k m x).KnownIn w := by
  let parameters := Value.list 1 (.symbol x) [.symbol x]
  let function := Value.list 2 (.symbol k.function) [.nil]
  let call := Value.list 3 (.symbol m) []
  obtain ⟨w₀, -, hbelow, hmem⟩ :=
    (Objects.below_empty 0).add (v := .closure (emptyFunction 0)) rfl
  have hmacro : (Value.closure (emptyFunction 0)).KnownIn w₀ :=
    Value.madeOf_closure_iff.2 ⟨hmem, by simp [emptyFunction]⟩
  -- the lists are allocated from the inside out
  obtain ⟨w₁, h₁, hbelow, hparameters⟩ : ∃ w, w₀ ≤ w ∧ w.Below 2 ∧ parameters.KnownIn w :=
    hbelow.addList (by simp)
  obtain ⟨w₂, h₂, hbelow, hfunction⟩ : ∃ w, w₁ ≤ w ∧ w.Below 3 ∧ function.KnownIn w :=
    hbelow.addList (by simp)
  obtain ⟨w₃, h₃, hbelow, hcall⟩ : ∃ w, w₂ ≤ w ∧ w.Below 4 ∧ call.KnownIn w :=
    hbelow.addList (by simp)
  obtain ⟨w₄, h₄, hbelow, hform⟩ : ∃ w, w₃ ≤ w ∧ w.Below 5 ∧ (sharingLiteral k m x).KnownIn w :=
    hbelow.addList (by simp [hparameters.mono (h₂.trans h₃), hfunction.mono h₃, hcall, parameters,
      function, call])
  refine ⟨w₄, ⟨hbelow, fun {s v} hv => ?_, fun {env s v} hv => ?_, Stack.knownIn_ofSize _, ?_⟩,
    hform⟩
  · have hglobal : ((default : Engine).globals.insert m (.closure (emptyFunction 0))).get? s =
        some v := hv
    obtain rfl | hold := Globals.eq_or_of_get?_insert hglobal
    · exact hmacro.mono (h₁.trans (h₂.trans (h₃.trans h₄)))
    · cases (Globals.get?_empty s).symm.trans hold
  · cases hv
  · exact fun function hmem => nomatch hmem

/-- The macro gives the empty list. -/
theorem expandWithin_withSharing (hm : k.isSpecial m = false) (store : Store) : ∃ e',
    expandWithin (Machine.evaluator 3) k 2 (.list 3 (.symbol m) [])
      { Engine.withMacro m with store } = (.ok .nil, e') := by
  obtain ⟨e', happly⟩ := Machine.apply_emptyFunction 0 (e := { Engine.withMacro m with store })
    (show 0 + 6 ≤ ({} : Limits).maxSlots by decide) (show 0 < ({} : Limits).maxApplyDepth by decide)
  have honce : expandOnce (Machine.evaluator 3) k (.list 3 (.symbol m) [])
      { Engine.withMacro m with store } = (.ok .nil, e') := by
    rw [expandOnce, Eval.bind_of_ok (Eval.get_run _), Engine.macroCall?_withMacro hm]
    exact happly
  refine ⟨e', ?_⟩
  rw [expandWithin, Eval.bind_of_ok honce, if_neg (by simp [Value.identical, Value.identity])]
  exact expandWithin_of_noMacroCall Nat.one_pos rfl

theorem compileFunction_sharingLiteral (hm : k.isSpecial m = false) (hx : x ≠ k.rest)
    (hk : Keywords.intern (Engine.withSharing m).store = (k, store)) :
    ∃ c e', compileFunction (Machine.evaluator 3) (sharingLiteral k m x) (Engine.withSharing m) =
      (.ok c, e') ∧
      c.constants = #[.symbol x, .symbol x, .closure (emptyFunction store.nextRef), .nil] := by
  let forms : List Value :=
    [.list 2 (.symbol k.function) [.nil], .symbol x, .list 3 (.symbol m) []]
  let literal : FunctionLiteral := ⟨none, ⟨[x, x], 2, false⟩, forms⟩
  have hshape : (Shape.function literal).Of k (.symbol k.function)
      (.list 1 (.symbol x) [.symbol x] :: forms) :=
    ⟨Keywords.special?_eq_function_iff.2 rfl, _, _, rfl, rfl, .plain [x, x] (by simp [hx.symm])⟩
  -- the function takes the third place, and the parameter is found at the first
  let b₀ : Builder := .ofParameters [x, x]
  let b₁ : Builder := ({ b₀ with constants := b₀.constants.push (.closure (emptyFunction
    store.nextRef)) }.emit (.const 2)).emit .closure
  let b₂ : Builder := ((b₁.emit .pop).emit (.const 0)).emit .load
  have hplace : b₀.places[(Value.symbol x).identity]? = some 0 := by
    simp [b₀, Builder.ofParameters, Builder.push, Std.HashMap.getElem_insertIfNew]
  have hnil : b₀.places[Value.nil.identity]? = none := by
    simp [b₀, Builder.ofParameters, Builder.push, Value.identity]
  have hfound : (b₁.emit .pop).constant (.symbol x) = .ok ((b₁.emit .pop).emit (.const 0)) := by
    simp only [Builder.constant, Builder.place, show (b₁.emit .pop).places = b₀.places from rfl,
      hplace]
    rfl
  have hadded : (b₂.emit .pop).constant .nil =
      .ok (((b₂.emit .pop).push .nil).emit (.const 3)) := by
    simp only [Builder.constant, Builder.place, show (b₂.emit .pop).places = b₀.places from rfl,
      hnil]
    rfl
  obtain ⟨e', hexpand⟩ := expandWithin_withSharing hm store.fresh.2
  let compile := compileForm (Machine.evaluator 3) k 256 256
  have hfirst : compile (.list 2 (.symbol k.function) [.nil]) b₀
      { Engine.withSharing m with store } = _ :=
    compileForm_function Nat.two_pos (shape_emptyLiteral k) (compileLiteral_empty _ _)
      (by simp [b₀, Builder.ofParameters, Builder.push])
  have hsecond : compile (.symbol x) (b₁.emit .pop)
      { Engine.withMacro m with store := store.fresh.2 } = (.ok ((), b₂), _) :=
    compileForm_symbol (expandWithin_of_noMacroCall Nat.two_pos rfl) hfound
  have hthird : compile (.list 3 (.symbol m) []) (b₂.emit .pop)
      { Engine.withMacro m with store := store.fresh.2 } =
        (.ok ((), ((b₂.emit .pop).push .nil).emit (.const 3)), e') :=
    (compileForm_of_expand hexpand).trans (constant_eq_ok.2 ⟨hadded, rfl⟩)
  have hbody : compileBody compile forms b₀ { Engine.withSharing m with store } = _ :=
    compileBody_cons_eq_ok.2 ⟨_, _, hfirst, compileBody_cons_eq_ok.2 ⟨_, _, hsecond, hthird⟩⟩
  have hbuild : (do compileBody compile forms; emit .ret : Build Unit) b₀
      { Engine.withSharing m with store } = _ := Build.bind_of_ok hbody fun _ => emit .ret
  have hcode : Assembly.assemble ((((b₂.emit .pop).push .nil).emit (.const 3)).emit
      .ret).program.toList = .ok #[1, 8, 2, 12, 2, 8, 0, 10, 2, 8, 3, 3] := rfl
  have hcompile : compileLiteral compile literal { Engine.withSharing m with store } = _ :=
    compileLiteral_run hbuild
  rw [hcode] at hcompile
  rw [sharingLiteral, compileFunction_of_shape hk hshape]
  exact ⟨_, _, hcompile, rfl⟩

end

/-- The parameter is found at its first place, behind a function that has a place of its own, and
the empty list that the macro gives takes the next one. -/
theorem constants_stay_in_place_shared : ∃ (w : Objects) (form : Value) (c : Closure) (e' : Engine)
    (x : Symbol), let e := Engine.withSharing ⟨6, "m"⟩
    (Machine.evaluator 3).Allocates ∧ e.KnownIn w ∧ form.KnownIn w ∧
      compileFunction (Machine.evaluator 3) form e = (.ok c, e') ∧
      c.constants = #[.symbol x, .symbol x, .closure (emptyFunction 5), .nil] ∧
      ∀ d : Closure, d.Within c → d.Pooled := by
  obtain ⟨⟨k, store⟩, hk⟩ :
      ∃ interned, Keywords.intern (Engine.withSharing ⟨6, "m"⟩).store = interned := ⟨_, rfl⟩
  have hnamed : (Engine.withSharing ⟨6, "m"⟩).store.symbols.Named := SymbolTable.Made.empty.named
  have hm : k.isSpecial ⟨6, "m"⟩ = false := by
    have hnot := Keywords.isSpecial_of_name hnamed ⟨6, "m"⟩ (by decide)
    rwa [hk] at hnot
  have hnext : store.nextRef = 5 := by
    have hsame := Keywords.nextRef_intern (Engine.withSharing ⟨6, "m"⟩).store
    rwa [hk] at hsame
  have hx : (⟨k.rest.id + 1, "x"⟩ : Symbol) ≠ k.rest := fun h =>
    absurd (congrArg Symbol.id h) (Nat.succ_ne_self _)
  obtain ⟨c, e', hc, hpool⟩ := compileFunction_sharingLiteral hm hx hk
  obtain ⟨w, hknows, hknown⟩ := known_sharingLiteral k ⟨6, "m"⟩ ⟨k.rest.id + 1, "x"⟩
  have hev := Machine.allocates_evaluator 3
  exact ⟨w, _, c, e', _, hev, hknows, hknown, hc, hnext ▸ hpool,
    (constants_stay_in_place hev hknows hknown hc).2⟩

end StackLisp

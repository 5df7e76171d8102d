import StackLisp.Compiler.Form

/-!
# Running computations

How the basic computations on an engine behave when they are run, and how a sequence of them comes
apart: `Eval.bind_eq_ok` for a sequence that gives a value, `Eval.bind_of_ok` and
`Eval.bind_of_error` for one whose first part is known. For each construct of the compiler a lemma
says what was done when it succeeds, such as `Compiler.compileConditional_eq_ok`; proofs about code
that was compiled take the compiler apart by these alone.
-/

namespace StackLisp

namespace Eval

variable {α β : Type}

/-- Outcomes are equal when the results and the engines are. -/
@[simp]
theorem outcome_inj {r r' : Except Stop α} {e e' : Engine} :
    @Eq (Id (Except Stop α × Engine)) (r, e) (r', e') ↔ r = r' ∧ e = e' :=
  Prod.mk.injEq _ _ _ _ ▸ Iff.rfl

@[simp]
theorem pure_run (a : α) (e : Engine) : (pure a : Eval α) e = (.ok a, e) := rfl

@[simp]
theorem throw_run (stop : Stop) (e : Engine) : (throw stop : Eval α) e = (.error stop, e) := rfl

@[simp]
theorem fail_run (error : Error) (e : Engine) :
    (Eval.fail error : Eval α) e = (.error (.fault error), e) := rfl

@[simp]
theorem get_run (e : Engine) : (get : Eval Engine) e = (.ok e, e) := rfl

@[simp]
theorem modify_run (f : Engine → Engine) (e : Engine) :
    (modify f : Eval Unit) e = (.ok (), f e) := rfl

@[simp]
theorem ofExcept_ok (a : α) (e : Engine) : Eval.ofExcept (.ok a) e = (.ok a, e) := rfl

@[simp]
theorem ofExcept_error (error : Error) (e : Engine) :
    (Eval.ofExcept (.error error) : Eval α) e = (.error (.fault error), e) := rfl

theorem ofExcept_eq_ok {r : Except Error α} {e e' : Engine} {a : α} :
    Eval.ofExcept r e = (.ok a, e') ↔ r = .ok a ∧ e' = e := by
  cases r <;> simp [eq_comm]

@[simp]
theorem onStore_run (f : Store → α × Store) (e : Engine) :
    Eval.onStore f e = (.ok (f e.store).1, { e with store := (f e.store).2 }) := rfl

theorem bind_run (x : Eval α) (f : α → Eval β) (e : Engine) :
    (x >>= f) e = match x e with
      | (.ok a, e₁) => f a e₁
      | (.error stop, e₁) => (.error stop, e₁) := by
  rw [show (x >>= f) e = (match x e with
    | (r, e₁) => ExceptT.bindCont f r e₁ : Except Stop β × Engine) from rfl]
  rcases x e with ⟨_ | _, _⟩ <;> rfl

/-- A sequence goes on with the value and the state of its first part. -/
theorem bind_of_ok {x : Eval α} {e e₁ : Engine} {a : α} (h : x e = (.ok a, e₁))
    (f : α → Eval β) : (x >>= f) e = f a e₁ := by
  rw [bind_run, h]

/-- A sequence stops where its first part stops. -/
theorem bind_of_error {x : Eval α} {e e₁ : Engine} {stop : Stop} (h : x e = (.error stop, e₁))
    (f : α → Eval β) : (x >>= f) e = (.error stop, e₁) := by
  rw [bind_run, h]

/-- A sequence gives a value when both parts do. -/
theorem bind_eq_ok {x : Eval α} {f : α → Eval β} {e e' : Engine} {b : β} :
    (x >>= f) e = (.ok b, e') ↔ ∃ a e₁, x e = (.ok a, e₁) ∧ f a e₁ = (.ok b, e') := by
  rw [bind_run]
  rcases x e with ⟨_ | a, e₁⟩
  · simp
  · simp only [outcome_inj, Except.ok.injEq]
    constructor
    · exact fun h => ⟨a, e₁, ⟨rfl, rfl⟩, h⟩
    · rintro ⟨_, _, ⟨rfl, rfl⟩, h⟩
      exact h

end Eval

namespace Compiler

variable {α β : Type}

/-- A sequence of building steps gives a value when both parts do. -/
theorem Build.bind_eq_ok {x : Build α} {f : α → Build β} {b b' : Builder} {e e' : Engine}
    {r : β} : (x >>= f) b e = (.ok (r, b'), e') ↔
      ∃ a b₁ e₁, x b e = (.ok (a, b₁), e₁) ∧ f a b₁ e₁ = (.ok (r, b'), e') := by
  rw [show (x >>= f) b = (x b >>= fun s => f s.1 s.2) from rfl, Eval.bind_eq_ok]
  simp

/-- A sequence of building steps goes on with what its first part has built. -/
theorem Build.bind_of_ok {x : Build α} {b b₁ : Builder} {e e₁ : Engine} {a : α}
    (h : x b e = (.ok (a, b₁), e₁)) (f : α → Build β) : (x >>= f) b e = f a b₁ e₁ :=
  Eval.bind_of_ok h _

/-- A sequence of building steps stops where its first part stops. -/
theorem Build.bind_of_error {x : Build α} {b : Builder} {e e₁ : Engine} {stop : Stop}
    (h : x b e = (.error stop, e₁)) (f : α → Build β) : (x >>= f) b e = (.error stop, e₁) :=
  Eval.bind_of_error h _

/-- A computation that builds nothing leaves the builder as it was. -/
theorem Build.lift_eq_ok {x : Eval α} {b b' : Builder} {e e' : Engine} {a : α} :
    (liftM x : Build α) b e = (.ok (a, b'), e') ↔ x e = (.ok a, e') ∧ b' = b := by
  rw [show (liftM x : Build α) b = (x >>= fun a => pure (a, b)) from rfl, Eval.bind_eq_ok]
  simp only [Eval.pure_run, Eval.outcome_inj, Except.ok.injEq, Prod.mk.injEq]
  constructor
  · rintro ⟨a, e₁, h, ⟨rfl, rfl⟩, rfl⟩
    exact ⟨h, rfl⟩
  · rintro ⟨h, rfl⟩
    exact ⟨a, e', h, ⟨rfl, rfl⟩, rfl⟩

/-- What a computation that builds nothing has come to is passed on with the builder. -/
theorem Build.lift_bind (x : Eval α) (f : α → Build β) (b : Builder) :
    (liftM x >>= f : Build β) b = x >>= fun a => f a b := by
  rw [show (liftM x >>= f : Build β) b = ((x >>= fun a => pure (a, b)) >>= fun r => f r.1 r.2) from
    rfl, bind_assoc]
  simp only [pure_bind]

theorem Build.pure_eq_ok {a a' : α} {b b' : Builder} {e e' : Engine} :
    (pure a : Build α) b e = (.ok (a', b'), e') ↔ a' = a ∧ b' = b ∧ e' = e := by
  rw [show (pure a : Build α) b e = (.ok (a, b), e) from rfl]
  simp [eq_comm, and_assoc]

theorem emit_eq_ok {i : Instruction} {b b' : Builder} {e e' : Engine} :
    emit i b e = (.ok ((), b'), e') ↔ b' = b.emit i ∧ e' = e := by
  rw [show emit i b e = (.ok ((), b.emit i), e) from rfl]
  simp [eq_comm]

theorem Build.emit_bind (i : Instruction) (f : Unit → Build β) (b : Builder) (e : Engine) :
    (emit i >>= f) b e = f () (b.emit i) e := rfl

/-- An addition to the builder that may be refused. -/
private theorem addition_eq_ok {r : Except Error Builder} {b' : Builder} {e e' : Engine} :
    (Eval.ofExcept r >>= fun b => pure ((), b) : Eval (Unit × Builder)) e = (.ok ((), b'), e') ↔
      r = .ok b' ∧ e' = e := by
  cases r with
  | error error =>
    rw [Eval.bind_of_error (Eval.ofExcept_error error e)]
    simp
  | ok b =>
    rw [Eval.bind_of_ok (Eval.ofExcept_ok b e)]
    simp [eq_comm]

theorem constant_eq_ok {v : Value} {b b' : Builder} {e e' : Engine} :
    constant v b e = (.ok ((), b'), e') ↔ b.constant v = .ok b' ∧ e' = e :=
  addition_eq_ok

theorem template_eq_ok {c : Closure} {b b' : Builder} {e e' : Engine} :
    template c b e = (.ok ((), b'), e') ↔ b.template c = .ok b' ∧ e' = e :=
  addition_eq_ok

theorem label_eq_ok {id : UInt16} {b b' : Builder} {e e' : Engine} :
    label b e = (.ok (id, b'), e') ↔ b.label = .ok (id, b') ∧ e' = e := by
  rw [show label b = Eval.ofExcept b.label from rfl, Eval.ofExcept_eq_ok]

/-- No label is left. -/
theorem label_of_le {b : Builder} (h : 65535 ≤ b.nextLabel) (e : Engine) :
    label b e = (.error (.fault (.exhausted .labels)), e) := by
  rw [label, Builder.label, if_pos h]
  rfl

/-- Labels are numbered in the order in which they are taken. -/
theorem label_of_lt {b : Builder} (h : b.nextLabel < 65535) (e : Engine) :
    label b e = (.ok (b.nextLabel.toUInt16, { b with nextLabel := b.nextLabel + 1 }), e) := by
  rw [label, Builder.label, if_neg (Nat.not_le_of_lt h)]
  rfl

/-! ## The constructs of the compiler -/

section

variable {compile : Value → Build Unit} {b b' : Builder} {e e' : Engine}

/-- The value of a form that others follow is dropped. -/
theorem compileBody_cons_eq_ok {form next : Value} {others : List Value} :
    compileBody compile (form :: next :: others) b e = (.ok ((), b'), e') ↔
      ∃ b₁ e₁, compile form b e = (.ok ((), b₁), e₁) ∧
        compileBody compile (next :: others) (b₁.emit .pop) e₁ = (.ok ((), b'), e') := by
  constructor
  · intro h
    obtain ⟨_, b₁, e₁, hform, h⟩ := Build.bind_eq_ok.1 h
    obtain ⟨_, b₂, e₂, hpop, hothers⟩ := Build.bind_eq_ok.1 h
    obtain ⟨rfl, rfl⟩ := emit_eq_ok.1 hpop
    exact ⟨b₁, e₂, hform, hothers⟩
  · rintro ⟨b₁, e₁, hform, hothers⟩
    exact (Build.bind_of_ok hform _).trans hothers

/-- The two labels of a conditional are taken before its parts are compiled. -/
theorem compileConditional_eq_ok {test consequent alternative : Value} :
    compileConditional compile test consequent alternative b e = (.ok ((), b'), e') ↔
      ∃ otherwise done b₁ b₂ b₃ b₄ b₅ e₁ e₂,
        b.label = .ok (otherwise, b₁) ∧ b₁.label = .ok (done, b₂) ∧
        compile test b₂ e = (.ok ((), b₃), e₁) ∧
        compile consequent (b₃.emit (.jumpIfNot otherwise)) e₁ = (.ok ((), b₄), e₂) ∧
        compile alternative ((b₄.emit (.jump done)).emit (.label otherwise)) e₂ =
          (.ok ((), b₅), e') ∧
        b' = b₅.emit (.label done) := by
  constructor
  · intro h
    unfold compileConditional at h
    simp only [Build.bind_eq_ok, label_eq_ok, emit_eq_ok] at h
    obtain ⟨l, b₁, _, ⟨hl, rfl⟩, m, b₂, _, ⟨hm, rfl⟩, _, b₃, e₁, htest, _, _, _, ⟨rfl, rfl⟩, _,
      b₄, e₂, hthen, _, _, _, ⟨rfl, rfl⟩, _, _, _, ⟨rfl, rfl⟩, _, b₅, _, helse, rfl, rfl⟩ := h
    exact ⟨l, m, b₁, b₂, b₃, b₄, b₅, e₁, e₂, hl, hm, htest, hthen, helse, rfl⟩
  · rintro ⟨l, m, b₁, b₂, b₃, b₄, b₅, e₁, e₂, hl, hm, htest, hthen, helse, rfl⟩
    rw [compileConditional, Build.bind_of_ok (label_eq_ok.2 ⟨hl, rfl⟩),
      Build.bind_of_ok (label_eq_ok.2 ⟨hm, rfl⟩), Build.bind_of_ok htest,
      Build.emit_bind, Build.bind_of_ok hthen, Build.emit_bind, Build.emit_bind,
      Build.bind_of_ok helse]
    rfl

/-- The arguments of a call are counted when they are compiled. -/
theorem compileCall_eq_ok {items : List Value} {argc : Nat} :
    compileCall compile items argc b e = (.ok ((), b'), e') ↔
      ∃ b₁, items.forM compile b e = (.ok ((), b₁), e') ∧ argc ≤ 65535 ∧
        b' = b₁.emit (.call argc.toUInt16) := by
  rw [compileCall, Build.bind_eq_ok]
  by_cases hmany : 65535 < argc
  · simp only [if_pos hmany]
    constructor
    · rintro ⟨_, b₁, e₁, -, h⟩
      obtain ⟨_, _, _, hfail, -⟩ := Build.bind_eq_ok.1 h
      cases (Build.lift_eq_ok.1 hfail).1
    · rintro ⟨_, -, hle, -⟩
      omega
  · simp only [if_neg hmany]
    constructor
    · rintro ⟨_, b₁, e₁, hitems, h⟩
      obtain ⟨rfl, rfl⟩ := emit_eq_ok.1 h
      exact ⟨b₁, hitems, Nat.le_of_not_lt hmany, rfl⟩
    · rintro ⟨b₁, hitems, -, rfl⟩
      exact ⟨(), b₁, e', hitems, emit_eq_ok.2 ⟨rfl, rfl⟩⟩

/-- The target of an assignment is pushed below the value. -/
theorem compileShape_assignment_eq_ok {way : Assignment} {target : Symbol} {value : Value} :
    compileShape compile (.assignment way target value) b e = (.ok ((), b'), e') ↔
      ∃ b₁ b₂, b.constant (.symbol target) = .ok b₁ ∧
        compile value b₁ e = (.ok ((), b₂), e') ∧ b' = b₂.emit way.instruction := by
  constructor
  · intro h
    obtain ⟨_, b₁, _, hconstant, h⟩ := Build.bind_eq_ok.1 h
    obtain ⟨_, b₂, _, hvalue, hassign⟩ := Build.bind_eq_ok.1 h
    obtain ⟨hpush, rfl⟩ := constant_eq_ok.1 hconstant
    obtain ⟨rfl, rfl⟩ := emit_eq_ok.1 hassign
    exact ⟨b₁, b₂, hpush, hvalue, rfl⟩
  · rintro ⟨b₁, b₂, hpush, hvalue, rfl⟩
    rw [compileShape, Build.bind_of_ok (constant_eq_ok.2 ⟨hpush, rfl⟩), Build.bind_of_ok hvalue]
    rfl

/-- A function literal is compiled on its own and pushed as a template. -/
theorem compileShape_function_eq_ok {literal : FunctionLiteral} :
    compileShape compile (.function literal) b e = (.ok ((), b'), e') ↔
      ∃ c b₁, compileLiteral compile literal e = (.ok c, e') ∧ b.template c = .ok b₁ ∧
        b' = b₁.emit .closure := by
  constructor
  · intro h
    obtain ⟨c, _, _, hlifted, h⟩ := Build.bind_eq_ok.1 h
    obtain ⟨_, b₁, _, htemplate, hclosure⟩ := Build.bind_eq_ok.1 h
    obtain ⟨hliteral, rfl⟩ := Build.lift_eq_ok.1 hlifted
    obtain ⟨hpush, rfl⟩ := template_eq_ok.1 htemplate
    obtain ⟨rfl, rfl⟩ := emit_eq_ok.1 hclosure
    exact ⟨c, b₁, hliteral, hpush, rfl⟩
  · rintro ⟨c, b₁, hliteral, hpush, rfl⟩
    exact (Build.bind_of_ok (Build.lift_eq_ok.2 ⟨hliteral, rfl⟩) _).trans
      (Build.bind_of_ok (template_eq_ok.2 ⟨hpush, rfl⟩) _)

/-- A function literal that was compiled is still to be pushed. -/
theorem compileShape_function_of_ok {literal : FunctionLiteral} {c : Closure}
    (h : compileLiteral compile literal e = (.ok c, e')) (b : Builder) :
    compileShape compile (.function literal) b e =
      (do template c; emit .closure : Build Unit) b e' :=
  Build.bind_of_ok (Build.lift_eq_ok.2 ⟨h, rfl⟩) _

/-- A function literal that cannot be compiled is not pushed. -/
theorem compileShape_function_of_error {literal : FunctionLiteral} {stop : Stop}
    (h : compileLiteral compile literal e = (.error stop, e')) (b : Builder) :
    compileShape compile (.function literal) b e = (.error stop, e') :=
  Build.bind_of_error (Eval.bind_of_error h _) _

/-- The closure that a function literal is compiled to. -/
def templateOf (literal : FunctionLiteral) (ref : Ref) (code : Code) (constants : Array Value) :
    Closure where
  ref
  name := match literal.name with
    | some symbol => symbol.name
    | none => "anonymous"
  code
  positional := literal.parameters.positional
  variadic := literal.parameters.variadic
  constants
  env := none

/-- A function literal is compiled when its body is and its code can be written. -/
theorem compileLiteral_run {literal : FunctionLiteral} {b : Builder} {e e₁ : Engine}
    (hrun : (do compileBody compile literal.body; emit .ret : Build Unit)
      (.ofParameters literal.parameters.symbols) e = (.ok ((), b), e₁)) :
    compileLiteral compile literal e = match Assembly.assemble b.program.toList with
      | .ok code => (.ok (templateOf literal e₁.store.nextRef code b.constants),
          { e₁ with store := e₁.store.fresh.2 })
      | .error error => (.error (.fault error), e₁) := by
  refine (Eval.bind_of_ok hrun _).trans ?_
  dsimp only
  cases Assembly.assemble b.program.toList <;> rfl

/-- A function literal of one form is compiled when the form is and its code can be written. -/
theorem compileLiteral_form (literal : FunctionLiteral) {form : Value}
    (hbody : literal.body = [form]) {b : Builder} {code : Code}
    (hform : compile form (.ofParameters literal.parameters.symbols) e = (.ok ((), b), e'))
    (hcode : Assembly.assemble (b.emit .ret).program.toList = .ok code) :
    compileLiteral compile literal e =
      (.ok (templateOf literal e'.store.nextRef code b.constants),
        { e' with store := e'.store.fresh.2 }) := by
  have hbuild : (do compileBody compile literal.body; emit .ret : Build Unit)
      (.ofParameters literal.parameters.symbols) e = (.ok ((), b.emit .ret), e') := by
    rw [hbody]
    exact Build.bind_of_ok hform _
  rw [compileLiteral_run hbuild, hcode]
  rfl

/-- A function literal is built, assembled, and then allocated. -/
theorem compileLiteral_eq_ok {literal : FunctionLiteral} {c : Closure} :
    compileLiteral compile literal e = (.ok c, e') ↔
      ∃ b₁ code e₁,
        (do compileBody compile literal.body; emit .ret : Build Unit)
          (.ofParameters literal.parameters.symbols) e = (.ok ((), b₁), e₁) ∧
        Assembly.assemble b₁.program.toList = .ok code ∧
        c = templateOf literal e₁.store.nextRef code b₁.constants ∧
        e' = { e₁ with store := e₁.store.fresh.2 } := by
  constructor
  · intro h
    obtain ⟨⟨⟨⟩, b₁⟩, e₁, hbuild, -⟩ := Eval.bind_eq_ok.1 h
    rw [compileLiteral_run hbuild] at h
    cases hcode : Assembly.assemble b₁.program.toList with
    | error error => simp [hcode] at h
    | ok code =>
      simp only [hcode, Eval.outcome_inj, Except.ok.injEq] at h
      exact ⟨b₁, code, e₁, hbuild, hcode, h.1.symm, h.2.symm⟩
  · rintro ⟨b₁, code, e₁, hbuild, hcode, rfl, rfl⟩
    rw [compileLiteral_run hbuild, hcode]

/-- What is done with a form after it was expanded. -/
def compileExpanded (compile : Value → Build Unit) (k : Keywords) : Value → Build Unit
  | .list _ head others => do
    let parts ← Eval.ofExcept (Shape.ofItems k head others)
    compileShape compile parts
  | .symbol s => do
    constant (.symbol s)
    emit .load
  | other => constant other

variable {ev : Evaluator} {k : Keywords}

/-- A form is expanded first. -/
theorem compileForm_of_expand {limit room : Nat} {v w : Value} {b : Builder} {e e₁ : Engine}
    (h : expandWithin ev k ev.fuel v e = (.ok w, e₁)) :
    compileForm ev k limit (room + 1) v b e =
      compileExpanded (compileForm ev k limit room) k w b e₁ := by
  rw [compileForm, Build.bind_of_ok (Build.lift_eq_ok.2 ⟨h, rfl⟩)]
  cases w <;> rfl

/-- A form with no room left is not compiled. -/
theorem compileForm_zero_ne_ok {limit : Nat} {v : Value} :
    compileForm ev k limit 0 v b e ≠ (.ok ((), b'), e') :=
  fun h => nomatch (Build.lift_eq_ok.1 h).1

/-- A form is expanded, then compiled with less room for its parts. -/
theorem compileForm_succ_eq_ok {limit room : Nat} {v : Value} :
    compileForm ev k limit (room + 1) v b e = (.ok ((), b'), e') ↔
      ∃ w e₁, expandWithin ev k ev.fuel v e = (.ok w, e₁) ∧
        compileExpanded (compileForm ev k limit room) k w b e₁ = (.ok ((), b'), e') := by
  constructor
  · intro h
    obtain ⟨w, _, e₁, hlifted, -⟩ := Build.bind_eq_ok.1 h
    have hexpand := (Build.lift_eq_ok.1 hlifted).1
    exact ⟨w, e₁, hexpand, compileForm_of_expand hexpand ▸ h⟩
  · rintro ⟨w, e₁, hexpand, h⟩
    exact (compileForm_of_expand hexpand).trans h

/-- A list is compiled by its shape. -/
theorem compileExpanded_list_eq_ok {ref : Ref} {head : Value} {others : List Value} :
    compileExpanded compile k (.list ref head others) b e = (.ok ((), b'), e') ↔
      ∃ shape, Shape.ofItems k head others = .ok shape ∧
        compileShape compile shape b e = (.ok ((), b'), e') := by
  rw [compileExpanded, Build.bind_eq_ok]
  simp only [Build.lift_eq_ok, Eval.ofExcept_eq_ok]
  constructor
  · rintro ⟨shape, _, _, ⟨⟨hshape, rfl⟩, rfl⟩, h⟩
    exact ⟨shape, hshape, h⟩
  · rintro ⟨shape, hshape, h⟩
    exact ⟨shape, b, e, ⟨⟨hshape, rfl⟩, rfl⟩, h⟩

/-- A symbol is pushed and looked up. -/
theorem compileExpanded_symbol_eq_ok {s : Symbol} :
    compileExpanded compile k (.symbol s) b e = (.ok ((), b'), e') ↔
      ∃ b₁, b.constant (.symbol s) = .ok b₁ ∧ b' = b₁.emit .load ∧ e' = e := by
  constructor
  · intro h
    obtain ⟨_, b₁, _, hconstant, hload⟩ := Build.bind_eq_ok.1 h
    obtain ⟨hpush, rfl⟩ := constant_eq_ok.1 hconstant
    obtain ⟨rfl, rfl⟩ := emit_eq_ok.1 hload
    exact ⟨b₁, hpush, rfl, rfl⟩
  · rintro ⟨b₁, hpush, rfl, rfl⟩
    exact (Build.bind_of_ok (constant_eq_ok.2 ⟨hpush, rfl⟩) _).trans rfl

/-- At the top level all the room there is may be used. -/
theorem compileTop_run (literal : FunctionLiteral) (e : Engine) :
    compileTop ev k literal e =
      compileLiteral (compileForm ev k e.limits.maxCompileDepth e.limits.maxCompileDepth)
        literal e := rfl

/-- The keywords are made first. -/
theorem compileThunk_run (v : Value) (e : Engine) :
    compileThunk ev v e = compileTop ev (Keywords.intern e.store).1 (.thunk [v])
      { e with store := (Keywords.intern e.store).2 } := by
  rw [compileThunk, Eval.bind_of_ok (Eval.onStore_run _ e)]

end

end Compiler

end StackLisp

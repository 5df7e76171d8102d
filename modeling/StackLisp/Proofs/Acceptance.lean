import StackLisp.Proofs.Demands

/-!
# Which forms are compiled

Without macros the compiler decides the language: forms of it are compiled if they fit, and all
others are refused.

- `Answers`: what is read off lists is refused for a reason that the form gives;
- `Compiler.Decides`: a way of compiling settles the forms of the language and refuses all others;
- `compiler_accepts_the_language`: so does the compiler, for function literals.
-/

namespace StackLisp

/-! ## Refusals -/

/-- The form is at fault or asks for too much. -/
inductive Error.IsRefusal : Error → Prop
  | malformed (cause : Malformed) : IsRefusal (.malformed cause)
  | type (expected got : String) (shown : Option String) : IsRefusal (.type expected got shown)
  | exhausted (limit : Limit) : IsRefusal (.exhausted limit)

/-- There is a result, or a refusal. -/
def Answers {α : Type} (r : Except Error α) : Prop :=
  ∀ error, r = .error error → error.IsRefusal

namespace Answers

variable {α β : Type}

theorem ok (a : α) : Answers (.ok a) :=
  nofun

theorem refusal {error : Error} (h : error.IsRefusal) :
    Answers (.error error : Except Error α) := by
  rintro _ ⟨⟩
  exact h

theorem bind {r : Except Error α} {f : α → Except Error β} (hr : Answers r)
    (hf : ∀ a, Answers (f a)) : Answers (r >>= f) := by
  cases r with
  | error error => exact refusal (hr error rfl)
  | ok a => exact hf a

theorem map {r : Except Error α} (hr : Answers r) (f : α → β) : Answers (r.map f) := by
  cases r with
  | error error => exact refusal (hr error rfl)
  | ok a => exact ok _

theorem expectSymbol (v : Value) : Answers v.expectSymbol := by
  unfold Value.expectSymbol
  split
  · exact ok _
  · exact refusal (.type _ _ _)

theorem expectList (v : Value) : Answers v.expectList := by
  unfold Value.expectList
  split
  · exact ok _
  · exact refusal (.type _ _ _)

theorem parseOnto (rest : Symbol) (reversed : List Symbol) (items : List Value) :
    Answers (Parameters.parseOnto rest reversed items) := by
  induction items generalizing reversed with
  | nil => exact ok _
  | cons item items ih =>
    refine (expectSymbol item).bind fun symbol => ?_
    split
    -- the rest marker, with nothing, one symbol or more behind it
    · split
      · exact refusal (.malformed _)
      · refine (expectSymbol _).bind fun _ => ?_
        split
        · exact ok _
        · exact refusal (.malformed _)
    · exact ih _

theorem parse (k : Keywords) (items : List Value) : Answers (FunctionLiteral.parse k items) := by
  have hunnamed : ∀ (name : Option Symbol) (items : List Value),
      Answers (FunctionLiteral.parseUnnamed k name items) := by
    intro name items
    match items with
    | [] => exact refusal (.malformed _)
    | parameters :: body =>
      exact (expectList parameters).bind fun _ => (parseOnto _ _ _).bind fun _ => ok _
  unfold FunctionLiteral.parse
  split <;> exact hunnamed _ _

theorem ofForm (k : Keywords) (form : Value) : Answers (FunctionLiteral.ofForm k form) := by
  refine (expectList form).bind fun items => ?_
  match items with
  | [] => exact refusal (.malformed _)
  | head :: items =>
    dsimp only
    split
    · exact parse k items
    · exact refusal (.malformed _)

theorem ofItems (k : Keywords) (head : Value) (others : List Value) :
    Answers (Shape.ofItems k head others) := by
  have hpart : ∀ form what place, Answers (Shape.part form what others place) := by
    intro form what place
    unfold Shape.part
    split
    · exact ok _
    · exact refusal (.malformed _)
  rw [Shape.ofItems_eq]
  split
  · exact (parse k others).map _
  · exact (hpart _ _ _).map _
  · exact (hpart _ _ _).bind fun _ => (hpart _ _ _).bind fun _ => ok _
  · exact (hpart _ _ _).bind fun _ => (expectSymbol _).bind fun _ =>
      (hpart _ _ _).bind fun _ => ok _
  · exact ok _

end Answers

namespace Compiler

open Demand (settles_emit settles_constant)

/-- The computation ends in a refusal. -/
def Refuses {α : Type} (x : Build α) : Prop :=
  ∀ ⦃b : Builder⦄ ⦃e : Engine⦄ ⦃pool : List Key⦄, e.NoMacros → b.Holds pool →
    ∃ error e', x b e = (.error (.fault error), e') ∧ error.IsRefusal

theorem Refuses.bind {α β : Type} {x : Build α} (h : Refuses x) (f : α → Build β) :
    Refuses (x >>= f) := by
  intro b e pool he hb
  obtain ⟨error, e', hrun, herror⟩ := h he hb
  exact ⟨error, e', Build.bind_of_error hrun f, herror⟩

/-- Behind a computation that settles a demand, a refusal is still one. -/
theorem Refuses.after {d : Demand} {x y : Build Unit} (hy : Refuses y)
    (hx : d.Settles Engine.NoMacros x) : Refuses (x >>= fun _ => y) := by
  intro b e pool he hb
  obtain ⟨b₁, e₁, hrun, he₁, hmet⟩ | ⟨limit, e₁, hrun, -⟩ := hx he hb
  · rw [Build.bind_of_ok hrun]
    exact hy he₁ hmet.holds
  · exact ⟨_, e₁, Build.bind_of_error hrun _, .exhausted limit⟩

theorem refuses_label {y : UInt16 → Build Unit} (hy : ∀ l, Refuses (y l)) :
    Refuses (label >>= y) := by
  intro b e pool he hb
  rcases Nat.lt_or_ge b.nextLabel 65535 with hlt | hfull
  · rw [Build.bind_of_ok (label_of_lt hlt e)]
    exact hy _ he ⟨hb.size, hb.places⟩
  · exact ⟨_, e, Build.bind_of_error (label_of_le hfull e) _, .exhausted .labels⟩

variable {compile : Value → Build Unit} {k : Keywords} {room : Nat}

/-- The value is a form of the language that nests no deeper than this. -/
def InLanguage (k : Keywords) (room : Nat) (v : Value) : Prop :=
  ∃ f, v.Denotes k f ∧ f.nesting ≤ room

/-- Forms of the language settle, and all others are refused. -/
structure Decides (k : Keywords) (room : Nat) (compile : Value → Build Unit) : Prop where
  settled : ∀ {v f}, v.Denotes k f → f.nesting ≤ room → SettledBy Engine.NoMacros compile v f
  decided : ∀ v, InLanguage k room v ∨ Refuses (compile v)

namespace Decides

variable (h : Decides k room compile)
include h

theorem forM (vs : List Value) :
    (∃ fs, List.Forall₂ (Value.Denotes k) vs fs ∧ Form.nestingAll fs ≤ room) ∨
      Refuses (vs.forM compile) := by
  induction vs with
  | nil => exact .inl ⟨[], .nil, Nat.zero_le _⟩
  | cons v vs ih =>
    obtain ⟨f, hf, hroom⟩ | hrefuses := h.decided v
    · obtain ⟨fs, hfs, hrooms⟩ | hrefuses := ih
      · exact .inl ⟨f :: fs, .cons hf hfs, Nat.max_le.2 ⟨hroom, hrooms⟩⟩
      -- the value in front is compiled or exhausts a limit, and either way there is a refusal
      · exact .inr (hrefuses.after (h.settled hf hroom))
    · exact .inr (hrefuses.bind _)

theorem body (vs : List Value) :
    (∃ fs, List.Forall₂ (Value.Denotes k) vs fs ∧ Form.nestingAll fs ≤ room) ∨
      Refuses (compileBody compile vs) := by
  match vs with
  | [] => exact .inl ⟨[], .nil, Nat.zero_le _⟩
  | [v] =>
    obtain ⟨f, hf, hroom⟩ | hrefuses := h.decided v
    · exact .inl ⟨[f], .cons hf .nil, Nat.max_le.2 ⟨hroom, Nat.zero_le _⟩⟩
    · exact .inr hrefuses
  | v :: w :: vs =>
    obtain ⟨f, hf, hroom⟩ | hrefuses := h.decided v
    · obtain ⟨fs, hfs, hrooms⟩ | hrefuses := body (w :: vs)
      · exact .inl ⟨f :: fs, .cons hf hfs, Nat.max_le.2 ⟨hroom, hrooms⟩⟩
      · exact .inr ((hrefuses.after (settles_emit .pop 1 rfl)).after (h.settled hf hroom))
    · exact .inr (hrefuses.bind _)

theorem literal (literal : FunctionLiteral) :
    (∃ fs, List.Forall₂ (Value.Denotes k) literal.body fs ∧ Form.nestingAll fs ≤ room) ∨
      ∀ e : Engine, e.NoMacros → ∃ error e',
        compileLiteral compile literal e = (.error (.fault error), e') ∧ error.IsRefusal := by
  refine (h.body literal.body).imp_right fun hrefuses e he => ?_
  obtain ⟨error, e', hrun, herror⟩ :=
    hrefuses.bind (fun _ => emit .ret) he (.ofParameters literal.parameters)
  exact ⟨error, e', Eval.bind_of_error hrun _, herror⟩

/-- A list is a form of the language if its parts are. -/
theorem shape {ref : Ref} {head : Value} {others : List Value} {shape : Shape}
    (hshape : shape.Of k head others) :
    InLanguage k (room + 1) (.list ref head others) ∨ Refuses (compileShape compile shape) := by
  match shape with
  | .function literal =>
    obtain ⟨hhead, listed, names, rfl, hlisted, hnamed⟩ := hshape
    obtain ⟨fs, hfs, hroom⟩ | hrefuses := h.literal literal
    · refine .inl ⟨_, .function _ hhead hlisted hnamed hfs, ?_⟩
      rw [Form.nesting]
      omega
    · refine .inr fun b e pool he hb => ?_
      obtain ⟨error, e', hrun, herror⟩ := hrefuses e he
      exact ⟨error, e', compileShape_function_of_error hrun b, herror⟩
  | .quotation v =>
    obtain ⟨hhead, extra, rfl⟩ := hshape
    refine .inl ⟨_, .quotation hhead, ?_⟩
    rw [Form.nesting]
    omega
  | .conditional test consequent alternative =>
    obtain ⟨hhead, extra, rfl, rfl⟩ := hshape
    obtain ⟨t, ht, hroomt⟩ | hrefuses := h.decided test
    · obtain ⟨c, hc, hroomc⟩ | hrefuses := h.decided consequent
      · obtain ⟨a, ha, hrooma⟩ | hrefuses := h.decided (extra.headD .nil)
        · refine .inl ⟨_, .conditional hhead ht hc ha, ?_⟩
          rw [Form.nesting]
          omega
        -- the part that is refused comes behind all that is compiled for the parts before it
        · refine .inr (refuses_label fun otherwise => refuses_label fun done => ?_)
          have hbehind := ((hrefuses.bind fun _ => emit (.label done)).after
            (settles_emit (.label otherwise) _ rfl)).after (settles_emit (.jump done) _ rfl)
          exact ((hbehind.after (h.settled hc hroomc)).after (settles_emit _ _ rfl)).after
            (h.settled ht hroomt)
      · refine .inr (refuses_label fun otherwise => refuses_label fun done => ?_)
        exact ((hrefuses.bind _).after (settles_emit _ _ rfl)).after (h.settled ht hroomt)
    · exact .inr (refuses_label fun otherwise => refuses_label fun done => hrefuses.bind _)
  | .assignment way target value =>
    obtain ⟨hhead, extra, rfl⟩ := hshape
    obtain ⟨f, hf, hroom⟩ | hrefuses := h.decided value
    · refine .inl ⟨_, .assignment hhead hf, ?_⟩
      rw [Form.nesting]
      omega
    · exact .inr ((hrefuses.bind _).after (settles_constant _))
  | .call callee args =>
    obtain ⟨hhead, rfl, rfl⟩ := hshape
    obtain ⟨fs, hfs, hroom⟩ | hrefuses := h.forM (callee :: args)
    · refine .inl ⟨_, .call hhead hfs, ?_⟩
      rw [Form.nesting]
      omega
    · exact .inr (hrefuses.bind _)

end Decides

variable {ev : Evaluator}

/-- The compiler decides the language. -/
theorem compileForm_decides (hfuel : 0 < ev.fuel) (k : Keywords) (limit room : Nat) :
    Decides k room (compileForm ev k limit room) := by
  refine ⟨compileForm_settled hfuel, ?_⟩
  induction room with
  -- no form nests so little, and without room the compiler gives up
  | zero => exact fun v => .inr fun b e pool he hb => ⟨_, e, rfl, .exhausted _⟩
  | succ room ih =>
    intro v
    suffices hexpanded : InLanguage k (room + 1) v ∨
        Refuses (compileExpanded (compileForm ev k limit room) k v) by
      refine hexpanded.imp_right fun hrefuses b e pool he hb => ?_
      rw [compileForm_of_expand (expandWithin_of_noMacros hfuel he v)]
      exact hrefuses he hb
    have hatom : v.IsAtom → v.symbol? = none → InLanguage k (room + 1) v := fun h hs =>
      ⟨_, .atom h hs, Nat.le_add_left 1 room⟩
    cases v with
    | list ref head others =>
      cases hshape : Shape.ofItems k head others with
      | error error =>
        -- the list has no shape, and the reading of it says why
        have hrefusal := Answers.ofItems k head others error hshape
        refine .inr fun b e pool he hb => ⟨error, e, ?_, hrefusal⟩
        rw [compileExpanded, hshape]
        rfl
      | ok shape =>
        have hof := Shape.ofItems_eq_ok_iff.1 hshape
        refine (Decides.shape ⟨compileForm_settled hfuel, ih⟩ hof).imp_right
          fun hrefuses b e pool he hb => ?_
        rw [compileExpanded_list hof]
        exact hrefuses he hb
    | symbol s => exact .inl ⟨_, .lookup, Nat.le_add_left 1 room⟩
    | number | boolean | string | nil | intrinsic | closure => exact .inl (hatom trivial rfl)

/-- A function literal at the top level is compiled with all the room there is. -/
theorem compileFunction_of_ok {e : Engine} {v : Value} {literal : FunctionLiteral}
    (h : FunctionLiteral.ofForm (Keywords.intern e.store).1 v = .ok literal) :
    compileFunction ev v e = compileLiteral (compileForm ev (Keywords.intern e.store).1
      e.limits.maxCompileDepth e.limits.maxCompileDepth) literal
        { e with store := (Keywords.intern e.store).2 } := by
  rw [compileFunction, Eval.bind_of_ok (Eval.onStore_run _ e),
    Eval.bind_of_ok (Eval.ofExcept_eq_ok.2 ⟨h, rfl⟩)]
  rfl

/-- Anything else at the top level is refused. -/
theorem compileFunction_of_error {e : Engine} {v : Value} {error : Error}
    (h : FunctionLiteral.ofForm (Keywords.intern e.store).1 v = .error error) :
    compileFunction ev v e =
      (.error (.fault error), { e with store := (Keywords.intern e.store).2 }) := by
  rw [compileFunction, Eval.bind_of_ok (Eval.onStore_run _ e), h]
  rfl

/-- A function literal of the language is compiled if it fits. -/
theorem compileFunction_cases (hfuel : 0 < ev.fuel) {e : Engine} (he : e.NoMacros) {v : Value}
    {name : Option Symbol} {parameters : Parameters} {body : List Form}
    (h : v.Denotes (Keywords.intern e.store).1 (.function name parameters body))
    (hroom : Form.nestingAll body ≤ e.limits.maxCompileDepth) :
    (∃ c e', compileFunction ev v e = (.ok c, e') ∧
      (Form.function name parameters body).Fits) ∨
    ∃ limit e', compileFunction ev v e = (.error (.fault (.exhausted limit)), e') ∧
      ¬ (Form.function name parameters body).Fits := by
  cases h with
  | @function ref head listed _ names forms _ _ hhead hlisted hnamed hbody =>
    -- at the top level the list is read as a literal directly, and not through its shape
    have hread := FunctionLiteral.ofForm_eq_ok_iff.2
      ⟨ref, head, _, rfl, (⟨hhead, listed, names, rfl, hlisted, hnamed⟩ :
        Shape.Of _ head _ (.function ⟨name, parameters, forms⟩))⟩
    rw [compileFunction_of_ok hread]
    have hsettled := forall₂_settled hbody hroom
      (compileForm_decides hfuel _ e.limits.maxCompileDepth _).settled
    obtain ⟨c, e', hrun, -, hfits⟩ | hrefused := compileLiteral_cases ⟨name, parameters, forms⟩
      id (noMacros_withStore he _) (compileForm_added _ _) hsettled
    · exact .inl ⟨c, e', hrun, hfits⟩
    · exact .inr hrefused

/-- Whatever is not a function literal of the language is refused. -/
theorem compileFunction_decides (hfuel : 0 < ev.fuel) {e : Engine} (he : e.NoMacros) (v : Value) :
    (∃ name parameters body,
      v.Denotes (Keywords.intern e.store).1 (.function name parameters body) ∧
        Form.nestingAll body ≤ e.limits.maxCompileDepth) ∨
    ∃ error e', compileFunction ev v e = (.error (.fault error), e') ∧ error.IsRefusal := by
  cases hread : FunctionLiteral.ofForm (Keywords.intern e.store).1 v with
  | error error =>
    exact .inr ⟨error, _, compileFunction_of_error hread, Answers.ofForm _ v error hread⟩
  | ok literal =>
    rw [compileFunction_of_ok hread]
    obtain ⟨ref, head, others, rfl, hhead, listed, names, rfl, hlisted, hnamed⟩ :=
      FunctionLiteral.ofForm_eq_ok_iff.1 hread
    obtain ⟨fs, hfs, hroom⟩ | hrefuses := (compileForm_decides hfuel _ _ _).literal literal
    · exact .inl ⟨literal.name, literal.parameters, fs,
        .function literal.name hhead hlisted hnamed hfs, hroom⟩
    · exact .inr (hrefuses _ (noMacros_withStore he _))

end Compiler

open Compiler

/-- The compiler accepts exactly the language. Without macros, whatever it compiles is a function
literal of the language in which forms nest no deeper than allowed. Every such literal is compiled,
unless a function in it needs too many words or too many constants, and then a limit is exhausted.
Whatever is refused is malformed, has a part of the wrong type, or exhausts a limit. -/
theorem compiler_accepts_the_language (ev : Evaluator) (e : Engine) (v : Value)
    (hfuel : 0 < ev.fuel) (hmacros : e.NoMacros) :
    (∀ c, (compileFunction ev v e).1 = .ok c → ∃ name parameters body,
      v.Denotes (Keywords.intern e.store).1 (.function name parameters body) ∧
        Form.nestingAll body ≤ e.limits.maxCompileDepth) ∧
    (∀ name parameters body,
      v.Denotes (Keywords.intern e.store).1 (.function name parameters body) →
      Form.nestingAll body ≤ e.limits.maxCompileDepth →
      ((Form.function name parameters body).Fits → ∃ c, (compileFunction ev v e).1 = .ok c) ∧
      (¬ (Form.function name parameters body).Fits →
        ∃ limit, (compileFunction ev v e).1 = .error (.fault (.exhausted limit)))) ∧
    ∀ stop, (compileFunction ev v e).1 = .error stop →
      ∃ error, stop = .fault error ∧ error.IsRefusal := by
  refine ⟨fun c hc => ?_, fun name parameters body hv hroom => ?_, fun stop hstop => ?_⟩
  · obtain haccepted | ⟨error, e', hrun, -⟩ := compileFunction_decides hfuel hmacros v
    · exact haccepted
    · rw [hrun] at hc
      cases hc
  · obtain ⟨c, e', hrun, hfits⟩ | ⟨limit, e', hrun, hnot⟩ :=
      compileFunction_cases hfuel hmacros hv hroom
    · rw [hrun]
      exact ⟨fun _ => ⟨c, rfl⟩, fun hnot => absurd hfits hnot⟩
    · rw [hrun]
      exact ⟨fun hfits => absurd hfits hnot, fun _ => ⟨limit, rfl⟩⟩
  · obtain ⟨name, parameters, body, hv, hroom⟩ | ⟨error, e', hrun, herror⟩ :=
      compileFunction_decides hfuel hmacros v
    -- a literal of the language is only refused for a limit
    · obtain ⟨c, e', hrun, -⟩ | ⟨limit, e', hrun, -⟩ :=
        compileFunction_cases hfuel hmacros hv hroom
      · rw [hrun] at hstop
        cases hstop
      · rw [hrun] at hstop
        exact ⟨_, (Except.error.inj hstop).symm, .exhausted limit⟩
    · rw [hrun] at hstop
      exact ⟨error, (Except.error.inj hstop).symm, herror⟩

/-- The form `(fn (& s) s)` is accepted. -/
theorem compiler_accepts_the_language_collecting : ∃ (s : Symbol) (v : Value) (c : Closure),
    v.Denotes (Keywords.intern (default : Engine).store).1
      (.function none ⟨[s], 0, true⟩ [.lookup s]) ∧
    (compileFunction (Machine.evaluator 2) v default).1 = .ok c := by
  have hdenotes : ∀ k : Keywords, (Value.list 0 (.symbol k.function)
      [.list 1 (.symbol k.rest) [.symbol default], .symbol default]).Denotes k
        (.function none ⟨[default], 0, true⟩ [.lookup default]) := fun k =>
    .function none (Keywords.special?_eq_function_iff.2 rfl) rfl
      (.collecting [] List.not_mem_nil default) (.cons .lookup .nil)
  have hfits : (Form.function none ⟨[default], 0, true⟩ [.lookup default]).Fits := by
    refine ⟨by decide, ?_, trivial, trivial⟩
    simp [Indexable, Form.bodyKeys, Form.keysAll, Form.keys, Key.indexes, Key.index,
      Key.ofParameters]
  have hmacros : (default : Engine).NoMacros := by
    intro s c h
    cases (Globals.get?_empty s).symm.trans h
  obtain ⟨c, hc⟩ := ((compiler_accepts_the_language (Machine.evaluator 2) default _ (by decide)
    hmacros).2.1 _ _ _ (hdenotes _) (by decide)).1 hfits
  exact ⟨default, _, c, hdenotes _, hc⟩

end StackLisp

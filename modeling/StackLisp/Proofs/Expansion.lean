import StackLisp.Proofs.Acceptance
import StackLisp.Proofs.Passes
import StackLisp.Proofs.Printing
import StackLisp.Proofs.Verified

/-!
# Expansion before compilation

The compiler expands macros while it emits code, each form right before it is compiled. If macros
act as pure functions of the forms they are called on, expansion could as well come first, as a pass
of its own over the whole function, and the compiler would not have to know about macros.

- `Compiler.passes_list`: compiling a list is expanding what is evaluated of it, and then compiling;
- `Compiler.passes_form`: by induction on how deep forms may nest, so it is for every form;
- `expansion_is_a_pass`: a function is compiled if its expansion is, and the closures agree.

There is one exception. The first item of a call is expanded like the others. If it becomes the
symbol of a special form, the list is one after the expansion, while the compiler goes on to compile
a call.
-/

namespace StackLisp

variable {origin : Engine} {state : Engine → Prop} {ρ σ τ : Matching} {k : Keywords}

namespace Compiler

/-! ## Lists -/

/-- A list without a shape is refused. -/
theorem compileExpanded_malformed {compile : Value → Build Unit} (ref : Ref) {head : Value}
    {others : List Value} (h : ∀ shape : Shape, ¬ shape.Of k head others) :
    ∃ error, ∀ b e, compileExpanded compile k (.list ref head others) b e =
      (.error (.fault error), e) := by
  cases hread : Shape.ofItems k head others with
  | ok shape => exact absurd (Shape.ofItems_eq_ok_iff.1 hread) (h shape)
  | error error =>
    refine ⟨error, fun b e => Build.bind_of_error (Eval.bind_of_error ?_ _) _⟩
    rw [hread]
    rfl

section

variable {ev : Evaluator} {deep : Prop} {W : Ways} (hpure : PureMacros ev origin state)

include hpure in
/-- A list of some shape is compiled by its parts, and so is one with other parts. -/
theorem passes_shape (shape : Shape) {ref : Ref} {head head' : Value} {others others' : List Value}
    {z : List Value → Build Unit} (hshape : shape.Of k head others)
    (hrow : W.Row origin state deep ρ (compileShape W.compile shape)
      (k.evaluatedItems head' others') z)
    (hz : ∀ us, us.length = (k.evaluatedItems head' others').length → ∃ first rest,
      k.replaceEvaluated head' others' us = first :: rest ∧
        (k.special? first = k.special? head' → ∃ shape' : Shape, shape'.Of k first rest ∧
          compileShape W.compileRest shape' = z us)) :
    Passes origin state deep ρ (compileExpanded W.compile k (.list ref head others))
      (expandItems W.expand k head' others') (fun x => x.callsStay = true)
      fun x => compileExpanded W.compileRest k x.form := by
  have hcompile : compileExpanded W.compile k (.list ref head others) =
      compileShape W.compile shape :=
    funext fun b => funext fun e => compileExpanded_list hshape b e
  rw [hcompile]
  refine Passes.map hpure hrow (nextRef_remake head' others') ?_
  intro xs e' t' store hrun hstays
  -- one expansion for each item that is evaluated, so the list can be made anew and read
  obtain ⟨first, rest, hreplace, hread⟩ := hz (xs.map Expansion.form)
    (by rw [List.length_map, length_expandEach hrun])
  obtain ⟨hxs, hfirst⟩ := (callsStay_remake hreplace store).1 hstays
  obtain ⟨shape', hshape', hsame⟩ := hread hfirst
  refine ⟨hxs, fun b s _ => ?_⟩
  rw [remake_eq hreplace, compileExpanded_list hshape', hsame]

/-- A list without a shape is refused on both sides. -/
theorem passes_malformed {ref : Ref} {head head' : Value} {others others' : List Value}
    {special : Special} (hspecial : k.special? head' = some special)
    (hshape : ∀ shape : Shape, ¬ shape.Of k head others) (hstays : StaysMalformed k head' others') :
    Passes origin state deep ρ (compileExpanded W.compile k (.list ref head others))
      (expandItems W.expand k head' others') (fun x => x.callsStay = true)
      fun x => compileExpanded W.compileRest k x.form := by
  intro σ e e' b _ _
  obtain ⟨error, hrefuses⟩ := compileExpanded_malformed ref hshape
  rw [hrefuses]
  refine ⟨fun x t' hy => .failed fun hcalls b' s _ _ => ?_, fun _ _ _ _ => ⟨_, _, rfl⟩⟩
  obtain ⟨xs, t₁, hrun, hmade⟩ := Eval.bind_eq_ok.1 hy
  obtain ⟨rfl, -⟩ : x = (remake k head' others' xs t₁.store).1 ∧ _ := by
    simpa [eq_comm] using hmade
  obtain ⟨ref', first, rest, hform, hnone⟩ := remake_malformed hstays hspecial hrun hcalls
  obtain ⟨error', hrefuses'⟩ := compileExpanded_malformed ref' hnone
  dsimp only
  rw [hform]
  exact ⟨.fault error', s, hrefuses' b' s⟩

include hpure in
/-- Nothing in a quotation is expanded. -/
theorem passes_quotation {ref : Ref} {head head' : Value} {others others' : List Value}
    (hspecial : k.special? head = some .quotation) (hspecial' : k.special? head' = some .quotation)
    (hothers : List.Forall₂ (Value.Alike ρ) others others') :
    Passes origin state deep ρ (compileExpanded W.compile k (.list ref head others))
      (expandItems W.expand k head' others') (fun x => x.callsStay = true)
      fun x => compileExpanded W.compileRest k x.form := by
  have hitems : k.evaluatedItems head' others' = [] := by
    simp [Keywords.evaluatedItems, Keywords.evaluated, hspecial']
  -- a quotation without a value is malformed on both sides
  have hshort : ∀ {first : Value} {shape : Shape}, k.special? first = some .quotation →
      ¬ shape.Of k first [] := fun hfirst h => by
    obtain ⟨v, extra, hnil⟩ := Shape.of_quotation hfirst h
    cases hnil
  cases hothers with
  | nil =>
    exact passes_malformed hspecial' (fun shape => hshort hspecial)
      (.of_nothing hitems fun shape => hshort hspecial')
  | @cons v v' extra extra' hv _ =>
    refine passes_shape hpure (.quotation v) (z := fun _ => constant v')
      ⟨hspecial, extra, rfl⟩ ?_ fun us hus => ?_
    · rw [hitems]
      exact row_nil hpure (passes_constant deep hv) rfl
    · have hsame := k.replaceEvaluated_evaluatedItems head' (v' :: extra')
      rw [hitems] at hus hsame
      obtain rfl := List.length_eq_zero_iff.1 hus
      exact ⟨head', v' :: extra', hsame, fun _ => ⟨.quotation v', ⟨hspecial', extra', rfl⟩, rfl⟩⟩

include hpure in
/-- Of a conditional three items are expanded, and further ones are left alone. -/
theorem passes_conditional {ref : Ref} {head head' : Value} {others others' : List Value}
    (hspecial : k.special? head = some .conditional)
    (hspecial' : k.special? head' = some .conditional)
    (hothers : List.Forall₂ (W.Part origin state deep ρ) others others')
    (hnil : Passes origin state deep ρ (W.compile .nil) (pure ()) (fun _ => True)
      fun _ => W.compileRest .nil) :
    Passes origin state deep ρ (compileExpanded W.compile k (.list ref head others))
      (expandItems W.expand k head' others') (fun x => x.callsStay = true)
      fun x => compileExpanded W.compileRest k x.form := by
  have hitems : k.evaluatedItems head' others' = others'.take 3 :=
    Keywords.evaluatedItems_conditional hspecial'
  by_cases hfew : others'.length < 2
  · refine passes_malformed hspecial' (fun shape h => ?_) (.of_conditional hspecial' hfew)
    obtain ⟨test, consequent, extra, rfl⟩ := Shape.of_conditional hspecial h
    rw [← hothers.length_eq, List.length_cons, List.length_cons] at hfew
    omega
  cases hothers with
  | nil => exact absurd Nat.zero_lt_two hfew
  | @cons test test' _ _ htest hothers =>
    cases hothers with
    | nil => exact absurd Nat.one_lt_two hfew
    | @cons consequent consequent' extra extra' hthen helse =>
      have hrow := row_conditional hpure htest hthen helse hnil
      -- the alternative is the third item that is evaluated, if there is one
      change W.Row _ _ _ _ _ ((test' :: consequent' :: extra').take 3) _ at hrow
      rw [← hitems] at hrow
      refine passes_shape hpure (.conditional test consequent (extra.headD .nil))
        ⟨hspecial, extra, rfl, rfl⟩ hrow fun us hus => ?_
      rw [hitems] at hus
      obtain ⟨u₁, us, rfl⟩ := List.exists_cons_of_length_eq_add_one hus
      obtain ⟨u₂, us, rfl⟩ := List.exists_cons_of_length_eq_add_one (Nat.add_right_cancel hus)
      -- there was an alternative before, or there is none now
      have halternative : (us ++ extra'.drop 1).headD .nil = us.headD .nil := by
        cases us with
        | nil => cases extra' <;> simp_all
        | cons => rfl
      refine ⟨head', u₁ :: u₂ :: (us ++ extra'.drop 1),
        Keywords.replaceEvaluated_conditional hspecial' _, fun _ =>
        ⟨.conditional u₁ u₂ _, ⟨hspecial', us ++ extra'.drop 1, rfl, rfl⟩, ?_⟩⟩
      rw [halternative]
      rfl

include hpure in
/-- Of an assignment only the value is expanded, not the name. -/
theorem passes_assignment {ref : Ref} {head head' : Value} {others others' : List Value}
    {way : Assignment} (hspecial : k.special? head = some (.assignment way))
    (hspecial' : k.special? head' = some (.assignment way))
    (hothers : List.Forall₂ (Value.Alike ρ) others others')
    (hparts : List.Forall₂ (W.Part origin state deep ρ) others others') :
    Passes origin state deep ρ (compileExpanded W.compile k (.list ref head others))
      (expandItems W.expand k head' others') (fun x => x.callsStay = true)
      fun x => compileExpanded W.compileRest k x.form := by
  have hitems : k.evaluatedItems head' others' = (others'.drop 1).take 1 :=
    Keywords.evaluatedItems_assignment hspecial'
  by_cases hshape : ∃ target value extra, others = .symbol target :: value :: extra
  · obtain ⟨target, value, extra, rfl⟩ := hshape
    obtain ⟨_, _, htarget, hbehind, rfl⟩ := List.forall₂_cons_left_iff.1 hothers
    obtain ⟨value', extra', -, -, rfl⟩ := List.forall₂_cons_left_iff.1 hbehind
    cases htarget
    cases hparts with
    | cons _ hparts =>
      cases hparts with
      | cons hvalue _ =>
        have hrow := row_assignment hpure way target hvalue
        change W.Row _ _ _ _ _ (((Value.symbol target :: value' :: extra').drop 1).take 1) _ at hrow
        rw [← hitems] at hrow
        refine passes_shape hpure (.assignment way target value) ⟨hspecial, extra, rfl⟩ hrow
          fun us hus => ?_
        rw [hitems] at hus
        obtain ⟨u, us, rfl⟩ := List.exists_cons_of_length_eq_add_one hus
        obtain rfl := List.length_eq_zero_iff.1 (Nat.add_right_cancel hus)
        exact ⟨head', .symbol target :: u :: extra',
          Keywords.replaceEvaluated_assignment hspecial' _, fun _ =>
            ⟨.assignment way target u, ⟨hspecial', extra', rfl⟩, rfl⟩⟩
  · refine passes_malformed hspecial' (fun shape h => hshape (Shape.of_assignment hspecial h))
      (.of_assignment hspecial' fun target value extra h => hshape ?_)
    -- only a symbol is like a symbol
    subst h
    obtain ⟨_, _, htarget, hbehind, rfl⟩ := List.forall₂_cons_right_iff.1 hothers
    obtain ⟨value, extra, -, -, rfl⟩ := List.forall₂_cons_right_iff.1 hbehind
    cases htarget
    exact ⟨_, _, _, rfl⟩

include hpure in
/-- Compiling a list with macros is expanding what is evaluated of it, and then compiling without
macros. -/
theorem passes_list {ref : Ref} {head head' : Value} {others others' : List Value}
    (hparts : ∀ {v v' : Value}, v.Alike ρ v' → W.Part origin state deep ρ v v')
    (hnil : Passes origin state deep ρ (W.compile .nil) (pure ()) (fun _ => True)
      fun _ => W.compileRest .nil)
    (hhead : head.Alike ρ head') (hothers : List.Forall₂ (Value.Alike ρ) others others') :
    Passes origin state deep ρ (compileExpanded W.compile k (.list ref head others))
      (expandItems W.expand k head' others') (fun x => x.callsStay = true)
      fun x => compileExpanded W.compileRest k x.form := by
  have hall : ∀ {vs vs' : List Value}, List.Forall₂ (Value.Alike ρ) vs vs' →
      List.Forall₂ (W.Part origin state deep ρ) vs vs' := fun h => h.imp fun _ _ => hparts
  cases hspecial' : k.special? head' with
  | none =>
    have hitems : k.evaluatedItems head' others' = head' :: others' := by
      simp [Keywords.evaluatedItems, Keywords.evaluated, hspecial']
    have hrow := row_call hpure (hall (.cons hhead hothers))
    rw [← hitems] at hrow
    refine passes_shape hpure (.call head others)
      ⟨hhead.special?_eq.trans hspecial', rfl, rfl⟩ hrow fun us hus => ?_
    rw [hitems] at hus
    obtain ⟨first, rest, rfl⟩ := List.exists_cons_of_length_eq_add_one hus
    refine ⟨first, rest, ?_, fun hfirst =>
      ⟨.call first rest, ⟨hfirst.trans hspecial', rfl, rfl⟩, ?_⟩⟩
    · simp [Keywords.replaceEvaluated, Keywords.evaluated, hspecial']
    -- there are as many arguments as before
    · rw [compileShape, Nat.add_right_cancel hus]
  | some special =>
    have hspecial := hhead.special?_eq.trans hspecial'
    cases special with
    | function =>
      obtain ⟨literal, hshape, hbody, hrebuilt⟩ | ⟨hshape, hstays⟩ :=
        function_cases hspecial' hhead hothers
      · refine passes_shape hpure _ hshape (row_function hpure literal (hall hbody)) fun us _ => ?_
        obtain ⟨rest, hreplace, hshape'⟩ := hrebuilt us
        exact ⟨head', rest, hreplace, fun _ => ⟨_, hshape', rfl⟩⟩
      · exact passes_malformed hspecial' hshape hstays
    | quotation => exact passes_quotation hpure hspecial hspecial' hothers
    | conditional => exact passes_conditional hpure hspecial hspecial' (hall hothers) hnil
    | assignment way => exact passes_assignment hpure hspecial hspecial' hothers (hall hothers)

end

/-! ## Forms -/

variable {ev ev₀ : Evaluator} {deep : Prop}

/-- The empty list is compiled the same with macros and without. -/
theorem passes_nil (hfuel : 0 < ev.fuel) (hfuel₀ : 0 < ev₀.fuel) (limit room : Nat) :
    Passes origin state deep ρ (compileForm ev k limit room .nil) (pure ()) (fun _ => True)
      fun _ => compileForm ev₀ k limit room .nil := by
  cases room with
  | zero => exact passes_addition deep fun b e _ _ => .inl ⟨_, rfl, fun b' s _ => ⟨_, rfl⟩⟩
  | succ room =>
    have hconstant : ∀ {ev : Evaluator}, 0 < ev.fuel →
        compileForm ev k limit (room + 1) .nil = constant .nil := fun hfuel =>
      funext fun b => funext fun e => compileForm_of_expand (expandWithin_of_noMacroCall hfuel rfl)
    rw [hconstant hfuel, hconstant hfuel₀]
    exact passes_constant deep .nil

/-- What was expanded at its head is compiled after its parts were expanded. -/
theorem passes_expanded {W : Ways} (hpure : PureMacros ev origin state)
    (hparts : ∀ {v v' : Value}, v.Alike ρ v' → W.Part origin state deep ρ v v')
    (hnil : Passes origin state deep ρ (W.compile .nil) (pure ()) (fun _ => True)
      fun _ => W.compileRest .nil) {w w' : Value} (hw : w.Alike ρ w') :
    Passes origin state deep ρ (compileExpanded W.compile k w)
      (match w' with
        | .list _ head others => expandItems W.expand k head others
        | atom => return ⟨atom, true⟩)
      (fun x => x.callsStay = true) fun x => compileExpanded W.compileRest k x.form := by
  -- an atom is its own expansion, so only the last step has anything to do
  have hatom : ∀ {p : Build Unit} {v : Value},
      Passes origin state deep ρ p (pure ()) (fun _ => True)
        (fun _ => compileExpanded W.compileRest k v) →
      Passes origin state deep ρ p (return ⟨v, true⟩) (fun x : Expansion => x.callsStay = true)
        fun x => compileExpanded W.compileRest k x.form := fun {_ v} h =>
    h.congr hpure (f := fun _ => ⟨v, true⟩) rfl fun _ _ _ _ _ => ⟨trivial, rfl⟩
  cases hw with
  | list _ hfirst hothers => exact passes_list hpure hparts hnil hfirst hothers
  | symbol s =>
    exact hatom (Passes.own hpure (passes_constant deep (.symbol s)) (passes_emit deep .load))
  | number n => exact hatom (passes_constant deep (.number n))
  | boolean b => exact hatom (passes_constant deep (.boolean b))
  | string text href => exact hatom (passes_constant deep (.string text href))
  | nil => exact hatom (passes_constant deep .nil)
  | intrinsic function href => exact hatom (passes_constant deep (.intrinsic function href))
  | closure href hname hcode hpositional hvariadic hconstants =>
    exact hatom (passes_constant deep
      (.closure href hname hcode hpositional hvariadic hconstants))

/-- Compiling a form with macros is expanding it, and then compiling without macros. -/
theorem passes_form (hpure : PureMacros ev origin state) (hfuel₀ : 0 < ev₀.fuel)
    (limit room depth : Nat) {v v' : Value} (hv : v.Alike ρ v') :
    Passes origin state (room ≤ depth) ρ (compileForm ev k limit room v) (expandAll ev k depth v')
      (fun x => x.callsStay = true) fun x => compileForm ev₀ k limit room x.form := by
  -- the compiler counts down its room as the expansion counts down its depth
  induction room generalizing depth v v' ρ with
  | zero =>
    -- no room is left on either side
    refine fun σ e e' b _ _ => ⟨fun x t' _ => .failed fun _ b' s _ _ => ⟨_, s, rfl⟩,
      fun _ _ _ _ => ⟨_, e, rfl⟩⟩
  | succ room ih =>
    cases depth with
    | zero =>
      exact fun σ e e' b _ _ => ⟨nofun, fun hdeep => absurd hdeep (Nat.not_succ_le_zero _)⟩
    | succ depth =>
      intro σ e e' b hσ hpar
      have hhead := expandWithin_alike hpure k ev.fuel hpar (hv.mono hσ)
      generalize hx : expandWithin ev k ev.fuel v e = x at hhead
      generalize hx' : expandWithin ev k ev.fuel v' e' = x' at hhead
      cases hhead with
      | error =>
        refine ⟨fun x t' h => ?_, fun _ _ _ _ => ?_⟩
        · rw [expandAll, Eval.bind_of_error hx'] at h
          cases h
        · exact ⟨_, _, Build.bind_of_error (Eval.bind_of_error hx _) _⟩
      | @ok w w' e₁ e₁' τ hτ hpar₁ hw =>
        -- with no fuel the head would not have been expanded
        have hfuel : 0 < ev.fuel := by
          refine Nat.pos_of_ne_zero fun hzero => ?_
          rw [hzero] at hx
          cases hx
        obtain ⟨hok, herror⟩ := passes_expanded (k := k) hpure
          (W := ⟨compileForm ev k limit room, expandAll ev k depth, compileForm ev₀ k limit room⟩)
          (ih depth) (passes_nil hfuel hfuel₀ limit room) hw b
          (fun _ _ h => h) hpar₁
        rw [compileForm_of_expand hx, expandAll, Eval.bind_of_ok hx']
        -- without macros the expansion is compiled as it stands
        refine ⟨fun a t' h => (hok a t' h).narrow hτ fun hstays => ⟨hstays, fun b s hs => ?_⟩,
          fun hdeep => herror (Nat.le_of_succ_le_succ hdeep)⟩
        exact compileForm_of_expand (expandWithin_of_noMacros hfuel₀ hs a.form)

/-! ## Functions -/

/-- Expand a form and all forms in it that are evaluated. -/
def expandForm (ev : Evaluator) (depth : Nat) (v : Value) : Eval Expansion := do
  let k ← Eval.onStore Keywords.intern
  expandAll ev k depth v

section

variable {e e₀ : Engine} {ref : Ref} {head : Value} {others : List Value} {store : Store}

/-- A function literal is no macro call, so only its body is expanded. -/
theorem expandForm_function (hk : Keywords.intern e.store = (k, store)) (hfuel : 0 < ev.fuel)
    (depth : Nat) :
    expandForm ev (depth + 1) (.list ref (.symbol k.function) others) e =
      expandItems (expandAll ev k depth) k (.symbol k.function) others { e with store } := by
  rw [expandForm, Eval.bind_of_ok (Eval.onStore_run _ e), hk, expandAll]
  exact Eval.bind_of_ok (expandWithin_of_noMacroCall hfuel (macroCall?_function k _ ref others)) _

/-- A list that is a function literal is compiled as one. -/
theorem compileFunction_of_shape (hk : Keywords.intern e.store = (k, store))
    {literal : FunctionLiteral} (h : (Shape.function literal).Of k head others) :
    compileFunction ev (.list ref head others) e =
      compileLiteral (compileForm ev k e.limits.maxCompileDepth e.limits.maxCompileDepth) literal
        { e with store } := by
  have hread : FunctionLiteral.ofForm (Keywords.intern e.store).1 (.list ref head others) =
      .ok literal := by
    rw [hk]
    exact FunctionLiteral.ofForm_eq_ok_iff.2 ⟨ref, head, others, rfl, h⟩
  rw [compileFunction_of_ok hread, hk]

/-- A list without a shape is refused. -/
theorem compileFunction_malformed (ev : Evaluator) (ref : Ref)
    (hk : Keywords.intern e.store = (k, store))
    (h : ∀ shape : Shape, ¬ shape.Of k head others) :
    ∃ error t, compileFunction ev (.list ref head others) e = (.error (.fault error), t) := by
  cases hread : FunctionLiteral.ofForm (Keywords.intern e.store).1 (.list ref head others) with
  | error error => exact ⟨error, _, compileFunction_of_error hread⟩
  | ok literal =>
    obtain ⟨_, _, _, hlist, hshape⟩ := FunctionLiteral.ofForm_eq_ok_iff.1 hread
    cases hlist
    rw [hk] at hshape
    exact absurd hshape (h _)

variable (hk : Keywords.intern e.store = (k, store)) (hpure : PureMacros ev e state)
include hk hpure

/-- A function literal is compiled alongside the expansion of its body. -/
theorem literal_pass (hfuel₀ : 0 < ev₀.fuel) (limit depth : Nat) (literal : FunctionLiteral)
    {body' : List Value} (h : List.Forall₂ (Value.Alike e.existing) literal.body body') :
    (∀ xs t, expandEach (expandAll ev k depth) body' { e with store } = (.ok xs, t) →
      Closes e state e.existing t (StaysAll xs)
        (compileLiteral (compileForm ev₀ k limit limit)
          { literal with body := xs.map Expansion.form })
        (compileLiteral (compileForm ev k limit limit) literal { e with store })) ∧
    (limit ≤ depth → ∀ stop t,
      expandEach (expandAll ev k depth) body' { e with store } = (.error stop, t) →
        ∃ stop' t', compileLiteral (compileForm ev k limit limit) literal { e with store } =
          (.error stop', t')) := by
  have hstore : e.store.nextRef ≤ store.nextRef := by
    have hsame := Keywords.nextRef_intern e.store
    rw [hk] at hsame
    exact hsame.ge
  have hpar : Parallel e state e.existing { e with store } { e with store } :=
    (Parallel.existing hpure).withStore hpure hstore hstore
  have hbody := h.imp fun v v' hv =>
    passes_form (k := k) hpure hfuel₀ limit limit depth hv
  exact compileLiteral_alike (W := ⟨compileForm ev k limit limit, expandAll ev k depth,
    compileForm ev₀ k limit limit⟩) hpure literal hbody (fun _ _ h => h) hpar

variable (hfuel : 0 < ev.fuel) (hothers : List.Forall₂ (Value.Alike e.existing) others others)
include hfuel hothers

/-- Whenever a function is compiled, its forms can be expanded beforehand. -/
theorem expandForm_of_compiled {c : Closure} {t : Engine}
    (h : compileFunction ev (.list ref (.symbol k.function) others) e = (.ok c, t)) :
    ∃ x t', expandForm ev (e.limits.maxCompileDepth + 1) (.list ref (.symbol k.function) others) e =
      (.ok x, t') := by
  rw [expandForm_function hk hfuel]
  obtain ⟨literal, hshape, hbody, -⟩ | ⟨hshape, -⟩ :=
    function_cases (Keywords.special?_eq_function_iff.2 rfl) (.symbol k.function) hothers
  · rw [compileFunction_of_shape hk hshape] at h
    obtain ⟨-, herror⟩ := literal_pass hk hpure hfuel e.limits.maxCompileDepth
      e.limits.maxCompileDepth literal hbody
    rcases hrun : expandEach (expandAll ev k e.limits.maxCompileDepth)
      (k.evaluatedItems (.symbol k.function) others) { e with store } with ⟨stop | xs, t'⟩
    · obtain ⟨stop', t'', hstops⟩ := herror (Nat.le_refl _) stop t' hrun
      cases h.symm.trans hstops
    · exact ⟨_, _, Eval.bind_of_ok hrun _⟩
  · obtain ⟨error, t', hrun⟩ := compileFunction_malformed ev ref hk hshape
    cases h.symm.trans hrun

variable (hfuel₀ : 0 < ev₀.fuel) (hmacros : e₀.NoMacros)
  (hkeywords : (Keywords.intern e₀.store).1 = k)
  (hlimit : e₀.limits.maxCompileDepth = e.limits.maxCompileDepth)
include hfuel₀ hmacros hkeywords hlimit

/-- A function and its expansion are both refused or give closures that agree. -/
theorem compileFunction_expanded {depth : Nat} {x : Expansion} {t : Engine}
    (h : expandForm ev depth (.list ref (.symbol k.function) others) e = (.ok x, t))
    (hx : x.callsStay = true) :
    (∃ stop stop', (compileFunction ev (.list ref (.symbol k.function) others) e).1 = .error stop ∧
      (compileFunction ev₀ x.form e₀).1 = .error stop') ∨
    ∃ c c', (compileFunction ev (.list ref (.symbol k.function) others) e).1 = .ok c ∧
      (compileFunction ev₀ x.form e₀).1 = .ok c' ∧ (Value.closure c).Alike .any (.closure c') := by
  obtain ⟨store₀, hk₀⟩ : ∃ store₀, Keywords.intern e₀.store = (k, store₀) :=
    ⟨_, Prod.ext hkeywords rfl⟩
  cases depth with
  -- nothing is expanded without depth, so there is no `x`
  | zero =>
    obtain ⟨_, _, -, hnone⟩ := Eval.bind_eq_ok.1 h
    cases hnone
  | succ depth =>
    rw [expandForm_function hk hfuel] at h
    obtain ⟨xs, t₁, hrun, hmade⟩ := Eval.bind_eq_ok.1 h
    obtain ⟨rfl, -⟩ : x = (remake k (.symbol k.function) others xs t₁.store).1 ∧ _ := by
      simpa [eq_comm] using hmade
    obtain ⟨literal, hshape, hbody, hrebuilt⟩ | ⟨hshape, hstays⟩ :=
      function_cases (Keywords.special?_eq_function_iff.2 rfl) (.symbol k.function) hothers
    · obtain ⟨rest, hreplace, hshape'⟩ := hrebuilt (xs.map Expansion.form)
      obtain ⟨hxs, -⟩ := (callsStay_remake hreplace _).1 hx
      obtain ⟨hok, -⟩ := literal_pass hk hpure hfuel₀ e.limits.maxCompileDepth depth literal hbody
      have hcloses := hok xs t₁ hrun
      rw [remake_eq hreplace, compileFunction_of_shape hk hshape,
        compileFunction_of_shape hk₀ hshape', hlimit]
      generalize compileLiteral (compileForm ev k e.limits.maxCompileDepth
        e.limits.maxCompileDepth) literal { e with store } = r at hcloses
      cases hcloses with
      | failed hrest =>
        obtain ⟨stop', s', hrun'⟩ := hrest hxs _ (noMacros_withStore hmacros store₀)
        exact .inl ⟨_, stop', rfl, by rw [hrun']⟩
      | compiled τ _ _ hrest =>
        obtain ⟨c', s', hrun', -, hc⟩ := hrest hxs _ (noMacros_withStore hmacros store₀)
        exact .inr ⟨_, c', rfl, by rw [hrun'], hc⟩
    · obtain ⟨error, t', hrefuses⟩ := compileFunction_malformed ev ref hk hshape
      obtain ⟨ref', first, rest, hform, hnone⟩ := remake_malformed hstays
        (Keywords.special?_eq_function_iff.2 rfl) hrun hx
      obtain ⟨error', t'', hrefuses'⟩ := compileFunction_malformed ev₀ ref' hk₀ hnone
      rw [hform, hrefuses, hrefuses']
      exact .inl ⟨_, _, rfl, rfl⟩

end

end Compiler

/-! ## An example -/

open Compiler

section

variable {k : Keywords} {e t : Engine} {m : Symbol} {v : Value}

/-- An evaluator in which every function gives back its first argument. -/
def Evaluator.first : Evaluator :=
  { fuel := 2, apply := fun _ args => pure (args.headD .nil), loadFile := fun _ => pure .nil }

theorem Evaluator.fuel_first : 0 < Evaluator.first.fuel := Nat.two_pos

/-- Giving back an argument is a pure function, and makes no objects. -/
theorem pureMacros_first (e : Engine) :
    PureMacros .first e fun t => t.globals = e.globals ∧ t.macros = e.macros where
  start := ⟨rfl, rfl⟩
  store h _ := h
  globals h := h.1
  macros h := h.2
  apply {ρ _ _ _ _ args args'} hpar _ _ hargs := by
    refine .ok ρ (fun _ _ h => h) hpar ?_
    cases hargs with
    | nil => exact .nil
    | cons hfirst _ => exact hfirst

/-- An engine in which some objects exist, and in which the symbol is bound to a macro. -/
def Engine.withMacro (s : Symbol) : Engine :=
  { ((default : Engine).define s (.closure (emptyFunction 0))).markMacro (emptyFunction 0) with
    store := { nextRef := 4 } }

theorem Engine.macroCall?_withMacro {s : Symbol} (hs : k.isSpecial s = false) (store : Store)
    (ref : Ref) (args : List Value) :
    macroCall? k { Engine.withMacro s with store } (.list ref (.symbol s) args) =
      some (emptyFunction 0, args) := by
  have hglobal : ({ Engine.withMacro s with store } : Engine).global? s =
      some (.closure (emptyFunction 0)) := by
    rw [Engine.global?]
    exact (Globals.get?_insert _ s s _).trans (if_pos rfl)
  have hmacro : ({ Engine.withMacro s with store } : Engine).isMacro (emptyFunction 0) = true := by
    simp [Engine.isMacro, Engine.withMacro, Engine.markMacro]
  simp [macroCall?, hs, hglobal, hmacro]

/-- A call of the macro is expanded to its first item. -/
theorem expandWithin_withMacro {s : Symbol} (hs : k.isSpecial s = false) (store : Store) (ref : Ref)
    {v : Value} (hatom : v.IsAtom) (hv : v.identity ≠ .object ref) :
    expandWithin .first k 2 (.list ref (.symbol s) [v]) { Engine.withMacro s with store } =
      (.ok v, { Engine.withMacro s with store }) := by
  have honce : expandOnce .first k (.list ref (.symbol s) [v])
      { Engine.withMacro s with store } = (.ok v, { Engine.withMacro s with store }) := by
    rw [expandOnce, Eval.bind_of_ok (Eval.get_run _), Engine.macroCall?_withMacro hs]
    rfl
  have hother : ¬ v.identical (.list ref (.symbol s) [v]) = true := by
    rw [Value.identical, decide_eq_true_eq]
    exact hv
  rw [expandWithin, Eval.bind_of_ok honce, if_neg hother]
  refine expandWithin_of_noMacroCall Nat.one_pos ?_
  cases v with
  | list => exact hatom.elim
  | _ => rfl

/-- A form whose head is expanded to an atom has no parts to expand. -/
theorem expandAll_of_atom {ev : Evaluator} {v w : Value} {depth : Nat} {t t' : Engine}
    (h : expandWithin ev k ev.fuel v t = (.ok w, t')) (hatom : w.IsAtom) :
    expandAll ev k (depth + 1) v t = (.ok ⟨w, true⟩, t') := by
  rw [expandAll, Eval.bind_of_ok h]
  cases w with
  | list => exact hatom.elim
  | _ => rfl

/-- The function literal with no parameters and this one form. -/
theorem shape_thunk (v : Value) :
    (Shape.function (.thunk [v])).Of k (.symbol k.function) [.nil, v] :=
  ⟨Keywords.special?_eq_function_iff.2 rfl, .nil, [], rfl, rfl, .plain [] List.not_mem_nil⟩

section

variable {ev : Evaluator} {store : Store} (ref : Ref) (hk : Keywords.intern e.store = (k, store))
include hk

/-- No form is expanded that may not be nested at all. -/
theorem expandForm_zero (v : Value) : (expandForm ev 0 v e).1 = .error .outOfFuel := by
  rw [expandForm, Eval.bind_of_ok (Eval.onStore_run _ e), hk]
  rfl

/-- Expanding a function with one form is expanding the form. -/
theorem expandForm_thunk (hfuel : 0 < ev.fuel) (depth : Nat) (v : Value) :
    (expandForm ev (depth + 1) (.list ref (.symbol k.function) [.nil, v]) e).1 =
      match expandAll ev k depth v { e with store } with
      | (.ok x, t) =>
        .ok ⟨.list t.store.nextRef (.symbol k.function) [.nil, x.form], x.callsStay⟩
      | (.error stop, _) => .error stop := by
  have hspecial : k.special? (.symbol k.function) = some .function :=
    Keywords.special?_eq_function_iff.2 rfl
  -- of the items of the literal only the form in its body is evaluated
  have hitems : k.evaluatedItems (.symbol k.function) [.nil, v] = [v] :=
    Keywords.evaluatedItems_function none hspecial fun _ => rfl
  rw [expandForm_function hk hfuel, expandItems, hitems]
  rcases hx : expandAll ev k depth v { e with store } with ⟨stop | x, t⟩
  · have heach : expandEach (expandAll ev k depth) [v] { e with store } = (.error stop, t) :=
      Eval.bind_of_error hx _
    rw [Eval.bind_of_error heach]
  · have heach : expandEach (expandAll ev k depth) [v] { e with store } = (.ok [x], t) :=
      Eval.bind_eq_ok.2 ⟨x, t, hx, rfl⟩
    have hreplace : k.replaceEvaluated (.symbol k.function) [.nil, v] ([x].map Expansion.form) =
        .symbol k.function :: [.nil, x.form] :=
      Keywords.replaceEvaluated_function none hspecial (fun _ => rfl) _
    rw [Eval.bind_of_ok heach, Eval.onStore_run, remake_eq hreplace]
    simp

/-- A function with one form has the code of the form. -/
theorem compileFunction_thunk {v : Value} {b : Builder} {t : Engine} {code : Code}
    (h : compileForm ev k e.limits.maxCompileDepth e.limits.maxCompileDepth v {} { e with store } =
      (.ok ((), b), t)) (hcode : Assembly.assemble (b.emit .ret).program.toList = .ok code) :
    ∃ c, (compileFunction ev (.list ref (.symbol k.function) [.nil, v]) e).1 = .ok c ∧
      c.code = code := by
  have hbuild : (do
      compileBody (compileForm ev k e.limits.maxCompileDepth e.limits.maxCompileDepth) [v]
      emit .ret : Build Unit) (.ofParameters []) { e with store } = (.ok ((), b.emit .ret), t) :=
    Build.bind_of_ok h _
  rw [compileFunction_of_shape hk (shape_thunk v), compileLiteral_run hbuild, hcode]
  exact ⟨_, rfl, rfl⟩

end

/-- A form that is expanded to a symbol loads what the symbol is bound to. -/
theorem compileForm_symbol {ev : Evaluator} {limit room : Nat} {v : Value} {s : Symbol}
    {b b' : Builder} {t : Engine} (h : expandWithin ev k ev.fuel v t = (.ok (.symbol s), t))
    (hb : b.constant (.symbol s) = .ok b') :
    compileForm ev k limit (room + 1) v b t = (.ok ((), b'.emit .load), t) := by
  rw [compileForm_of_expand h]
  exact Build.bind_of_ok (constant_eq_ok.2 ⟨hb, rfl⟩) _

/-- The form `((m quote) x)`. -/
def callOfQuote (k : Keywords) (m x : Symbol) : Value :=
  .list 2 (.list 1 (.symbol m) [.symbol k.quote]) [.symbol x]

section

variable {x : Symbol} (hm : k.isSpecial m = false)
include hm

/-- The form is a call: its first item, which is expanded to `quote`, is loaded. -/
theorem compileForm_callOfQuote (limit room : Nat) (store : Store) (hx : x ≠ k.quote) :
    let b₁ : Builder := ((({} : Builder).push (.symbol k.quote)).emit (.const 0)).emit .load
    let b₂ : Builder := ((b₁.push (.symbol x)).emit (.const 1)).emit .load
    let t : Engine := { Engine.withMacro m with store }
    compileForm .first k limit (room + 2) (callOfQuote k m x) {} t =
      (.ok ((), b₂.emit (.call 1)), t) := by
  intro b₁ b₂ t
  have hcallee : compileForm .first k limit (room + 1) (.list 1 (.symbol m) [.symbol k.quote])
      {} t = (.ok ((), b₁), t) :=
    compileForm_symbol (expandWithin_withMacro hm store 1 trivial nofun)
      (by simp [Builder.constant, Builder.place, Builder.pushAt])
  have harg : compileForm .first k limit (room + 1) (.symbol x) b₁ t = (.ok ((), b₂), t) := by
    refine compileForm_symbol (expandWithin_of_noMacroCall Evaluator.fuel_first rfl) ?_
    simp [b₁, Builder.constant, Builder.place, Builder.pushAt, Builder.push, Builder.emit,
      Value.identity, hx.symm]
  have hitems : [Value.list 1 (.symbol m) [.symbol k.quote], .symbol x].forM
      (compileForm .first k limit (room + 1)) {} t = (.ok ((), b₂), t) :=
    (Build.bind_of_ok hcallee _).trans (Build.bind_of_ok harg _)
  exact compileForm_call Evaluator.fuel_first (Nat.le_of_ble_eq_true rfl) hitems

/-- The form is expanded to `(quote x)`. -/
theorem expandAll_callOfQuote (depth : Nat) (store : Store)
    (hquote : k.special? (.symbol k.quote) = some .quotation) :
    let t : Engine := { Engine.withMacro m with store }
    expandAll .first k (depth + 2) (callOfQuote k m x) t =
      (.ok ⟨.list store.nextRef (.symbol k.quote) [.symbol x], false⟩,
        { t with store := { store with nextRef := store.nextRef + 1 } }) := by
  intro t
  have hcallee : expandAll .first k (depth + 1) (.list 1 (.symbol m) [.symbol k.quote]) t =
      (.ok ⟨.symbol k.quote, true⟩, t) :=
    expandAll_of_atom (expandWithin_withMacro hm store 1 trivial nofun) trivial
  have harg : expandAll .first k (depth + 1) (.symbol x) t = (.ok ⟨.symbol x, true⟩, t) :=
    expandAll_of_atom (expandWithin_of_noMacroCall Evaluator.fuel_first rfl) trivial
  have heach : expandEach (expandAll .first k (depth + 1))
      [.list 1 (.symbol m) [.symbol k.quote], .symbol x] t =
        (.ok [⟨.symbol k.quote, true⟩, ⟨.symbol x, true⟩], t) :=
    Eval.bind_eq_ok.2 ⟨_, t, hcallee,
      Eval.bind_eq_ok.2 ⟨_, t, Eval.bind_eq_ok.2 ⟨_, t, harg, rfl⟩, rfl⟩⟩
  rw [callOfQuote, expandAll,
    Eval.bind_of_ok (expandWithin_of_noMacroCall Evaluator.fuel_first rfl)]
  refine (Eval.bind_of_ok heach _).trans ?_
  have hreplace : k.replaceEvaluated (.list 1 (.symbol m) [.symbol k.quote]) [.symbol x]
      ([⟨.symbol k.quote, true⟩, ⟨.symbol x, true⟩].map Expansion.form) =
        .symbol k.quote :: [.symbol x] := rfl
  rw [Eval.onStore_run, remake_eq hreplace, hquote]
  rfl

end

/-- The form `(quote x)` is compiled to a constant. -/
theorem compileForm_quoted (limit room : Nat) (ref : Ref) (x : Symbol) {t : Engine}
    (hquote : k.special? (.symbol k.quote) = some .quotation) (ht : t.NoMacros) :
    compileForm .first k limit (room + 1) (.list ref (.symbol k.quote) [.symbol x]) {} t =
      (.ok ((), (({} : Builder).push (.symbol x)).emit (.const 0)), t) := by
  have hshape : (Shape.quotation (.symbol x)).Of k (.symbol k.quote) [.symbol x] :=
    ⟨hquote, [], rfl⟩
  rw [compileForm_of_expand (expandWithin_of_noMacros Evaluator.fuel_first ht _),
    compileExpanded_list hshape]
  exact constant_eq_ok.2 ⟨by simp [Builder.constant, Builder.place, Builder.pushAt], rfl⟩

end

/-! ## Compiling after expanding -/

/-- The objects that the value is made of exist in the engine. -/
def Engine.Has (e : Engine) (v : Value) : Prop :=
  v.Alike e.existing v

/-- Expansion could as well be a pass of its own. Take macros that act as pure functions of forms,
and a function literal in which no call becomes a special form because its first item expands to the
symbol of one. It is compiled if it can be expanded and what it expands to is compiled where there
are no macros, and otherwise refused. The two closures then are the same but for the objects that
their constants are made of. -/
theorem expansion_is_a_pass (ev ev₀ : Evaluator) (state : Engine → Prop) (e e₀ : Engine) (f : Value)
    (hpure : PureMacros ev e state) (hfuel : 0 < ev.fuel) (hfuel₀ : 0 < ev₀.fuel)
    (hmacros : e₀.NoMacros)
    (hkeywords : (Keywords.intern e₀.store).1 = (Keywords.intern e.store).1)
    (hlimit : e₀.limits.maxCompileDepth = e.limits.maxCompileDepth) (hexists : e.Has f)
    (hfunction : ∃ ref others,
      f = .list ref (.symbol (Keywords.intern e.store).1.function) others)
    (hcalls : ∀ depth x, (expandForm ev depth f e).1 = .ok x → x.callsStay = true) :
    ((∃ c, (compileFunction ev f e).1 = .ok c) ↔ ∃ depth x, (expandForm ev depth f e).1 = .ok x ∧
      ∃ c, (compileFunction ev₀ x.form e₀).1 = .ok c) ∧
    ∀ depth x c c₀, (expandForm ev depth f e).1 = .ok x → (compileFunction ev f e).1 = .ok c →
      (compileFunction ev₀ x.form e₀).1 = .ok c₀ →
        c.name = c₀.name ∧ c.code = c₀.code ∧ c.positional = c₀.positional ∧
        c.variadic = c₀.variadic ∧
        List.Forall₂ (Value.Alike .any) c.constants.toList c₀.constants.toList := by
  obtain ⟨ref, others, rfl⟩ := hfunction
  have hothers : List.Forall₂ (Value.Alike e.existing) others others := by
    cases hexists with
    | list _ _ hothers => exact hothers
  generalize hk : Keywords.intern e.store = interned at hkeywords hcalls
  obtain ⟨k, store⟩ := interned
  -- from any expansion there is, at whatever depth
  have hboth : ∀ depth x, (expandForm ev depth _ e).1 = .ok x → _ := fun depth x hx =>
    compileFunction_expanded hk hpure hfuel hothers hfuel₀ hmacros hkeywords hlimit
      (Prod.ext hx rfl) (hcalls depth x hx)
  refine ⟨⟨fun ⟨c, hc⟩ => ?_, fun ⟨depth, x, hx, c₀, hc₀⟩ => ?_⟩, fun depth x c c₀ hx hc hc₀ => ?_⟩
  -- if it compiles, it can be expanded as deep as the compiler went
  · obtain ⟨x, t, hx⟩ := expandForm_of_compiled hk hpure hfuel hothers (Prod.ext hc rfl)
    have hx := congrArg Prod.fst hx
    obtain ⟨stop, stop', hrefused, -⟩ | ⟨_, c₀, -, hc₀, -⟩ := hboth _ x hx
    · cases hc.symm.trans hrefused
    · exact ⟨_, x, hx, c₀, hc₀⟩
  · obtain ⟨stop, stop', -, hrefused⟩ | ⟨c, _, hc, -, -⟩ := hboth depth x hx
    · cases hc₀.symm.trans hrefused
    · exact ⟨c, hc⟩
  · obtain ⟨stop, stop', hrefused, -⟩ | ⟨_, _, hc', hc₀', halike⟩ := hboth depth x hx
    · cases hc.symm.trans hrefused
    · cases hc.symm.trans hc'
      cases hc₀.symm.trans hc₀'
      cases halike with
      | closure _ hname hcode hpositional hvariadic hconstants =>
        exact ⟨hname, hcode, hpositional, hvariadic, hconstants⟩

/-- The function `(fn () (m ()))` becomes `(fn () ())`. -/
theorem expansion_is_a_pass_first : ∃ (f : Value) (c c₀ : Closure) (depth : Nat) (x : Expansion),
    let e := Engine.withMacro ⟨6, "m"⟩
    (compileFunction .first f e).1 = .ok c ∧ (expandForm .first depth f e).1 = .ok x ∧
      (compileFunction .first x.form { (default : Engine) with store := e.store }).1 = .ok c₀ ∧
        c.code = c₀.code := by
  obtain ⟨e, he⟩ : ∃ e, e = Engine.withMacro ⟨6, "m"⟩ := ⟨_, rfl⟩
  obtain ⟨⟨k, store⟩, hk⟩ : ∃ interned, Keywords.intern e.store = interned := ⟨_, rfl⟩
  have hm : k.isSpecial ⟨6, "m"⟩ = false := by
    have hnamed : e.store.symbols.Named := by rw [he]; exact SymbolTable.Made.empty.named
    have hnot := Keywords.isSpecial_of_name hnamed ⟨6, "m"⟩ (by decide)
    rwa [hk] at hnot
  have hexpand : expandWithin .first k 2 (.list 1 (.symbol ⟨6, "m"⟩) [.nil]) { e with store } =
      (.ok .nil, { e with store }) := by
    rw [he]
    exact expandWithin_withMacro hm store 1 trivial nofun
  have hcompile : ∃ c, (compileFunction .first (.list 2 (.symbol k.function)
      [.nil, .list 1 (.symbol ⟨6, "m"⟩) [.nil]]) e).1 = .ok c ∧ c.code = #[1, 8, 0, 3] := by
    have hroom : e.limits.maxCompileDepth = 255 + 1 := by rw [he]; rfl
    refine compileFunction_thunk 2 (b := (({} : Builder).push .nil).emit (.const 0))
      (t := { e with store }) hk ?_ rfl
    rw [hroom, compileForm_of_expand hexpand]
    refine constant_eq_ok.2 ⟨?_, rfl⟩
    simp [Builder.constant, Builder.place, Builder.pushAt]
  have hnone : ({ (default : Engine) with store := e.store } : Engine).NoMacros := by
    intro s c h
    cases (Globals.get?_empty s).symm.trans h
  have hexists : e.Has (.list 2 (.symbol (Keywords.intern e.store).1.function)
      [.nil, .list 1 (.symbol ⟨6, "m"⟩) [.nil]]) := by
    rw [he]
    exact .list ⟨rfl, by decide⟩ (.symbol _)
      (.cons .nil (.cons (.list ⟨rfl, by decide⟩ (.symbol _) (.cons .nil .nil)) .nil))
  have hcalls : ∀ depth x, (expandForm .first depth (.list 2 (.symbol k.function)
      [.nil, .list 1 (.symbol ⟨6, "m"⟩) [.nil]]) e).1 = .ok x → x.callsStay = true := by
    intro depth x hx
    -- two levels are needed, one for the function and one for its form
    rcases depth with _ | _ | depth
    · cases (expandForm_zero hk _).symm.trans hx
    · cases (expandForm_thunk 2 hk Evaluator.fuel_first 0 _).symm.trans hx
    · have hexpanded := expandForm_thunk 2 hk Evaluator.fuel_first (depth + 1)
        (.list 1 (.symbol ⟨6, "m"⟩) [.nil])
      rw [expandAll_of_atom hexpand trivial] at hexpanded
      cases hexpanded.symm.trans hx
      rfl
  have hmain := expansion_is_a_pass .first .first _ e _ _ (pureMacros_first e)
    Evaluator.fuel_first Evaluator.fuel_first hnone rfl (by rw [he]; rfl) hexists ⟨_, _, rfl⟩
    (by rw [hk]; exact hcalls)
  rw [hk] at hmain
  obtain ⟨c, hc, -⟩ := hcompile
  obtain ⟨depth, x, hx, c₀, hc₀⟩ := hmain.1.1 ⟨c, hc⟩
  obtain ⟨-, hcode, -⟩ := hmain.2 depth x c c₀ hx hc hc₀
  subst he
  exact ⟨_, c, c₀, depth, x, hc, hx, hc₀, hcode⟩

/-- The function `(fn () ((m quote) x))` calls the value of `quote`, but its expansion, which is
`(fn () (quote x))`, has a quotation there. -/
theorem expansion_of_callee_to_keyword : ∃ (f : Value) (x : Expansion) (c c₀ : Closure),
    let e := Engine.withMacro ⟨6, "m"⟩
    let e₀ : Engine := { (default : Engine) with store := e.store }
    PureMacros .first e (fun t => t.globals = e.globals ∧ t.macros = e.macros) ∧
      0 < Evaluator.first.fuel ∧ e₀.NoMacros ∧
      (Keywords.intern e₀.store).1 = (Keywords.intern e.store).1 ∧
      e₀.limits.maxCompileDepth = e.limits.maxCompileDepth ∧ e.Has f ∧
      (∃ ref others, f = .list ref (.symbol (Keywords.intern e.store).1.function) others) ∧
      (∃ depth, (expandForm .first depth f e).1 = .ok x) ∧
      (compileFunction .first f e).1 = .ok c ∧ (compileFunction .first x.form e₀).1 = .ok c₀ ∧
      c.code = #[2, 8, 0, 10, 8, 1, 10, 4, 1, 3] ∧ c₀.code = #[1, 8, 0, 3] := by
  obtain ⟨⟨k, store⟩, hk⟩ :
      ∃ interned, Keywords.intern (Engine.withMacro ⟨6, "m"⟩).store = interned := ⟨_, rfl⟩
  have hnamed : (Engine.withMacro ⟨6, "m"⟩).store.symbols.Named := SymbolTable.Made.empty.named
  have hm : k.isSpecial ⟨6, "m"⟩ = false := by
    have hnot := Keywords.isSpecial_of_name hnamed ⟨6, "m"⟩ (by decide)
    rwa [hk] at hnot
  obtain ⟨hfunction, hquote, -⟩ := Keywords.names_intern hnamed
  rw [hk] at hfunction hquote
  have hx : (⟨7, "x"⟩ : Symbol) ≠ k.quote := fun h => absurd (h ▸ hquote) (by decide)
  have hspecial : k.special? (.symbol k.quote) = some .quotation := by
    have hne : k.quote ≠ k.function := fun h => absurd (h ▸ hquote) (by rw [hfunction]; decide)
    simp [Keywords.special?, hne]
  have hnone : ∀ store : Store, ({ (default : Engine) with store } : Engine).NoMacros := by
    intro store s c h
    cases (Globals.get?_empty s).symm.trans h
  have hk₀ : Keywords.intern ({ (default : Engine) with
      store := (Engine.withMacro ⟨6, "m"⟩).store } : Engine).store = (k, store) := hk
  obtain ⟨c, hc, hcode⟩ := compileFunction_thunk 3 hk
    (compileForm_callOfQuote hm 256 254 store hx) rfl
  obtain ⟨c₀, hc₀, hcode₀⟩ := compileFunction_thunk (store.nextRef + 1) hk₀
    (compileForm_quoted 256 255 store.nextRef ⟨7, "x"⟩ hspecial (hnone store)) rfl
  have hexpand := expandForm_thunk 3 hk Evaluator.fuel_first 2
    (callOfQuote k ⟨6, "m"⟩ ⟨7, "x"⟩)
  rw [expandAll_callOfQuote hm 0 store hspecial] at hexpand
  refine ⟨_, _, c, c₀, pureMacros_first _, Evaluator.fuel_first, hnone _, rfl, rfl, ?_,
    ⟨3, _, by rw [hk]⟩, ⟨3, hexpand⟩, hc, hc₀, hcode, hcode₀⟩
  exact .list ⟨rfl, by decide⟩ (.symbol _) (.cons .nil (.cons (.list ⟨rfl, by decide⟩
    (.list ⟨rfl, by decide⟩ (.symbol _) (.cons (.symbol _) .nil)) (.cons (.symbol _) .nil)) .nil))

end StackLisp

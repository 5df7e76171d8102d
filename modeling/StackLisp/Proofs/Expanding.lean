import StackLisp.Proofs.Alike

/-!
# Expanding everything in a form

The compiler expands each form right before it compiles it. `Compiler.expandAll` expands a form and
all forms in it that are evaluated, and compiles nothing. A list is made anew for each list in the
form, with expansions in the place of the items that are evaluated.

- `Keywords.evaluatedItems`, `Keywords.replaceEvaluated`: which items of a list are evaluated;
- `Compiler.function_cases`: whether a list is a function literal does not depend on its body;
- `StaysMalformed`: nor does it help a malformed list to expand what is evaluated of it.
-/

namespace StackLisp

/-! ## Expanding everything -/

/-- A form in which everything is expanded. -/
structure Expansion where
  form : Value
  /-- Every list made anew is the special form that it was, or still a call if it was one. The first
  item of a call is evaluated too, so it can become the symbol of a special form. -/
  callsStay : Bool

namespace Keywords

/-- Which items of a list are evaluated: how many stand before them, and how many there are at
most. -/
def evaluated (k : Keywords) (head : Value) (others : List Value) : Nat × Nat :=
  match k.special? head with
  -- the parameters come second, or third after a name
  | some .function => (if (others.head?.bind Value.symbol?).isSome then 3 else 2, others.length)
  | some .quotation => (0, 0)
  | some .conditional => (1, 3)
  | some (.assignment _) => (2, 1)
  | none => (0, others.length + 1)

/-- The items of a list that are evaluated. -/
def evaluatedItems (k : Keywords) (head : Value) (others : List Value) : List Value :=
  let (skipped, count) := k.evaluated head others
  ((head :: others).drop skipped).take count

/-- The items of a list, with others in the place of those that are evaluated. -/
def replaceEvaluated (k : Keywords) (head : Value) (others us : List Value) : List Value :=
  let (skipped, count) := k.evaluated head others
  (head :: others).take skipped ++ us ++ (head :: others).drop (skipped + count)

end Keywords

namespace Compiler

/-- Expand forms in order. -/
def expandEach (expand : Value → Eval Expansion) : List Value → Eval (List Expansion)
  | [] => return []
  | v :: vs => do
    let x ← expand v
    let xs ← expandEach expand vs
    return x :: xs

/-- Make a list anew from items of which some were expanded. -/
def remake (k : Keywords) (head : Value) (others : List Value) (xs : List Expansion)
    (store : Store) : Expansion × Store :=
  let items := k.replaceEvaluated head others (xs.map Expansion.form)
  let (form, store) := store.list items
  (⟨form, xs.all Expansion.callsStay && items.head?.bind k.special? = k.special? head⟩, store)

/-- Expand the items of a list that are evaluated. -/
def expandItems (expand : Value → Eval Expansion) (k : Keywords) (head : Value)
    (others : List Value) : Eval Expansion := do
  let xs ← expandEach expand (k.evaluatedItems head others)
  Eval.onStore (remake k head others xs)

/-- Expand a form, and then all forms in it that are evaluated. Forms nest at most this deep. -/
def expandAll (ev : Evaluator) (k : Keywords) : (depth : Nat) → Value → Eval Expansion
  | 0, _ => throw .outOfFuel
  | depth + 1, v => do
    match ← expandWithin ev k ev.fuel v with
    | .list _ head others => expandItems (expandAll ev k depth) k head others
    | atom => return ⟨atom, true⟩

/-- Every list in the expansions is what it was. -/
def StaysAll (xs : List Expansion) : Prop :=
  ∀ x ∈ xs, x.callsStay = true

/-- Each form has one expansion. -/
theorem length_expandEach {expand : Value → Eval Expansion} {vs : List Value}
    {xs : List Expansion} {e e' : Engine} (h : expandEach expand vs e = (.ok xs, e')) :
    xs.length = vs.length := by
  induction vs generalizing xs e with
  | nil =>
    cases h
    rfl
  | cons v vs ih =>
    obtain ⟨x, e₁, -, h⟩ := Eval.bind_eq_ok.1 h
    obtain ⟨others, e₂, hothers, h⟩ := Eval.bind_eq_ok.1 h
    cases h
    rw [List.length_cons, List.length_cons, ih hothers]

end Compiler

variable {ρ : Matching} {k : Keywords}

/-! ## Reading alike lists -/

/-- What is alike is alike the other way round. -/
theorem Value.Alike.flip {v w : Value} (h : v.Alike ρ w) : w.Alike (fun a b => ρ b a) v := by
  -- the second motive is about the items of lists and the constants of closures
  refine @Value.Alike.rec ρ (fun v w _ => w.Alike (fun a b => ρ b a) v)
    (fun vs ws _ => List.Forall₂ (Alike fun a b => ρ b a) ws vs) ?_ ?_ ?_ ?_ ?_ ?_ ?_ ?_ ?_ ?_ v w h
  · exact .number
  · exact .symbol
  · exact .boolean
  · exact fun text href => .string text href
  · exact .nil
  · exact fun href _ _ hfirst hothers => .list href hfirst hothers
  · exact fun function href => .intrinsic function href
  · exact fun href hname hcode hpositional hvariadic _ hconstants =>
      .closure href hname.symm hcode.symm hpositional.symm hvariadic.symm hconstants
  · exact .nil
  · exact fun _ _ hv hvs => .cons hv hvs

/-- A head and one alike to it mark the same special form, as both are the same symbol or none. -/
theorem Value.Alike.special?_eq {v v' : Value} (h : v.Alike ρ v') :
    k.special? v = k.special? v' := by
  cases h <;> rfl

theorem Value.Alike.symbol?_eq {v v' : Value} (h : v.Alike ρ v') : v.symbol? = v'.symbol? := by
  cases h <;> rfl

/-- Symbols are alike to themselves only. -/
theorem Value.Alike.symbols_eq {symbols : List Symbol} {vs : List Value}
    (h : List.Forall₂ (Value.Alike ρ) (symbols.map .symbol) vs) : vs = symbols.map .symbol := by
  induction symbols generalizing vs with
  | nil => exact List.forall₂_nil_left_iff.1 h
  | cons s symbols ih =>
    obtain ⟨v, others, hv, hothers, rfl⟩ := List.forall₂_cons_left_iff.1 h
    cases hv
    rw [ih hothers, List.map_cons]

/-- The value is a list that names the parameters. -/
def Parameters.NamedBy (parameters : Parameters) (k : Keywords) (listed : Value) : Prop :=
  ∃ names, listed.items? = some names ∧ parameters.Named k.rest names

/-- The items of a list that names parameters are symbols, and those are the same in both runs. -/
theorem Parameters.NamedBy.alike {parameters : Parameters} {listed listed' : Value}
    (h : parameters.NamedBy k listed) (halike : listed.Alike ρ listed') :
    parameters.NamedBy k listed' := by
  obtain ⟨names, hitems, hnamed⟩ := h
  obtain ⟨symbols, rfl⟩ : ∃ symbols : List Symbol, names = symbols.map .symbol := by
    cases hnamed with
    | plain symbols _ => exact ⟨symbols, rfl⟩
    | collecting symbols _ last => exact ⟨symbols ++ [k.rest, last], by simp⟩
  refine ⟨_, ?_, hnamed⟩
  -- a list that is alike has items alike to symbols, and those are the same symbols
  cases halike with
  | nil => exact hitems
  | list _ hfirst hothers =>
    obtain heq := Option.some.inj hitems
    exact congrArg some (Value.Alike.symbols_eq (heq ▸ List.Forall₂.cons hfirst hothers))
  | _ => cases hitems

/-- A symbol does not name parameters. -/
theorem Parameters.not_namedBy_symbol {parameters : Parameters} {s : Symbol} :
    ¬ parameters.NamedBy k (.symbol s) := by
  rintro ⟨names, hitems, -⟩
  cases hitems

/-- The items behind the head of a function literal. -/
def FunctionLiteral.items (name : Option Symbol) (listed : Value) (body : List Value) :
    List Value :=
  (name.map .symbol).toList ++ listed :: body

namespace Keywords

variable {head listed : Value} (name : Option Symbol) {body : List Value}

/-- Nothing changes if the items that are evaluated stay. -/
theorem replaceEvaluated_evaluatedItems (k : Keywords) (head : Value) (others : List Value) :
    k.replaceEvaluated head others (k.evaluatedItems head others) = head :: others := by
  simp only [replaceEvaluated, evaluatedItems]
  -- what comes before, what is evaluated, and what comes behind
  rw [← List.drop_drop, List.append_assoc, List.take_append_drop, List.take_append_drop]

/-- Of a function literal everything behind the parameters is evaluated. -/
theorem evaluated_function (hhead : k.special? head = some .function)
    (hname : name = none → listed.symbol? = none) :
    k.evaluated head (FunctionLiteral.items name listed body) =
      ((head :: name.toList.map .symbol).length + 1,
        (FunctionLiteral.items name listed body).length) := by
  cases name with
  | none =>
    have hsymbol : (FunctionLiteral.items none listed body).head?.bind Value.symbol? = none :=
      hname rfl
    simp only [evaluated, hhead, hsymbol]
    rfl
  | some s =>
    simp only [evaluated, hhead]
    rfl

/-- The body is evaluated. -/
theorem evaluatedItems_function (hhead : k.special? head = some .function)
    (hname : name = none → listed.symbol? = none) :
    k.evaluatedItems head (FunctionLiteral.items name listed body) = body := by
  rw [evaluatedItems, evaluated_function name hhead hname]
  cases name with
  | none => exact List.take_of_length_le (Nat.le_succ body.length)
  | some s => exact List.take_of_length_le (Nat.le_add_right body.length 2)

/-- A function literal keeps its name and its parameters. -/
theorem replaceEvaluated_function (hhead : k.special? head = some .function)
    (hname : name = none → listed.symbol? = none) (us : List Value) :
    k.replaceEvaluated head (FunctionLiteral.items name listed body) us =
      head :: FunctionLiteral.items name listed us := by
  rw [replaceEvaluated, evaluated_function name hhead hname]
  dsimp only
  -- nothing stands behind the body
  rw [List.drop_eq_nil_of_le (by rw [List.length_cons, List.length_cons]; omega), List.append_nil]
  cases name <;> rfl

theorem evaluatedItems_conditional {others : List Value}
    (hhead : k.special? head = some .conditional) :
    k.evaluatedItems head others = others.take 3 := by
  simp [evaluatedItems, evaluated, hhead]

theorem replaceEvaluated_conditional {others : List Value}
    (hhead : k.special? head = some .conditional) (us : List Value) :
    k.replaceEvaluated head others us = head :: (us ++ others.drop 3) := by
  simp [replaceEvaluated, evaluated, hhead]

theorem evaluatedItems_assignment {way : Assignment} {others : List Value}
    (hhead : k.special? head = some (.assignment way)) :
    k.evaluatedItems head others = (others.drop 1).take 1 := by
  simp [evaluatedItems, evaluated, hhead]

theorem replaceEvaluated_assignment {way : Assignment} {others : List Value}
    (hhead : k.special? head = some (.assignment way)) (us : List Value) :
    k.replaceEvaluated head others us = head :: (others.take 1 ++ us ++ others.drop 2) := by
  simp [replaceEvaluated, evaluated, hhead]

end Keywords

/-- A list is a function literal when one of its items names the parameters. -/
theorem Shape.of_function {head : Value} {others : List Value} {shape : Shape}
    (hhead : k.special? head = some .function) (h : shape.Of k head others) :
    ∃ name listed body parameters, others = FunctionLiteral.items name listed body ∧
      Parameters.NamedBy parameters k listed := by
  cases shape with
  | function literal =>
    obtain ⟨-, listed, names, hothers, hitems, hnamed⟩ := h
    exact ⟨literal.name, listed, literal.body, literal.parameters, hothers, names, hitems, hnamed⟩
  | quotation | conditional | assignment | call =>
    rw [Shape.Of, hhead] at h
    exact absurd h.1 nofun

theorem Shape.of_quotation {head : Value} {others : List Value} {shape : Shape}
    (hhead : k.special? head = some .quotation) (h : shape.Of k head others) :
    ∃ v extra, others = v :: extra := by
  cases shape with
  | quotation v => exact ⟨v, h.2⟩
  | function | conditional | assignment | call =>
    rw [Shape.Of, hhead] at h
    exact absurd h.1 nofun

theorem Shape.of_conditional {head : Value} {others : List Value} {shape : Shape}
    (hhead : k.special? head = some .conditional) (h : shape.Of k head others) :
    ∃ test consequent extra, others = test :: consequent :: extra := by
  cases shape with
  | conditional test consequent alternative =>
    obtain ⟨-, extra, hothers, -⟩ := h
    exact ⟨test, consequent, extra, hothers⟩
  | function | quotation | assignment | call =>
    rw [Shape.Of, hhead] at h
    exact absurd h.1 nofun

theorem Shape.of_assignment {head : Value} {others : List Value} {way : Assignment} {shape : Shape}
    (hhead : k.special? head = some (.assignment way)) (h : shape.Of k head others) :
    ∃ target value extra, others = .symbol target :: value :: extra := by
  cases shape with
  | assignment way target value => exact ⟨target, value, h.2⟩
  | function | quotation | conditional | call =>
    rw [Shape.Of, hhead] at h
    exact absurd h.1 nofun

/-- Behind the name, or behind the head if there is no name, the parameters are named. -/
theorem Shape.of_function_items {head listed : Value} {name : Option Symbol} {body : List Value}
    {shape : Shape} (hhead : k.special? head = some .function)
    (hname : name = none → listed.symbol? = none)
    (h : shape.Of k head (FunctionLiteral.items name listed body)) :
    ∃ parameters, Parameters.NamedBy parameters k listed := by
  obtain ⟨name', listed', body', parameters, hitems, hnamed⟩ := Shape.of_function hhead h
  -- both readings agree on what is a name, as no symbol names parameters
  cases name with
  | none =>
    cases name' with
    | none =>
      obtain ⟨rfl, -⟩ := List.cons.inj hitems
      exact ⟨parameters, hnamed⟩
    | some s =>
      obtain ⟨rfl, -⟩ := List.cons.inj hitems
      cases hname rfl
  | some s =>
    cases name' with
    | none =>
      obtain ⟨rfl, -⟩ := List.cons.inj hitems
      exact absurd hnamed Parameters.not_namedBy_symbol
    | some s' =>
      obtain ⟨-, hitems⟩ := List.cons.inj hitems
      obtain ⟨rfl, -⟩ := List.cons.inj hitems
      exact ⟨parameters, hnamed⟩

/-- The list is malformed, whatever the forms in it that are evaluated become. -/
def StaysMalformed (k : Keywords) (head : Value) (others : List Value) : Prop :=
  ∀ us first rest, us.length = (k.evaluatedItems head others).length →
    k.replaceEvaluated head others us = first :: rest → k.special? first = k.special? head →
      ∀ shape : Shape, ¬ shape.Of k first rest

/-- A malformed list in which nothing is evaluated stays as it is. -/
theorem StaysMalformed.of_nothing {head : Value} {others : List Value}
    (hitems : k.evaluatedItems head others = [])
    (h : ∀ shape : Shape, ¬ shape.Of k head others) : StaysMalformed k head others := by
  intro us first rest hus hreplace _ shape
  rw [hitems] at hus
  have hsame := k.replaceEvaluated_evaluatedItems head others
  rw [hitems, ← List.length_eq_zero_iff.1 hus, hreplace] at hsame
  obtain ⟨rfl, rfl⟩ := List.cons.inj hsame
  exact h shape

/-- A list too short for a conditional is as short when its items are expanded. -/
theorem StaysMalformed.of_conditional {head : Value} {others : List Value}
    (hhead : k.special? head = some .conditional) (hfew : others.length < 2) :
    StaysMalformed k head others := by
  intro us first rest hus hreplace _ shape h
  rw [Keywords.evaluatedItems_conditional hhead, List.length_take] at hus
  rw [Keywords.replaceEvaluated_conditional hhead] at hreplace
  obtain ⟨rfl, rfl⟩ := List.cons.inj hreplace
  obtain ⟨test, consequent, extra, hrest⟩ := Shape.of_conditional hhead h
  have hlength := congrArg List.length hrest
  rw [List.length_append, List.length_drop, List.length_cons, List.length_cons] at hlength
  omega

/-- A name that is no symbol does not become one, as it is not evaluated. -/
theorem StaysMalformed.of_assignment {head : Value} {others : List Value} {way : Assignment}
    (hhead : k.special? head = some (.assignment way))
    (hnot : ∀ target value extra, others ≠ .symbol target :: value :: extra) :
    StaysMalformed k head others := by
  intro us first rest hus hreplace _ shape h
  rw [Keywords.evaluatedItems_assignment hhead] at hus
  rw [Keywords.replaceEvaluated_assignment hhead] at hreplace
  obtain ⟨rfl, rfl⟩ := List.cons.inj hreplace
  obtain ⟨target, value, extra, hrest⟩ := Shape.of_assignment hhead h
  match others with
  | [] | [_] =>
    obtain rfl := List.length_eq_zero_iff.1 hus
    cases hrest
  | v :: value' :: extra' =>
    obtain ⟨rfl, -⟩ := List.cons.inj hrest
    exact hnot target value' extra' rfl

namespace Compiler

/-- The list is a function literal, and one like it is one with any body. -/
def LiteralWith (ρ : Matching) (k : Keywords) (head head' : Value) (others others' : List Value)
    (literal : FunctionLiteral) : Prop :=
  (Shape.function literal).Of k head others ∧
    List.Forall₂ (Value.Alike ρ) literal.body (k.evaluatedItems head' others') ∧
      ∀ us, ∃ rest, k.replaceEvaluated head' others' us = head' :: rest ∧
        (Shape.function { literal with body := us }).Of k head' rest

/-- Behind the head stands a name or none, then the parameters; the rest is evaluated. -/
theorem function_items_cases {head head' listed listed' : Value} (name : Option Symbol)
    {body body' : List Value} (hhead : k.special? head = some .function)
    (hhead' : k.special? head' = some .function) (hname : name = none → listed.symbol? = none)
    (hlisted : listed.Alike ρ listed') (hbody : List.Forall₂ (Value.Alike ρ) body body') :
    (∃ literal, LiteralWith ρ k head head' (FunctionLiteral.items name listed body)
      (FunctionLiteral.items name listed' body') literal) ∨
    (∀ shape : Shape, ¬ shape.Of k head (FunctionLiteral.items name listed body)) ∧
      StaysMalformed k head' (FunctionLiteral.items name listed' body') := by
  have hname' : name = none → listed'.symbol? = none := fun h => hlisted.symbol?_eq ▸ hname h
  by_cases hnamed : ∃ parameters, Parameters.NamedBy parameters k listed
  · obtain ⟨parameters, hnamed⟩ := hnamed
    obtain ⟨names, hitems, hparameters⟩ := hnamed
    obtain ⟨names', hitems', hparameters'⟩ :=
      Parameters.NamedBy.alike ⟨names, hitems, hparameters⟩ hlisted
    refine .inl ⟨⟨name, parameters, body⟩, ⟨hhead, listed, names, rfl, hitems, hparameters⟩, ?_,
      fun us => ⟨_, Keywords.replaceEvaluated_function name hhead' hname' us,
        hhead', listed', names', rfl, hitems', hparameters'⟩⟩
    rw [Keywords.evaluatedItems_function name hhead' hname']
    exact hbody
  · refine .inr ⟨fun shape h => hnamed (Shape.of_function_items hhead hname h), ?_⟩
    -- what is evaluated stands behind the item that names no parameters, on either side
    intro us first rest _ hreplace _ shape h
    rw [Keywords.replaceEvaluated_function name hhead' hname'] at hreplace
    obtain ⟨rfl, rfl⟩ := List.cons.inj hreplace
    obtain ⟨parameters, hnamed'⟩ := Shape.of_function_items hhead' hname' h
    exact hnamed ⟨parameters, hnamed'.alike hlisted.flip⟩

/-- Too few items have no list of parameters among them. -/
theorem function_short (name : Option Symbol) {head head' : Value}
    (hhead : k.special? head = some .function) (hhead' : k.special? head' = some .function) :
    (∀ shape : Shape, ¬ shape.Of k head (name.map .symbol).toList) ∧
      StaysMalformed k head' (name.map .symbol).toList := by
  have hshort : ∀ {first : Value} {shape : Shape}, k.special? first = some .function →
      ¬ shape.Of k first (name.map .symbol).toList := by
    intro first shape hfirst hshape
    obtain ⟨name', listed, body, parameters, hitems, hnamed⟩ := Shape.of_function hfirst hshape
    cases name with
    | none => cases name' <;> cases hitems
    | some s =>
      cases name' with
      | none =>
        obtain ⟨rfl, -⟩ := List.cons.inj hitems
        exact Parameters.not_namedBy_symbol hnamed
      | some s' => cases hitems
  refine ⟨fun shape => hshort hhead, .of_nothing ?_ fun shape => hshort hhead'⟩
  cases name <;> simp [Keywords.evaluatedItems, Keywords.evaluated, hhead', Value.symbol?]

/-- A function literal is one with any body. What is not is not, whatever is evaluated of it. -/
theorem function_cases {head head' : Value} {others others' : List Value}
    (hhead' : k.special? head' = some .function) (hlike : head.Alike ρ head')
    (h : List.Forall₂ (Value.Alike ρ) others others') :
    (∃ literal, LiteralWith ρ k head head' others others' literal) ∨
    (∀ shape : Shape, ¬ shape.Of k head others) ∧ StaysMalformed k head' others' := by
  have hhead : k.special? head = some .function := hlike.special?_eq.trans hhead'
  cases h with
  | nil => exact .inr (function_short none hhead hhead')
  | @cons v v' more more' hv hmore =>
    -- a symbol in front is the name, whether or not parameters follow
    cases hs : v.symbol? with
    | none => exact function_items_cases none hhead hhead' (fun _ => hs) hv hmore
    | some s =>
      obtain ⟨rfl, rfl⟩ : v = .symbol s ∧ v' = .symbol s := by
        cases hv with
        | symbol s' => exact ⟨congrArg _ (Option.some.inj hs), congrArg _ (Option.some.inj hs)⟩
        | _ => cases hs
      cases hmore with
      | nil => exact .inr (function_short (some s) hhead hhead')
      | cons hlisted hbody =>
        exact function_items_cases (some s) hhead hhead' nofun hlisted hbody

/-! ## Making lists anew -/

/-- The new list, and whether it still is what it was. -/
theorem remake_eq {head first : Value} {others rest : List Value} {xs : List Expansion}
    (h : k.replaceEvaluated head others (xs.map Expansion.form) = first :: rest) (store : Store) :
    remake k head others xs store =
      (⟨.list store.nextRef first rest,
        xs.all Expansion.callsStay && decide (k.special? first = k.special? head)⟩,
      { store with nextRef := store.nextRef + 1 }) := by
  simp only [remake, h]
  rfl

/-- Making a list anew only adds objects. -/
theorem nextRef_remake (head : Value) (others : List Value) (xs : List Expansion) (store : Store) :
    store.nextRef ≤ (remake k head others xs store).2.nextRef := by
  cases h : k.replaceEvaluated head others (xs.map Expansion.form) with
  | nil =>
    simp only [remake, h]
    exact Nat.le_refl _
  | cons first rest =>
    rw [remake_eq h]
    exact Nat.le_succ _

/-- A list that was made anew is what the forms in it are, if it is still the special form that it
was. -/
theorem callsStay_remake {head first : Value} {others rest : List Value} {xs : List Expansion}
    (h : k.replaceEvaluated head others (xs.map Expansion.form) = first :: rest) (store : Store) :
    (remake k head others xs store).1.callsStay = true ↔
      StaysAll xs ∧ k.special? first = k.special? head := by
  rw [remake_eq h, Bool.and_eq_true, List.all_eq_true, decide_eq_true_eq]
  rfl

/-- What is made of a list that stays malformed is malformed. -/
theorem remake_malformed {head : Value} {others : List Value} {expand : Value → Eval Expansion}
    {xs : List Expansion} {e e' : Engine} {store : Store} (h : StaysMalformed k head others)
    {special : Special} (hspecial : k.special? head = some special)
    (hrun : expandEach expand (k.evaluatedItems head others) e = (.ok xs, e'))
    (hcalls : (remake k head others xs store).1.callsStay = true) :
    ∃ ref first rest, (remake k head others xs store).1.form = .list ref first rest ∧
      ∀ shape : Shape, ¬ shape.Of k first rest := by
  cases hreplace : k.replaceEvaluated head others (xs.map Expansion.form) with
  | nil =>
    -- a list without items would not be the special form that it was
    simp only [remake, hreplace, Bool.and_eq_true, decide_eq_true_eq] at hcalls
    cases hcalls.2.trans hspecial
  | cons first rest =>
    obtain ⟨-, hfirst⟩ := (callsStay_remake hreplace _).1 hcalls
    have hlength : (xs.map Expansion.form).length = (k.evaluatedItems head others).length := by
      rw [List.length_map, length_expandEach hrun]
    refine ⟨store.nextRef, first, rest, ?_, h _ first rest hlength hreplace hfirst⟩
    rw [remake_eq hreplace]

end Compiler

end StackLisp

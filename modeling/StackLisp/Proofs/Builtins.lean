import StackLisp.Proofs.Agreement
import StackLisp.Proofs.Making

/-!
# Built-in functions at work

The built-in functions make proper values of proper values, fail only for reasons that are not the
machine's, and ask an evaluator only to call closures that may be called. So they do the same with
evaluators that agree.

- `Stock.proper`: proper values are a stock;
- `Intrinsic.agrees_call`: calls of intrinsic functions agree.
-/

namespace StackLisp

variable {α : Type} {n : Nat}

/-- The proper values. -/
def Stock.proper [Unbound] (n : Nat) : Stock where
  World := Unit
  order := PUnit.instLinearOrder.toPartialOrder.toPreorder
  value _ v := v.Proper n
  store _ _ := True
  value_mono _ h := h
  number _ x := .number x
  boolean _ b := .boolean b
  symbol _ s := .symbol s
  nil _ := .nil
  items h hitems := h.items hitems
  symbols _ _ := trivial
  string _ _ := ⟨(), le_rfl, trivial, .string _ _⟩
  list {_ s _ _} _ h := ⟨(), le_rfl, trivial, Store.proper_list s h⟩

section

open Eval

variable [Unbound] {κ : Leeway} {t : Engine} {X : Nat → Evaluator} {y : Evaluator}

theorem Fine.agrees {P : α → Prop} {r : Except Error α} (h : Fine P r) :
    Agrees κ t (fun _ => Eval.ofExcept r) (Eval.ofExcept r) fun a _ => P a := by
  refine .blind (.ofExcept r) (.ofExcept (fun a ha _ => ?_) fun error he => ?_)
  · rwa [ha] at h
  · rwa [he] at h

/-- What is made in a store, whatever the store, is made alike. -/
theorem agrees_make {P : α → Prop} {m : Make α} (h : ∀ store, Fine P (m.run store).1) :
    Agrees κ t (fun _ => Eval.make m) (Eval.make m) fun a _ => P a := by
  refine .blind (.make m) (.bind (Q := fun r _ => Fine P r) (.onStore fun _ => h _) ?_)
  rintro r e - - - hr
  refine .ofExcept (fun a ha _ => ?_) fun error he => ?_
  · rwa [ha] at hr
  · rwa [he] at hr

/-- Proper values stay so while nothing happens to the environments. -/
theorem Agrees.proper {F : Nat → Eval Value} {f : Eval Value}
    (h : Agrees κ t F f fun v _ => v.Proper t.envs.size) : Agrees κ t F f ProperResult :=
  h.mono fun _ _ hk hv => hv.mono hk.envs

/-- Values in stock are proper. -/
theorem Fine.agrees_proper {r : Except Error Value}
    (h : Fine ((Stock.proper t.envs.size).value ()) r) :
    Agrees κ t (fun _ => Eval.ofExcept r) (Eval.ofExcept r) ProperResult :=
  Agrees.proper h.agrees

theorem Stock.Makes.agrees {m : Make Value}
    (h : (Stock.proper t.envs.size).Makes () (Stock.proper t.envs.size).value m) :
    Agrees κ t (fun _ => Eval.make m) (Eval.make m) ProperResult := by
  refine Agrees.proper (agrees_make fun store => ?_)
  obtain ⟨_, -, -, hfine⟩ := h store trivial
  exact hfine

theorem agrees_makeMacro {args : List Value} (h : ∀ v ∈ args, v.Proper t.envs.size) :
    Agrees κ t (fun _ => Effect.makeMacro args) (Effect.makeMacro args) ProperResult := by
  refine .bind (fine_arity_one h).agrees fun v e _ hk _ hv => ?_
  refine .bind (fine_expectClosure v).agrees fun c e' _ hk' _ hc => ?_
  refine .bind (Q := AnyResult) (.blind (.modify fun _ _ _ _ _ => rfl) (.modify (.of_same_envs rfl)
    (fun hs => ⟨hs.globals, hs.bindings, hs.older, hs.hosts⟩) fun _ => trivial)) ?_
  exact fun _ e'' _ hk'' _ _ => .pure fun _ => hv.mono (hk.trans (hk'.trans hk'')).envs

theorem agrees_printLine {args : List Value} (h : ∀ v ∈ args, v.Proper t.envs.size) :
    Agrees κ t (fun _ => Effect.printLine args) (Effect.printLine args) ProperResult := by
  refine .bind (fine_arity_one h).agrees fun v e _ hk _ hv => ?_
  refine .bind (Q := AnyResult) (.blind (.modify fun _ _ _ _ _ => rfl) (.modify (.of_same_envs rfl)
    (fun hs => ⟨hs.globals, hs.bindings, hs.older, hs.hosts⟩) fun _ => trivial)) ?_
  exact fun _ _ _ _ _ _ => .pure fun _ => .nil

/-- Calls of a built-in function agree. -/
theorem Builtin.agrees_call (hev : Evaluator.Agree κ X y) (function : Builtin) {args : List Value}
    (h : ∀ v ∈ args, v.Proper t.envs.size) :
    Agrees κ t (fun i => function.call (X i) args) (function.call y args) ProperResult := by
  have hargs : ∀ v ∈ args, (Stock.proper t.envs.size).value () v := h
  cases function with
  | add => exact Fine.agrees_proper (Stock.fine_sum _ args)
  | subtract => exact Fine.agrees_proper (Stock.fine_difference _ args)
  | multiply => exact Fine.agrees_proper (Stock.fine_product _ args)
  | divide => exact Fine.agrees_proper (Stock.fine_quotient _ args)
  | less => exact Fine.agrees_proper (Stock.fine_compare _ _ _ args)
  | greater => exact Fine.agrees_proper (Stock.fine_compare _ _ _ args)
  | identical => exact Fine.agrees_proper (Stock.fine_areIdentical _ args)
  | equal => exact Fine.agrees_proper (Stock.fine_areEqual _ args)
  | cons => exact Stock.Makes.agrees (Stock.makes_cons hargs)
  | list => exact Stock.Makes.agrees (Stock.makes_makeList hargs)
  | listStar => exact Stock.Makes.agrees (Stock.makes_listStar hargs)
  | append => exact Stock.Makes.agrees (Stock.makes_append hargs)
  | concat => exact Stock.Makes.agrees (Stock.makes_concat hargs)
  | nth => exact Stock.Makes.agrees (Stock.makes_nth hargs)
  | rest => exact Stock.Makes.agrees (Stock.makes_rest hargs)
  | typeOf => exact Stock.Makes.agrees (Stock.makes_typeSymbol args)
  | intern => exact Stock.Makes.agrees (Stock.makes_internName args)
  | gensym => exact Stock.Makes.agrees (Stock.makes_freshSymbol args)
  | markMacro => exact agrees_makeMacro h
  | print => exact agrees_printLine h
  | load =>
    refine .bind (fine_arity_one h).agrees fun v e _ _ _ _ => ?_
    refine .bind (fine_expectText v).agrees fun path e' _ _ _ _ => ?_
    exact .bind (hev.loadFile e' path) fun _ _ _ _ _ _ => .pure fun _ => .nil

/-- What a call comes down to may be called. -/
def Target.Proper (n : Nat) : Target → Prop
  | .builtin _ args | .host _ _ args => ∀ v ∈ args, v.Proper n
  | .closure c args => c.Callable n ∧ ∀ v ∈ args, v.Proper n

theorem Target.Proper.mono {n m : Nat} (hnm : n ≤ m) {target : Target} (h : target.Proper n) :
    target.Proper m := by
  match target with
  | .builtin _ _ => exact fun v hv => (h v hv).mono hnm
  | .host _ _ _ => exact fun v hv => (h v hv).mono hnm
  | .closure _ _ => exact ⟨h.1.mono hnm, fun v hv => (h.2 v hv).mono hnm⟩

/-- Following applications leads to something that may be called. -/
theorem Target.fine_resolve_proper (function : Intrinsic) {args : List Value}
    (h : ∀ v ∈ args, v.Proper n) : Fine (Target.Proper n) (Target.resolve function args) := by
  refine (Target.fine_resolve (σ := .proper n) (w := ()) function h).mono fun target htarget => ?_
  cases target with
  | builtin _ _ => exact htarget
  | host _ _ _ => exact htarget
  | closure _ _ => exact ⟨Value.Proper.callable htarget.1, htarget.2⟩

/-- Calls of what an intrinsic function comes down to agree. -/
theorem Target.agrees_call (hev : Evaluator.Agree κ X y) {target : Target}
    (h : target.Proper t.envs.size) :
    Agrees κ t (fun i => target.call (X i)) (target.call y) ProperResult := by
  cases target with
  | builtin function args => exact Builtin.agrees_call hev function h
  | closure c args => exact hev.apply h.1 h.2
  | host name index args =>
    refine .reading (fun _ _ _ _ _ _ => rfl) ?_
    refine .of_sound fun hs _ => ?_
    cases hfound : t.hosts[index]? with
    | none => exact .fail (by trivial) _
    | some supplied =>
      have hbehaves := hs.hosts supplied (Array.mem_of_getElem? hfound)
      refine Agrees.proper (agrees_make fun store => ?_)
      have hfine := hbehaves t.envs.size args store h
      revert hfine
      rcases (supplied.call args).run store with ⟨_ | v, _⟩
      · exact id
      · exact id

/-- Calls of an intrinsic function agree. -/
theorem Intrinsic.agrees_call (hev : Evaluator.Agree κ X y) (function : Intrinsic)
    {args : List Value} (h : ∀ v ∈ args, v.Proper t.envs.size) :
    Agrees κ t (fun i => function.call (X i) args) (function.call y args) ProperResult :=
  .bind (Target.fine_resolve_proper function h).agrees fun _ _ _ hk _ ht =>
    Target.agrees_call hev (Target.Proper.mono hk.envs ht)

end

end StackLisp

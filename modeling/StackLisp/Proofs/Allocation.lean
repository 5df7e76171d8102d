import StackLisp.Proofs.Making
import StackLisp.Proofs.Objects
import StackLisp.Proofs.Computation

/-!
# What programs get hold of

All values in an engine are made of objects that programs can get hold of: known ones. Whatever
code does, it comes to new objects only by allocating them, so the known objects become more, but a
function inside one that is still being compiled stays out of reach.

- `Stock.known`: known values are a stock;
- `Engine.KnownIn`: all values in an engine are known;
- `Eval.Allocates`: a computation comes to new objects by allocation only, with rules for composing
  such computations;
- `Evaluator.Allocates`: so does what an evaluator does;
- `Intrinsic.allocates_call`: so do calls of intrinsic functions.
-/

namespace StackLisp

/-- The known values, as the objects that programs can get hold of become more. -/
def Stock.known : Stock where
  World := Objects
  value w v := v.KnownIn w
  store w s := w.Below s.nextRef
  value_mono hle h := h.mono hle
  number _ _ := Value.madeOf_number _
  boolean _ _ := Value.madeOf_boolean _
  symbol := Value.knownIn_symbol
  nil := Value.knownIn_nil
  items h hitems := h.items hitems
  symbols _ h := h
  string {_ s} text h := by
    obtain ⟨w', hle, hbelow, hmem⟩ := h.add (v := .string s.nextRef text) rfl
    exact ⟨w', hle, hbelow, Value.madeOf_string_iff.2 hmem⟩
  list h hitems := h.addList hitems

/-- The host function gives back known values only, once the objects are known that it was made
with. -/
def HostFunction.Allocates (function : HostFunction) (known : Set Value) : Prop :=
  ∀ ⦃w : Objects⦄, known ⊆ w.known → ∀ (args : List Value) (s : Store), (∀ v ∈ args, v.KnownIn w) →
    w.Below s.nextRef → ∃ w', w ≤ w' ∧ w'.Below ((function.call args).run s).2.nextRef ∧
      ∀ v, ((function.call args).run s).1 = .ok v → v.KnownIn w'

/-- All values on the stack are known. -/
def Stack.KnownIn (s : Stack) (w : Objects) : Prop :=
  ∀ (i : Nat) (v : Value), s.slots[i]? = some (.value v) → v.KnownIn w

/-- All values in the engine are known, and all objects were allocated before. -/
structure Engine.KnownIn (e : Engine) (w : Objects) : Prop where
  below : w.Below e.store.nextRef
  globals : ∀ {s v}, e.globals.get? s = some v → v.KnownIn w
  bindings : ∀ {env s v}, (e.envs.bindings env).get? s = some v → v.KnownIn w
  stack : e.stack.KnownIn w
  hosts : ∀ function ∈ e.hosts, function.Allocates w.known

variable {w w' : Objects}

namespace Engine

variable {e : Engine}

theorem KnownIn.withStore (h : e.KnownIn w) {store : Store} (hknown : w.known ⊆ w'.known)
    (hbelow : w'.Below store.nextRef) : KnownIn { e with store } w' where
  below := hbelow
  globals hv := Value.MadeOf.mono (h.globals hv) hknown
  bindings hv := Value.MadeOf.mono (h.bindings hv) hknown
  stack i v hv := Value.MadeOf.mono (h.stack i v hv) hknown
  hosts function hmem _ hsub := h.hosts function hmem (hknown.trans hsub)

/-- More objects may be known, as long as all were allocated before. -/
theorem KnownIn.mono (h : e.KnownIn w) (hknown : w.known ⊆ w'.known)
    (hbelow : w'.Below e.store.nextRef) : e.KnownIn w' :=
  h.withStore hknown hbelow

/-- Pointers, macros and output hold no values. -/
theorem KnownIn.congr (h : e.KnownIn w) {e' : Engine}
    (hsame : (e'.store, e'.globals, e'.envs, e'.stack, e'.hosts) =
      (e.store, e.globals, e.envs, e.stack, e.hosts)) : e'.KnownIn w := by
  simp only [Prod.mk.injEq] at hsame
  obtain ⟨hstore, hglobals, henvs, hstack, hhosts⟩ := hsame
  exact ⟨hstore ▸ h.below, fun hv => h.globals (hglobals ▸ hv), fun hv => h.bindings (henvs ▸ hv),
    hstack ▸ h.stack, hhosts ▸ h.hosts⟩

theorem KnownIn.define (h : e.KnownIn w) (s : Symbol) {v : Value} (hv : v.KnownIn w) :
    (e.define s v).KnownIn w where
  below := h.below
  globals := by
    intro s' v' hv'
    obtain rfl | hold := Globals.eq_or_of_get?_insert hv'
    · exact hv
    · exact h.globals hold
  bindings := h.bindings
  stack := h.stack
  hosts := h.hosts

/-- A look-up gives a known value. -/
theorem KnownIn.get? (h : e.KnownIn w) {env : EnvId} {s : Symbol} {v : Value}
    (hv : e.envs.get? env s = some v) : v.KnownIn w := by
  obtain ⟨⟨owner, _⟩, hr, rfl⟩ := Option.map_eq_some_iff.1 hv
  exact h.bindings (e.envs.get?_of_resolve env hr)

/-- The environments may change as long as what they bind is known. -/
theorem KnownIn.withEnvs (h : e.KnownIn w) {envs : Environments}
    (henvs : ∀ {env s v}, (envs.bindings env).get? s = some v → v.KnownIn w) :
    KnownIn { e with envs } w :=
  ⟨h.below, h.globals, henvs, h.stack, h.hosts⟩

theorem KnownIn.withStack (h : e.KnownIn w) {stack : Stack} (hstack : stack.KnownIn w) :
    KnownIn { e with stack } w :=
  ⟨h.below, h.globals, h.bindings, hstack, h.hosts⟩

theorem KnownIn.assign (h : e.KnownIn w) (env : EnvId) (s : Symbol) {v : Value} (hv : v.KnownIn w) :
    KnownIn { e with envs := (e.envs.assign env s v).2 } w := by
  unfold Environments.assign
  split
  · rename_i owner _ _
    refine h.withEnvs fun {env' s' v'} hv' => ?_
    obtain rfl | hold := Environments.eq_or_of_bindings_define hv'
    · exact hv
    · exact h.bindings hold
  · exact h

theorem KnownIn.create (h : e.KnownIn w) {bindings : Bindings} (next : Option EnvId)
    (hb : ∀ s v, bindings.get? s = some v → v.KnownIn w) :
    KnownIn { e with envs := (e.envs.create bindings next).2 } w := by
  refine h.withEnvs fun {env s v} hv => ?_
  rw [Environments.bindings_create] at hv
  split at hv
  · exact hb s v hv
  · exact h.bindings hv

end Engine

/-! ## Computations -/

/-- The result is a known value. -/
abbrev KnownResult (w : Objects) (v : Value) : Prop :=
  v.KnownIn w

/-- Nothing is known of the result. -/
def AnyOutcome {α : Type} (_ : Objects) (_ : α) : Prop :=
  True

namespace Eval

variable {α β : Type} {Q R : Objects → α → Prop} {x : Eval α}

/-- Where all is known, the computation comes to new objects by allocation only, and `Q` holds of
its result. -/
def Allocates (w : Objects) (x : Eval α) (Q : Objects → α → Prop) : Prop :=
  ∀ e, e.KnownIn w → ∃ w', w ≤ w' ∧ (x e).2.KnownIn w' ∧ ∀ a, (x e).1 = .ok a → Q w' a

namespace Allocates

theorem mono (h : Allocates w x Q) (hqr : ∀ w' a, w ≤ w' → Q w' a → R w' a) :
    Allocates w x R := by
  intro e he
  obtain ⟨w', hle, hknows, hq⟩ := h e he
  exact ⟨w', hle, hknows, fun a ha => hqr w' a hle (hq a ha)⟩

/-- Objects that were made on the way may come into reach. -/
theorem reveal (h : Allocates w x Q) (hqr : ∀ w' a, w ≤ w' → Q w' a → R (w.reveal w') a) :
    Allocates w x R := by
  intro e he
  obtain ⟨w', hle, hknows, hq⟩ := h e he
  exact ⟨w.reveal w', Objects.le_reveal hle, hknows.mono Set.subset_union_left hknows.below,
    fun a ha => hqr w' a hle (hq a ha)⟩

/-- What follows from the run that gave the result. -/
theorem strengthen (h : Allocates w x Q)
    (hqr : ∀ e e' w' a, x e = (.ok a, e') → w ≤ w' → Q w' a → R w' a) : Allocates w x R := by
  intro e he
  obtain ⟨w', hle, hknows, hq⟩ := h e he
  exact ⟨w', hle, hknows, fun a ha => hqr e _ w' a (Prod.ext ha rfl) hle (hq a ha)⟩

/-- What is known when the computation has given a value. -/
theorem of_ok (h : Allocates w x Q) {e e' : Engine} (he : e.KnownIn w) {a : α}
    (hrun : x e = (.ok a, e')) : ∃ w', w ≤ w' ∧ e'.KnownIn w' ∧ Q w' a := by
  obtain ⟨w', hle, hknows, hq⟩ := h e he
  rw [hrun] at hknows hq
  exact ⟨w', hle, hknows, hq a rfl⟩

/-- The computation allocates nothing. -/
theorem update {u : Engine → Engine} {r : Engine → Except Stop α}
    (hu : ∀ e, e.KnownIn w → (u e).KnownIn w) (hr : ∀ e, e.KnownIn w → ∀ a, r e = .ok a → Q w a) :
    Allocates w (fun e => (r e, u e)) Q :=
  fun e he => ⟨w, le_rfl, hu e he, hr e he⟩

theorem pure {a : α} (h : Q w a) : Allocates w (Pure.pure a) Q :=
  fun _ he => ⟨w, le_rfl, he, fun _ ha => Except.ok.inj ha ▸ h⟩

theorem throw (stop : Stop) : Allocates w (MonadExcept.throw stop) Q :=
  fun _ he => ⟨w, le_rfl, he, nofun⟩

theorem fail (error : Error) : Allocates w (Eval.fail error) Q :=
  .throw _

theorem ofExcept {r : Except Error α} (h : ∀ a, r = .ok a → Q w a) :
    Allocates w (Eval.ofExcept r) Q := by
  cases r with
  | ok a => exact .pure (h a rfl)
  | error error => exact .fail error

theorem any_ofExcept (r : Except Error α) : Allocates w (Eval.ofExcept r) AnyOutcome :=
  .ofExcept fun _ _ => trivial

theorem bind {P : Objects → β → Prop} {x : Eval β} {f : β → Eval α} (hx : Allocates w x P)
    (hf : ∀ w' b, w ≤ w' → P w' b → Allocates w' (f b) Q) : Allocates w (x >>= f) Q := by
  intro e he
  obtain ⟨w₁, hle, hknows, hp⟩ := hx e he
  rw [bind_run]
  revert hknows hp
  rcases x e with ⟨_ | b, e₁⟩
  · exact fun hknows _ => ⟨w₁, hle, hknows, nofun⟩
  · intro hknows hp
    obtain ⟨w₂, hle', hknows', hq⟩ := hf w₁ b hle (hp b rfl) e₁ hknows
    exact ⟨w₂, hle.trans hle', hknows', hq⟩

/-- Looking at the engine. -/
theorem reading {g : Engine → Eval α} (h : ∀ e, e.KnownIn w → Allocates w (g e) Q) :
    Allocates w (get >>= g) Q := by
  intro e he
  rw [bind_of_ok (get_run e)]
  exact h e he e he

theorem modify {f : Engine → Engine} (h : ∀ e, e.KnownIn w → (f e).KnownIn w) :
    Allocates w (modify f) AnyOutcome :=
  .update (r := fun _ => .ok ()) h fun _ _ _ _ => trivial

theorem onStore {f : Store → α × Store} (h : ∀ s, w.Below s.nextRef →
    ∃ w', w ≤ w' ∧ w'.Below (f s).2.nextRef ∧ Q w' (f s).1) : Allocates w (Eval.onStore f) Q := by
  intro e he
  obtain ⟨w', hle, hbelow, hq⟩ := h e.store he.below
  exact ⟨w', hle, he.withStore hle.known hbelow, fun _ ha => Except.ok.inj ha ▸ hq⟩

/-- Values that are made in the engine's store. -/
theorem make {m : Make α} (h : ∀ s, w.Below s.nextRef → ∃ w', w ≤ w' ∧
    w'.Below (m.run s).2.nextRef ∧ ∀ a, (m.run s).1 = .ok a → Q w' a) :
    Allocates w (Eval.make m) Q :=
  .bind (P := fun w' r => ∀ a, r = .ok a → Q w' a) (.onStore h) fun _ _ _ => .ofExcept

theorem onStack {f : Stack → Except Error α × Stack}
    (h : ∀ s, s.KnownIn w → (f s).2.KnownIn w ∧ ∀ a, (f s).1 = .ok a → Q w a) :
    Allocates w (Eval.onStack f) Q := by
  refine .bind (P := fun w' r => ∀ a, r = .ok a → Q w' a) ?_ fun _ _ _ => .ofExcept
  refine fun e he => ⟨w, le_rfl, he.withStack (h e.stack he.stack).1, ?_⟩
  rintro _ ⟨⟩
  exact (h e.stack he.stack).2

theorem fromStack {f : Stack → Except Error α}
    (h : ∀ s, s.KnownIn w → ∀ a, f s = .ok a → Q w a) : Allocates w (Eval.fromStack f) Q :=
  .reading fun e he => .ofExcept (h e.stack he.stack)

theorem any_fromStack (f : Stack → Except Error α) : Allocates w (Eval.fromStack f) AnyOutcome :=
  .fromStack fun _ _ _ _ => trivial

end Allocates

end Eval

/-! ## Evaluators -/

/-- What the evaluator does comes to new objects by allocation only. -/
structure Evaluator.Allocates (ev : Evaluator) : Prop where
  apply : ∀ {w : Objects} {c : Closure} {args : List Value}, (Value.closure c).KnownIn w →
    (∀ v ∈ args, v.KnownIn w) → (ev.apply c args).Allocates w KnownResult
  loadFile : ∀ (w : Objects) (path : String),
    (ev.loadFile path).Allocates w KnownResult

section

open Eval

variable {ev : Evaluator} {args : List Value}

theorem Stock.Makes.allocates {m : Make Value}
    (h : Stock.known.Makes w Stock.known.value m) :
    (Eval.make m).Allocates w KnownResult := by
  refine .make fun s hs => ?_
  obtain ⟨w', hle, hbelow, hfine⟩ := h s hs
  refine ⟨w', hle, hbelow, fun v hv => ?_⟩
  rw [hv] at hfine
  exact hfine

theorem Fine.allocates {r : Except Error Value} (h : Fine (Stock.known.value w) r) :
    (Eval.ofExcept r).Allocates w KnownResult :=
  .ofExcept fun v hv => by
    rw [hv] at h
    exact h

theorem Effect.allocates_makeMacro (h : ∀ v ∈ args, v.KnownIn w) :
    (Effect.makeMacro args).Allocates w KnownResult := by
  refine .bind (P := KnownResult) (.ofExcept fun v hv => ?_) fun w₁ v _ hv => ?_
  · have hfine : Fine (Value.KnownIn · w) (Arity.one "macro!" args) := fine_arity_one h
    rwa [hv] at hfine
  refine .bind (.any_ofExcept _) fun w₂ c hle _ => ?_
  refine .bind (.modify fun e he => he.congr rfl) ?_
  exact fun w₃ _ hle' _ => .pure (hv.mono (hle.trans hle'))

theorem Effect.allocates_printLine (args : List Value) :
    (Effect.printLine args).Allocates w KnownResult := by
  refine .bind (.any_ofExcept _) fun w₁ v _ _ => ?_
  refine .bind (.modify fun e he => he.congr rfl) ?_
  exact fun _ _ _ _ => .pure Value.madeOf_nil

theorem Effect.allocates_loadNamed (hev : ev.Allocates) (args : List Value) :
    (Effect.loadNamed ev args).Allocates w KnownResult := by
  refine .bind (.any_ofExcept _) fun w₁ v _ _ => ?_
  refine .bind (.any_ofExcept _) fun w₂ path _ _ => ?_
  exact .bind (hev.loadFile w₂ path) fun _ _ _ _ => .pure Value.madeOf_nil

/-- A built-in function that is called with known arguments gives a known value. -/
theorem Builtin.allocates_call (hev : ev.Allocates) (function : Builtin)
    (h : ∀ v ∈ args, v.KnownIn w) :
    (function.call ev args).Allocates w KnownResult := by
  have hargs : ∀ v ∈ args, Stock.known.value w v := h
  -- most of them only take values apart and put values together
  cases function with
  | add => exact Fine.allocates (Stock.fine_sum _ args)
  | subtract => exact Fine.allocates (Stock.fine_difference _ args)
  | multiply => exact Fine.allocates (Stock.fine_product _ args)
  | divide => exact Fine.allocates (Stock.fine_quotient _ args)
  | less => exact Fine.allocates (Stock.fine_compare _ _ _ args)
  | greater => exact Fine.allocates (Stock.fine_compare _ _ _ args)
  | identical => exact Fine.allocates (Stock.fine_areIdentical _ args)
  | equal => exact Fine.allocates (Stock.fine_areEqual _ args)
  | cons => exact Stock.Makes.allocates (Stock.makes_cons hargs)
  | list => exact Stock.Makes.allocates (Stock.makes_makeList hargs)
  | listStar => exact Stock.Makes.allocates (Stock.makes_listStar hargs)
  | append => exact Stock.Makes.allocates (Stock.makes_append hargs)
  | concat => exact Stock.Makes.allocates (Stock.makes_concat hargs)
  | nth => exact Stock.Makes.allocates (Stock.makes_nth hargs)
  | rest => exact Stock.Makes.allocates (Stock.makes_rest hargs)
  | typeOf => exact Stock.Makes.allocates (Stock.makes_typeSymbol args)
  | intern => exact Stock.Makes.allocates (Stock.makes_internName args)
  | gensym => exact Stock.Makes.allocates (Stock.makes_freshSymbol args)
  | markMacro => exact Effect.allocates_makeMacro h
  | print => exact Effect.allocates_printLine args
  | load => exact Effect.allocates_loadNamed hev args

/-- What a call comes down to gives a known value. -/
theorem Target.allocates_call (hev : ev.Allocates) {target : Target}
    (h : target.In Stock.known w) : (target.call ev).Allocates w KnownResult := by
  cases target with
  | builtin function args => exact Builtin.allocates_call hev function h
  | closure c args => exact hev.apply h.1 h.2
  | host name index args =>
    refine .reading fun e he => ?_
    split
    · rename_i supplied hfound
      -- the objects that it was made with were known before
      have hsupplied := he.hosts supplied (Array.mem_of_getElem? hfound)
      exact .make fun s hs => hsupplied subset_rfl args s h hs
    · exact .fail _

/-- An intrinsic function that is called with known arguments gives a known value. -/
theorem Intrinsic.allocates_call (hev : ev.Allocates) (function : Intrinsic)
    (h : ∀ v ∈ args, v.KnownIn w) :
    (function.call ev args).Allocates w KnownResult := by
  refine .bind (P := fun w' target => target.In Stock.known w') (.ofExcept fun target ht => ?_)
    fun _ _ _ => Target.allocates_call hev
  have hfine := Target.fine_resolve (σ := .known) function h
  rwa [ht] at hfine

end

end StackLisp

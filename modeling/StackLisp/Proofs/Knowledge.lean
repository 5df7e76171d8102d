import StackLisp.Interpreter
import StackLisp.Proofs.Pools

/-!
# Code allocates all new objects

Whatever code is run, the machine comes to new objects only by allocating them: all values that it
moves about are known, and what it binds to an environment is a new closure over known constants.
So the same holds of the evaluators that the machine gives to the compiler and to the built-in
functions, by induction on their fuel, and of everything that a host program can do.

- `Machine.allocates_execute`: a single instruction;
- `Machine.allocates_evaluator`: the machine's evaluators;
- `Interpreter.knownIn_bare`, `Interpreter.allocates_evalText`: interpreters.
-/

namespace StackLisp

open Eval

variable {w w' : Objects}

/-! ## The stack -/

namespace Stack

variable {s : Stack}

theorem KnownIn.value (h : s.KnownIn w) {i : Nat} {v : Value} (hv : s.value i = .ok v) :
    v.KnownIn w := by
  unfold Stack.value read at hv
  split at hv
  · rename_i hread
    split at hread
    · rename_i hslot
      cases hread
      exact Except.ok.inj hv ▸ h i _ hslot
    · cases hread
  · cases hv
  · cases hv

theorem KnownIn.closure (h : s.KnownIn w) {i : Nat} {c : Closure} (hc : s.closure i = .ok c) :
    (Value.closure c).KnownIn w := by
  unfold Stack.closure at hc
  split at hc
  · rename_i hv
    exact Except.ok.inj hc ▸ h.value hv
  · cases hc
  · cases hc

theorem KnownIn.collect (h : s.KnownIn w) {count first : Nat} {reversed vs : List Value}
    (hr : ∀ v ∈ reversed, v.KnownIn w) (hvs : s.collect count first reversed = .ok vs) :
    ∀ v ∈ vs, v.KnownIn w := by
  induction count generalizing first reversed with
  | zero =>
    obtain rfl := Except.ok.inj hvs
    simpa using hr
  | succ count ih =>
    unfold Stack.collect at hvs
    split at hvs
    · rename_i hv
      exact ih (List.forall_mem_cons.2 ⟨h.value hv, hr⟩) hvs
    · cases hvs

theorem KnownIn.values (h : s.KnownIn w) {first last : Nat} {vs : List Value}
    (hvs : s.values first last = .ok vs) : ∀ v ∈ vs, v.KnownIn w :=
  h.collect (by simp) hvs

theorem KnownIn.write (h : s.KnownIn w) {slot : Slot}
    (hslot : ∀ v, slot = .value v → v.KnownIn w) (index : Nat) :
    (s.write index slot).2.KnownIn w := by
  unfold Stack.write
  split
  · intro i v hv
    simp only [Array.getElem?_setIfInBounds] at hv
    split at hv
    · split at hv
      · exact hslot v (Option.some.inj hv)
      · cases hv
    · exact h i v hv
  · exact h

theorem knownIn_ofSize (size : Nat) : (Stack.ofSize size).KnownIn w := by
  intro i v hv
  rw [Stack.ofSize, Array.getElem?_replicate] at hv
  split at hv <;> cases hv

theorem KnownIn.grow (h : s.KnownIn w) (needed limit : Nat) :
    (s.grow needed limit).2.KnownIn w := by
  unfold Stack.grow
  split
  · exact h
  · split
    · exact h
    · intro i v hv
      simp only [Stack.extend, Array.getElem?_append] at hv
      split at hv
      · exact h i v hv
      · rw [Array.getElem?_replicate] at hv
        split at hv <;> cases hv

end Stack

/-! ## Frames -/

namespace CallFrame

theorem allocates_below (n : Nat) : (below n).Allocates w AnyOutcome := by
  refine .reading fun e _ => ?_
  dsimp only
  split
  · exact .pure trivial
  · exact .fail _

theorem allocates_beforeOperands (n : Nat) : (beforeOperands n).Allocates w AnyOutcome := by
  refine .reading fun e _ => ?_
  dsimp only
  split
  · exact .pure trivial
  · exact .fail _

theorem allocates_setPointer (sp : Nat) : (setPointer sp).Allocates w AnyOutcome :=
  .modify fun _ he => he.congr rfl

theorem allocates_write (index : Nat) {slot : Slot} (hslot : ∀ v, slot = .value v → v.KnownIn w) :
    (write index slot).Allocates w AnyOutcome :=
  .onStack fun _ hs => ⟨hs.write hslot index, fun _ _ => trivial⟩

theorem allocates_writeValue (index : Nat) {v : Value} (hv : v.KnownIn w) :
    (write index (.value v)).Allocates w AnyOutcome :=
  allocates_write index fun _ h => Slot.value.inj h ▸ hv

theorem allocates_push {slot : Slot} (hslot : ∀ v, slot = .value v → v.KnownIn w) :
    (push slot).Allocates w AnyOutcome :=
  .reading fun e _ => .bind (allocates_write e.sp hslot) fun _ _ _ _ => allocates_setPointer _

theorem allocates_readValue (i : Nat) :
    (Eval.fromStack (·.value i)).Allocates w KnownResult :=
  .fromStack fun _ hs _ => hs.value

theorem allocates_readValues (first last : Nat) :
    (Eval.fromStack (·.values first last)).Allocates w fun w' vs => ∀ v ∈ vs, v.KnownIn w' :=
  .fromStack fun _ hs _ => hs.values

theorem allocates_readClosure (i : Nat) :
    (Eval.fromStack (·.closure i)).Allocates w fun w' c => (Value.closure c).KnownIn w' :=
  .fromStack fun _ hs _ => hs.closure

theorem allocates_pop : pop.Allocates w KnownResult := by
  refine .bind (allocates_below 1) fun w₁ top _ _ => ?_
  refine .bind (allocates_readValue _) fun w₂ v _ hv => ?_
  exact .bind (allocates_setPointer top) fun w₃ _ hle _ => .pure (hv.mono hle)

theorem allocates_reserve (needed : Nat) : (reserve needed).Allocates w AnyOutcome :=
  .reading fun _ _ => .onStack fun _ hs => ⟨hs.grow _ _, fun _ _ => trivial⟩

theorem allocates_currentEnv : currentEnv.Allocates w AnyOutcome :=
  .bind (allocates_beforeOperands header) fun _ _ _ _ => .any_fromStack _

/-- Parameters are bound to known arguments. -/
theorem knownIn_of_bindPositional {c : Closure} {s : Stack} (hs : s.KnownIn w)
    {count place slot : Nat} {bindings more : Bindings}
    (hb : ∀ symbol v, bindings.get? symbol = some v → v.KnownIn w)
    (h : bindPositional c s count place slot bindings = .ok more) :
    ∀ symbol v, more.get? symbol = some v → v.KnownIn w := by
  induction count generalizing place slot bindings with
  | zero => exact Except.ok.inj h ▸ hb
  | succ count ih =>
    unfold bindPositional at h
    cases hsymbol : parameter c place with
    | error error => simp [hsymbol, bind, Except.bind] at h
    | ok symbol =>
      cases hv : s.value slot with
      | error error => simp [hsymbol, hv, bind, Except.bind] at h
      | ok v =>
        simp only [hsymbol, hv, bind, Except.bind] at h
        refine ih (fun other u hu => ?_) h
        obtain rfl | hold := Bindings.eq_or_of_get?_insert hu
        · exact hs.value hv
        · exact hb other u hold

/-- All that the bindings bind is known. -/
def KnownBindings (w : Objects) (bindings : Bindings) : Prop :=
  ∀ symbol v, bindings.get? symbol = some v → v.KnownIn w

theorem allocates_bindArguments (c : Closure) (first argc : Nat) :
    (bindArguments c first argc).Allocates w KnownBindings := by
  refine .bind (P := KnownBindings)
    (.fromStack fun s hs _ => knownIn_of_bindPositional hs (by simp [Bindings.get?]))
    fun w₁ bindings _ hb => ?_
  split
  · refine .bind (.any_ofExcept _) fun w₂ symbol h₂ _ => ?_
    refine .bind (allocates_readValues _ _) fun w₃ others h₃ hothers => ?_
    refine .bind (P := KnownResult)
      (.onStore fun s hs => Stock.list_of_items (σ := .known) hs hothers) fun w₄ list h₄ hlist => ?_
    refine .pure fun other v hv => ?_
    obtain rfl | hold := Bindings.eq_or_of_get?_insert hv
    · exact hlist
    · exact (hb other v hold).mono (h₂.trans (h₃.trans h₄))
  · exact .pure hb

theorem allocates_writeHeader (base : Nat) (env : EnvId) :
    (writeHeader base env).Allocates w AnyOutcome := by
  refine .bind (allocates_setPointer _) fun _ _ _ _ => ?_
  refine .bind (allocates_push nofun) fun _ _ _ _ => .reading fun e _ => ?_
  refine .bind (allocates_push nofun) fun _ _ _ _ => .bind (allocates_push nofun) fun _ _ _ _ => ?_
  exact .modify fun _ he => he.congr rfl

/-- The running function is known. -/
def KnownActivation (w : Objects) (a : Activation) : Prop :=
  (Value.closure a.closure).KnownIn w

theorem KnownActivation.mono {a : Activation} (h : KnownActivation w a) (hle : w ≤ w') :
    KnownActivation w' a :=
  Value.KnownIn.mono h hle

theorem allocates_enter (argc : Nat) : (enter argc).Allocates w KnownActivation := by
  refine .bind (allocates_below _) fun w₁ base _ _ => ?_
  refine .bind (allocates_readClosure _) fun w₂ c _ hc => ?_
  refine .bind (.any_ofExcept _) fun w₃ _ h₃ _ => ?_
  refine .bind (.any_ofExcept _) fun w₄ position h₄ _ => ?_
  refine .reading fun e _ => .bind (allocates_reserve _) fun w₅ _ h₅ _ => ?_
  refine .bind (allocates_bindArguments c _ argc) fun w₆ bindings h₆ hb => ?_
  refine .bind (P := AnyOutcome) (fun e he => ⟨w₆, le_rfl, he.create c.env hb, fun _ _ => trivial⟩)
    fun w₇ env h₇ _ => ?_
  refine .bind (allocates_writeHeader base env) fun w₈ _ h₈ _ => .pure ?_
  exact hc.mono (h₃.trans (h₄.trans (h₅.trans (h₆.trans (h₇.trans h₈)))))

/-- The function that goes on, or the value that was returned, is known. -/
def KnownProgress (w : Objects) : Progress → Prop
  | .running next => KnownActivation w next
  | .returned v => v.KnownIn w

theorem KnownActivation.running {a : Activation} (h : KnownActivation w a) :
    (return .running a : Eval Progress).Allocates w KnownProgress :=
  .pure h

theorem allocates_resume {result : Value} (hresult : result.KnownIn w) :
    (resume result).Allocates w KnownActivation := by
  refine .bind (allocates_below _) fun w₁ _ h₁ _ => ?_
  refine .bind (allocates_setPointer _) fun w₂ _ h₂ _ => ?_
  refine .bind (allocates_beforeOperands 1) fun w₃ _ h₃ _ => ?_
  refine .bind (.any_fromStack _) fun w₄ _ h₄ _ => ?_
  refine .bind (allocates_below 1) fun w₅ top h₅ _ => ?_
  have hle := h₁.trans (h₂.trans (h₃.trans (h₄.trans h₅)))
  refine .bind (allocates_writeValue top (hresult.mono hle)) fun w₆ _ _ _ => ?_
  refine .bind (allocates_beforeOperands _) fun w₇ _ _ _ => ?_
  refine .bind (allocates_readClosure _) fun w₈ c _ hc => ?_
  refine .bind (.any_ofExcept _) fun w₉ _ h₉ _ => .pure ?_
  exact hc.mono h₉

theorem allocates_leave (home : Nat) : (leave home).Allocates w KnownProgress := by
  refine .bind (allocates_below 1) fun w₁ _ _ _ => ?_
  refine .bind (allocates_readValue _) fun w₂ result _ hresult => ?_
  refine .bind (allocates_beforeOperands 2) fun w₃ _ h₃ _ => ?_
  refine .bind (.any_fromStack _) fun w₄ caller h₄ _ => ?_
  refine .bind (.modify fun _ he => he.congr rfl) fun w₅ _ h₅ _ => ?_
  have hknown : result.KnownIn w₅ := hresult.mono (h₃.trans (h₄.trans h₅))
  split
  · exact .pure hknown
  · exact .bind (allocates_resume hknown) fun _ _ _ hnext => hnext.running

theorem bindings_chain (envs : Environments) (scopes : Array EnvId) (i : Nat) (env : EnvId) :
    (chain envs scopes i).bindings env = envs.bindings env := by
  unfold chain
  split
  · dsimp only
    split
    · exact envs.bindings_link _ _ _
    · rw [bindings_chain, Environments.bindings_link]
  · rfl
termination_by scopes.size - i

theorem allocates_capture (home : Nat) : (capture home).Allocates w AnyOutcome := by
  refine .reading fun e _ => ?_
  split
  · exact .throw _
  · split
    · exact .fail _
    · refine .bind (.modify fun e he => he.withEnvs fun hv => ?_) fun _ _ _ _ => .pure trivial
      -- links are no bindings
      rw [bindings_chain] at hv
      exact he.bindings hv

end CallFrame

/-! ## Instructions -/

namespace Machine

open CallFrame

variable {ev : Evaluator}

theorem allocates_execConst {c : Closure} (hc : (Value.closure c).KnownIn w) (index : UInt16) :
    (execConst c index).Allocates w AnyOutcome := by
  unfold execConst
  split
  · rename_i v hv
    have hknown := (Value.madeOf_closure_iff.1 hc).2 v (Array.mem_of_getElem? hv)
    exact allocates_push fun _ h => Slot.value.inj h ▸ hknown
  · exact .fail _

theorem allocates_lookup (symbol : Symbol) : (lookup symbol).Allocates w KnownResult := by
  refine .bind allocates_currentEnv fun w₁ env _ _ => .reading fun e he => ?_
  split
  · rename_i v hv
    exact .pure (he.get? hv)
  · split
    · rename_i v hv
      exact .pure (he.globals hv)
    · exact .fail _

theorem allocates_execLoad : execLoad.Allocates w AnyOutcome := by
  refine .bind (allocates_below 1) fun w₁ top _ _ => ?_
  refine .bind (.any_fromStack _) fun w₂ symbol _ _ => ?_
  exact .bind (allocates_lookup symbol) fun w₃ v _ hv => allocates_writeValue top hv

theorem allocates_define (symbol : Symbol) {v : Value} (hv : v.KnownIn w) :
    (modify (·.define symbol v) : Eval Unit).Allocates w AnyOutcome :=
  .modify fun _ he => he.define symbol hv

theorem allocates_overwrite (symbol : Symbol) {v : Value} (hv : v.KnownIn w) :
    (overwrite symbol v).Allocates w AnyOutcome := by
  refine .bind allocates_currentEnv fun w₁ env h₁ _ => ?_
  have hv₁ := hv.mono h₁
  refine .bind (P := AnyOutcome)
    (fun e he => ⟨w₁, le_rfl, he.assign env symbol hv₁, fun _ _ => trivial⟩) fun w₂ found h₂ _ => ?_
  split
  · refine .reading fun e _ => ?_
    split
    · exact allocates_define symbol (hv₁.mono h₂)
    · exact .fail _
  · exact .pure trivial

theorem allocates_execAssign {assign : Symbol → Value → Eval Unit}
    (h : ∀ {w : Objects} (symbol : Symbol) {v : Value}, v.KnownIn w →
      (assign symbol v).Allocates w AnyOutcome) : (execAssign assign).Allocates w AnyOutcome := by
  refine .bind (allocates_below 2) fun w₁ _ _ _ => ?_
  refine .bind (.any_fromStack _) fun w₂ symbol _ _ => ?_
  refine .bind allocates_pop fun w₃ v _ hv => .bind (h symbol hv) fun w₄ _ h₄ _ => ?_
  exact .bind (allocates_below 1) fun w₅ top h₅ _ =>
    allocates_writeValue top (hv.mono (h₄.trans h₅))

/-- A function that is bound to an environment is a new object over known constants. -/
theorem allocates_execClosure (home : Nat) : (execClosure home).Allocates w AnyOutcome := by
  refine .bind (allocates_below 1) fun w₁ top _ _ => ?_
  refine .bind (allocates_readClosure _) fun w₂ template _ ht => ?_
  refine .bind (allocates_capture home) fun w₃ env h₃ _ => ?_
  have hconstants := (Value.madeOf_closure_iff.1 ht).2
  refine .bind
    (P := fun w' ref => (Value.closure { template with ref, env := some env }).KnownIn w')
    (.onStore fun s hs => ?_) fun w₄ ref _ hbound => ?_
  · -- only the function itself is new: its constants were known
    obtain ⟨w', hle, hbelow, hmem⟩ :=
      hs.add (v := .closure { template with ref := s.nextRef, env := some env }) rfl
    refine ⟨w', hle, hbelow, Value.madeOf_closure_iff.2 ⟨hmem, fun v hv => ?_⟩⟩
    have hknown : v.KnownIn w₂ := hconstants v hv
    exact hknown.mono (h₃.trans hle)
  · refine .bind (.modify fun e he => ?_) fun w₅ _ h₅ _ => allocates_writeValue top (hbound.mono h₅)
    split
    · exact he.congr rfl
    · exact he

theorem allocates_execCall (hev : ev.Allocates) {a : Activation} (ha : KnownActivation w a)
    (argc : Nat) : (execCall ev a argc).Allocates w KnownProgress := by
  refine .bind (allocates_below _) fun w₁ slot h₁ _ => ?_
  refine .bind (allocates_readValue _) fun w₂ callee h₂ _ => ?_
  split
  · refine .bind (allocates_readValues _ _) fun w₃ args h₃ hargs => ?_
    refine .bind (Intrinsic.allocates_call hev _ hargs) fun w₄ result h₄ hresult => ?_
    refine .bind (allocates_setPointer _) fun w₅ _ h₅ _ => ?_
    refine .bind (allocates_writeValue slot (hresult.mono h₅)) fun w₆ _ h₆ _ => .pure ?_
    exact Value.KnownIn.mono ha
      (h₁.trans (h₂.trans (h₃.trans (h₄.trans (h₅.trans h₆)))))
  · refine .bind (allocates_beforeOperands 1) fun w₃ _ _ _ => ?_
    refine .bind (allocates_write _ nofun) fun w₄ _ _ _ => ?_
    exact .bind (allocates_enter argc) fun _ _ _ hnext => hnext.running
  · exact .fail _

/-- Where code jumps to does not change which function runs. -/
theorem allocates_jump {a : Activation} (ha : KnownActivation w a) (target : Nat) :
    (do return .running { a with position := ← Eval.ofExcept (a.closure.code.seek target) } :
      Eval Progress).Allocates w KnownProgress :=
  .bind (.any_ofExcept _) fun _ _ h _ => .pure (ha.mono h)

/-- One instruction comes to new objects by allocation only. -/
theorem allocates_execute (hev : ev.Allocates) (home : Nat) {a : Activation}
    (ha : KnownActivation w a) (i : Instruction) :
    (execute ev home a i).Allocates w KnownProgress := by
  -- the function goes on after most instructions
  have hgoes : ∀ {x : Eval Unit}, x.Allocates w AnyOutcome →
      (do x; return .running a : Eval Progress).Allocates w KnownProgress :=
    fun hx => .bind hx fun _ _ h _ => .pure (ha.mono h)
  cases i with
  | pop => exact .bind (allocates_below 1) fun _ _ h _ =>
      .bind (allocates_setPointer _) fun _ _ h' _ => .pure (ha.mono (h.trans h'))
  | ret => exact allocates_leave home
  | call argc => exact allocates_execCall hev ha argc.toNat
  | jump target => exact allocates_jump ha target.toNat
  | jumpIfNot target =>
    refine .bind allocates_pop fun w₁ v h₁ _ => ?_
    split
    · exact .pure (ha.mono h₁)
    · exact allocates_jump (ha.mono h₁) target.toNat
  | const index => exact hgoes (allocates_execConst ha index)
  | load => exact hgoes allocates_execLoad
  | define => exact hgoes (allocates_execAssign allocates_define)
  | store => exact hgoes (allocates_execAssign allocates_overwrite)
  | closure => exact hgoes (allocates_execClosure home)
  | nop | dup | label _ | halt => exact .fail _

theorem allocates_step (hev : ev.Allocates) (home : Nat) {a : Activation}
    (ha : KnownActivation w a) : (step ev home a).Allocates w KnownProgress :=
  .bind (.any_ofExcept _) fun w₁ i h _ => by
    have hnext : KnownActivation w₁ { a with position := a.position + i.width } := ha.mono h
    exact allocates_execute hev home hnext i

/-- Running a call comes to new objects by allocation only. -/
theorem allocates_run (hev : ev.Allocates) (home fuel : Nat) {a : Activation}
    (ha : KnownActivation w a) : (run ev home fuel a).Allocates w KnownResult := by
  -- the function that runs may be another one after each step, but it is known
  induction fuel generalizing a w with
  | zero => exact .throw _
  | succ fuel ih =>
    intro e he
    obtain ⟨w₁, hle, hknows, hprogress⟩ := allocates_step hev home ha e he
    unfold run
    revert hknows hprogress
    rcases step ev home a e with ⟨_ | next | v, e₁⟩
    · exact fun hknows _ => ⟨w₁, hle, hknows, nofun⟩
    · intro hknows hprogress
      obtain ⟨w₂, hle', hrest⟩ := ih (hprogress _ rfl) e₁ hknows
      exact ⟨w₂, hle.trans hle', hrest⟩
    · exact fun hknows hprogress => ⟨w₁, hle, hknows, fun _ h => Except.ok.inj h ▸ hprogress _ rfl⟩

theorem allocates_pushAll {args : List Value} (hargs : ∀ v ∈ args, v.KnownIn w) :
    (args.forM fun v => push (.value v)).Allocates w AnyOutcome := by
  induction args generalizing w with
  | nil => exact .pure trivial
  | cons v args ih =>
    rw [List.forall_mem_cons] at hargs
    exact .bind (allocates_push fun _ h => Slot.value.inj h ▸ hargs.1) fun w₁ _ h _ =>
      ih fun u hu => (hargs.2 u hu).mono h

theorem allocates_callWith (hev : ev.Allocates) (fuel : Nat) {c : Closure} {args : List Value}
    (hc : (Value.closure c).KnownIn w) (hargs : ∀ v ∈ args, v.KnownIn w) :
    (callWith ev fuel c args).Allocates w KnownResult := by
  have hpush : (pushCall c args).Allocates w AnyOutcome :=
    .reading fun e _ => .bind (allocates_reserve _) fun w₁ _ h₁ _ =>
      .bind (allocates_push fun _ h => Slot.value.inj h ▸ hc.mono h₁) fun w₂ _ h₂ _ =>
        allocates_pushAll fun v hv => (hargs v hv).mono (h₁.trans h₂)
  refine .reading fun e _ => .bind (P := KnownActivation) ?_ fun _ _ _ => allocates_run hev _ fuel
  exact .bind hpush fun _ _ _ _ => allocates_enter args.length

/-- A call from outside the machine comes to new objects by allocation only. -/
theorem allocates_applyWith (hev : ev.Allocates) (fuel : Nat) {c : Closure} {args : List Value}
    (hc : (Value.closure c).KnownIn w) (hargs : ∀ v ∈ args, v.KnownIn w) :
    (applyWith ev fuel c args).Allocates w KnownResult := by
  intro e he
  unfold applyWith
  dsimp only
  split
  · exact ⟨w, le_rfl, he, nofun⟩
  · obtain ⟨w', hle, hknows, hresult⟩ := allocates_callWith hev fuel hc hargs
      { e with depth := e.depth + 1 } (he.congr rfl)
    exact ⟨w', hle, hknows.congr rfl, hresult⟩

/-! ## Loading -/

theorem allocates_evalForm (hev : ev.Allocates) {form : Value} (hform : form.KnownIn w) :
    (evalForm ev form).Allocates w KnownResult :=
  .bind (Compiler.compileThunk_allocates hev hform) fun _ _ _ hc =>
    hev.apply hc.1 fun _ hv => nomatch hv

theorem allocates_readForm (tokens : List Located) :
    (readForm tokens).Allocates w fun w' r => ∀ found ∈ r, found.1.KnownIn w' := by
  intro e he
  unfold readForm
  split
  · exact ⟨w, le_rfl, he, fun _ h => by cases h; simp⟩
  · rename_i reading hread
    obtain ⟨w', hle, hbelow, hfine⟩ := Datum.next_stocked (σ := .known) he.below hread
    have hknows := he.withStore hle.known hbelow
    split
    · rename_i form hform
      rw [hform] at hfine
      refine ⟨w', hle, hknows, fun r hr found hfound => ?_⟩
      cases hr
      cases hfound
      exact hfine
    · exact ⟨w', hle, hknows, fun _ h => by cases h⟩

theorem allocates_loadTokens (hev : ev.Allocates) {w : Objects} {last : Value}
    (tokens : List Located) (hlast : last.KnownIn w) :
    (loadTokens ev last tokens).Allocates w KnownResult := by
  unfold loadTokens
  refine .bind (allocates_readForm tokens) ?_
  rintro w₁ (_ | ⟨form, rest, hrest⟩) h₁ hform
  · exact .pure (hlast.mono h₁)
  · exact .bind (allocates_evalForm hev (hform _ rfl)) fun w₂ v _ hv =>
      allocates_loadTokens hev rest hv
termination_by tokens.length

theorem allocates_loadText (hev : ev.Allocates) (w : Objects) (text : String) :
    (loadText ev text).Allocates w KnownResult :=
  .bind (.any_ofExcept _) fun _ tokens _ _ =>
    allocates_loadTokens hev tokens Value.madeOf_nil

theorem allocates_loadFile (hev : ev.Allocates) (w : Objects) (path : String) :
    (loadFile ev path).Allocates w KnownResult := by
  refine .reading fun e _ => ?_
  split
  · exact allocates_loadText hev w _
  · exact .fail _
  · exact .throw _

/-- The machine's evaluators come to new objects by allocation only. -/
theorem allocates_evaluator (fuel : Nat) : (evaluator fuel).Allocates := by
  -- each evaluator runs code with the one that has less fuel
  induction fuel with
  | zero => exact ⟨fun _ _ => .throw _, fun _ _ => .throw _⟩
  | succ fuel ih => exact ⟨allocates_applyWith ih fuel, allocates_loadFile ih⟩

end Machine

/-! ## Interpreters -/

namespace Engine

variable {e : Engine}

/-- Nothing was made yet in a new engine. -/
theorem knownIn_new (limits : Limits) (files : String → FileAnswer) :
    (Engine.new limits files).KnownIn ∅ where
  below := Objects.below_empty _
  globals {s v} hv := by
    rw [show (Engine.new limits files).globals = .empty from rfl, Globals.get?_empty] at hv
    cases hv
  bindings {env s v} hv := by
    simp [Engine.new, Environments.bindings, Environments.empty, Bindings.get?] at hv
  stack := Stack.knownIn_ofSize _
  hosts := by simp [Engine.new]

theorem KnownIn.reset (h : e.KnownIn w) : e.reset.KnownIn w :=
  ⟨h.below, h.globals, h.bindings, Stack.knownIn_ofSize _, h.hosts⟩

/-- A function that is bound is a new object. -/
theorem KnownIn.register (h : e.KnownIn w) (function : Intrinsic) :
    ∃ w', w ≤ w' ∧ (e.register function).KnownIn w' := by
  obtain ⟨w', hle, hbelow, hmem⟩ := h.below.add (v := .intrinsic e.store.nextRef function) rfl
  have hnamed : ((e.store.intrinsic function).2.intern function.name).2.nextRef =
      e.store.nextRef + 1 := rfl
  refine ⟨w', hle, ?_⟩
  exact (h.withStore hle.known (hnamed ▸ hbelow)).define _ (Value.madeOf_intrinsic_iff.2 hmem)

/-- Host functions may be registered that allocate what they make. -/
theorem KnownIn.registerHost (h : e.KnownIn w) (name : String) {function : HostFunction}
    (hf : function.Allocates w.known) :
    ∃ w', w ≤ w' ∧ (e.registerHost name function).KnownIn w' := by
  have hpushed : KnownIn { e with hosts := e.hosts.push function } w := by
    refine ⟨h.below, h.globals, h.bindings, h.stack, fun f hmem => ?_⟩
    rcases Array.mem_push.1 hmem with hmem | rfl
    · exact h.hosts f hmem
    · exact hf
  exact hpushed.register (.host name e.hosts.size)

end Engine

namespace Interpreter

/-- All values in a new interpreter are known. -/
theorem knownIn_bare (setup : Setup) (files : String → FileAnswer) :
    ∃ w, (bare setup files).KnownIn w := by
  -- the functions are new objects, one after the other
  have hall : ∀ (functions : List Intrinsic) {e : Engine} {w : Objects}, e.KnownIn w →
      ∃ w', (functions.foldl Engine.register e).KnownIn w' := by
    intro functions
    induction functions with
    | nil => exact fun h => ⟨_, h⟩
    | cons function functions ih =>
      intro e w h
      obtain ⟨w', -, h'⟩ := h.register function
      exact ih h'
  unfold bare
  dsimp only
  split
  · exact hall _ (Engine.knownIn_new _ _)
  · exact ⟨∅, Engine.knownIn_new _ _⟩

/-- Dropping all running calls after a failure makes no difference. -/
theorem allocates_resetting {α : Type} {x : Eval α} {Q : Objects → α → Prop}
    (h : x.Allocates w Q) : (resetting x).Allocates w Q := by
  intro e he
  obtain ⟨w', hle, hknows, hq⟩ := h e he
  refine ⟨w', hle, ?_⟩
  unfold resetting
  split
  all_goals
    rename_i hrun
    rw [hrun] at hknows hq
  · exact ⟨hknows, hq⟩
  · exact ⟨hknows.reset, nofun⟩

theorem allocates_evalText (w : Objects) (fuel : Nat) (text : String) :
    (evalText fuel text).Allocates w KnownResult :=
  allocates_resetting (Machine.allocates_loadText (Machine.allocates_evaluator fuel) w text)

theorem allocates_evalFile (w : Objects) (fuel : Nat) (path : String) :
    (evalFile fuel path).Allocates w KnownResult :=
  allocates_resetting (Machine.allocates_loadFile (Machine.allocates_evaluator fuel) w path)

theorem allocates_evalForm (fuel : Nat) {form : Value} (hform : form.KnownIn w) :
    (evalForm fuel form).Allocates w KnownResult :=
  allocates_resetting (Machine.allocates_evalForm (Machine.allocates_evaluator fuel) hform)

/-- A form that is read is known. -/
theorem allocates_read (w : Objects) (text : String) : (read text).Allocates w KnownResult := by
  intro e he
  obtain ⟨w', hle, hbelow, hfine⟩ := Datum.readOne_stocked (σ := .known) he.below text
  refine ⟨w', hle, ?_⟩
  unfold read
  split
  all_goals
    rename_i hread
    rw [hread] at hbelow hfine
    have hknows := he.withStore hle.known hbelow
  · exact ⟨hknows, fun _ h => Except.ok.inj h ▸ hfine⟩
  · exact ⟨hknows, nofun⟩

/-- All values in an interpreter with the prelude are known. -/
theorem knownIn_build {fuel : Nat} {setup : Setup} {files : String → FileAnswer} {e : Engine}
    (h : build fuel setup files = .ok e) : ∃ w, e.KnownIn w := by
  obtain ⟨w, hbare⟩ := knownIn_bare setup files
  unfold build at h
  dsimp only at h
  split at h
  · split at h
    · rename_i hrun
      obtain ⟨w', -, hknows, -⟩ := (Machine.allocates_loadText (Machine.allocates_evaluator fuel) w
        StackLisp.prelude).of_ok hbare hrun
      cases h
      exact ⟨w', hknows.reset⟩
    · cases h
  · cases h
    exact ⟨w, hbare⟩

end Interpreter

end StackLisp

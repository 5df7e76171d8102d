import StackLisp.Proofs.Blind
import StackLisp.Proofs.Proper
import StackLisp.Proofs.Reference

/-!
# Safe computations

A computation is safe at an engine when it keeps a sound engine sound, leaves the running calls
alone, and stops only for reasons that are not the machine's fault. Safe computations compose, and
the constructs of the language are safe and do not see the stack.

- `Eval.Safe`, `Eval.Safe.bind`: the notion and its composition;
- `Reference.safe_lookup`, `Reference.safe_assign`, `Reference.safe_bind`, `Reference.safe_enter`:
  the single constructs.
-/

namespace StackLisp

namespace Eval

variable {α β : Type} {e : Engine}

section

variable [Unbound]

/-- On a sound engine, the computation keeps what running calls rely on, and `Q` holds of its
result. -/
def Safe (e : Engine) (x : Eval α) (Q : α → Engine → Prop) : Prop :=
  e.Sound → e.frame ≤ e.sp → e.Keeps (x e).2 ∧ (x e).2.Sound ∧
    match (x e).1 with
    | .ok a => Q a (x e).2
    | .error stop => stop.Tame

theorem Safe.mono {x : Eval α} {Q R : α → Engine → Prop} (h : Safe e x Q)
    (hqr : ∀ a e', e.Keeps e' → Q a e' → R a e') : Safe e x R := by
  intro hs hf
  obtain ⟨hk, hs', hq⟩ := h hs hf
  refine ⟨hk, hs', ?_⟩
  split at hq
  · exact hqr _ _ hk hq
  · exact hq

/-- What is known when a safe computation has given a result. -/
theorem Safe.of_ok {x : Eval α} {Q : α → Engine → Prop} (h : Safe e x Q) (hs : e.Sound)
    (hf : e.frame ≤ e.sp) {a : α} {e' : Engine} (hrun : x e = (.ok a, e')) :
    e.Keeps e' ∧ e'.Sound ∧ Q a e' := by
  have hsafe := h hs hf
  rwa [hrun] at hsafe

theorem Safe.pure {a : α} {Q : α → Engine → Prop} (h : e.Sound → Q a e) :
    Safe e (pure a) Q :=
  fun hs _ => ⟨.refl e, hs, h hs⟩

theorem Safe.fail {error : Error} (h : error.Tame) (Q : α → Engine → Prop) :
    Safe e (Eval.fail error) Q :=
  fun hs _ => ⟨.refl e, hs, h⟩

/-- A sequence is safe if its first part is, and its second part wherever the first one ends. -/
theorem Safe.bind {x : Eval α} {f : α → Eval β} {Q : α → Engine → Prop} {R : β → Engine → Prop}
    (hx : Safe e x Q)
    (hf : ∀ a e', x e = (.ok a, e') → e.Keeps e' → e'.Sound → Q a e' → Safe e' (f a) R) :
    Safe e (x >>= f) R := by
  intro hs hframe
  obtain ⟨hk, hs', hq⟩ := hx hs hframe
  cases hr : x e with
  | mk r e₁ =>
    rw [hr] at hk hs' hq
    cases r with
    | error stop =>
      rw [bind_of_error hr]
      exact ⟨hk, hs', hq⟩
    | ok a =>
      obtain ⟨hk', hs'', hr'⟩ := hf a e₁ hr hk hs' hq hs' (hk.frame_le hframe)
      rw [bind_of_ok hr]
      exact ⟨hk.trans hk', hs'', hr'⟩

theorem Safe.ofExcept {r : Except Error α} {Q : α → Engine → Prop}
    (hok : ∀ a, r = .ok a → e.Sound → Q a e) (herror : ∀ error, r = .error error → error.Tame) :
    Safe e (Eval.ofExcept r) Q := by
  cases r with
  | ok a => exact .pure (hok a rfl)
  | error error => exact .fail (herror error rfl) Q

theorem Safe.onStore {f : Store → α × Store} {Q : α → Engine → Prop}
    (h : e.Sound → Q (f e.store).1 { e with store := (f e.store).2 }) :
    Safe e (Eval.onStore f) Q :=
  fun hs _ => ⟨.of_same_envs rfl, hs.withStore _, h hs⟩

theorem Safe.modify {f : Engine → Engine} {Q : Unit → Engine → Prop} (hk : e.Keeps (f e))
    (hs : e.Sound → (f e).Sound) (hq : e.Sound → Q () (f e)) : Safe e (modify f) Q :=
  fun h _ => ⟨hk, hs h, hq h⟩

/-- Looking at the engine. -/
theorem Safe.reading {g : Engine → Eval α} {Q : α → Engine → Prop} (h : Safe e (g e) Q) :
    Safe e (get >>= g) Q := by
  intro hs hf
  rw [bind_of_ok (get_run e)]
  exact h hs hf

end

/-- A sequence leaves the limits alone if its parts do. -/
theorem limits_bind {x : Eval α} {f : α → Eval β} (hx : ∀ e, (x e).2.limits = e.limits)
    (hf : ∀ a e, (f a e).2.limits = e.limits) (e : Engine) :
    ((x >>= f) e).2.limits = e.limits := by
  have hlimits := hx e
  rw [bind_run]
  revert hlimits
  rcases x e with ⟨_ | a, e'⟩
  · exact id
  · exact (hf a e').trans

theorem limits_ofExcept (r : Except Error α) (e : Engine) :
    (Eval.ofExcept r e).2.limits = e.limits := by
  cases r <;> rfl

end Eval

/-- The result is a proper value. -/
def ProperResult [Unbound] (v : Value) (e : Engine) : Prop :=
  v.Proper e.envs.size

/-- Nothing is known of the result. -/
def AnyResult {α : Type} (_ : α) (_ : Engine) : Prop :=
  True

namespace Reference

open Eval

variable {e : Engine}

theorem blind_lookup (env : EnvId) (s : Symbol) : Blind (lookup env s) := by
  refine .reading (fun _ _ _ _ _ => rfl) fun e => ?_
  split
  · exact .pure _
  · split
    · exact .pure _
    · exact .throw _

theorem safe_lookup [Unbound] (env : EnvId) (s : Symbol) : Safe e (lookup env s) ProperResult := by
  refine .reading ?_
  split
  · rename_i v hv
    refine .pure fun hs => ?_
    obtain ⟨⟨owner, _⟩, hr, rfl⟩ := Option.map_eq_some_iff.1 hv
    exact hs.bindings (e.envs.get?_of_resolve env hr)
  · split
    · rename_i v hv
      exact .pure fun hs => hs.globals hv
    · exact .fail (by trivial) _

theorem blind_overwrite (env : EnvId) (s : Symbol) (v : Value) : Blind (overwrite env s v) := by
  refine .bind (fun _ _ _ _ _ => rfl) fun found => ?_
  cases found
  · refine .reading (fun _ _ _ _ _ => rfl) fun e => ?_
    split
    · exact .modify fun _ _ _ _ _ => rfl
    · exact .throw _
  · exact .pure _

theorem safe_overwrite [Unbound] (env : EnvId) (s : Symbol) {v : Value}
    (hv : v.Proper e.envs.size) : Safe e (overwrite env s v) AnyResult := by
  intro hs _
  -- the nearest binding is overwritten, or else the global one, if there is one
  cases hr : e.envs.resolve env s with
  | some found =>
    obtain ⟨owner, old⟩ := found
    have hassign : e.envs.assign env s v = (true, e.envs.define owner s v) := by
      rw [Environments.assign, hr]
    have hrun : overwrite env s v e = (.ok (), { e with envs := e.envs.define owner s v }) := by
      simp only [overwrite, bind_run, hassign]
      rfl
    rw [hrun]
    refine ⟨.of_update rfl ?_ fun env h => ?_, hs.overwrite owner hv, trivial⟩
    · exact (e.envs.size_define owner s v).ge
    · exact (e.envs.next?_define owner env s v).symm ▸ h
  | none =>
    have hassign : e.envs.assign env s v = (false, e.envs) := by
      rw [Environments.assign, hr]
    have hrun : overwrite env s v e = (if (e.global? s).isSome then modify (·.define s v)
        else Eval.fail (.unbound s.name) : Eval Unit) e := by
      simp only [overwrite, bind_run, hassign]
      rfl
    rw [hrun]
    split
    · exact ⟨.of_same_envs rfl, hs.define hv, trivial⟩
    · exact ⟨.refl e, hs, trivial⟩

/-- Assignments leave the limits alone. -/
theorem limits_assign (env : EnvId) (way : Assignment) (s : Symbol) (v : Value) (e : Engine) :
    (assign env way s v e).2.limits = e.limits := by
  cases way with
  | define => rfl
  | overwrite =>
    refine limits_bind (fun _ => rfl) (fun found => ?_) e
    cases found with
    | true => exact fun _ => rfl
    | false =>
      refine limits_bind (fun _ => rfl) fun t => ?_
      split
      · exact fun _ => rfl
      · exact fun _ => rfl

theorem blind_assign (env : EnvId) (way : Assignment) (s : Symbol) (v : Value) :
    Blind (assign env way s v) := by
  cases way
  · exact .modify fun _ _ _ _ _ => rfl
  · exact blind_overwrite env s v

theorem safe_assign [Unbound] (env : EnvId) (way : Assignment) (s : Symbol) {v : Value}
    (hv : v.Proper e.envs.size) : Safe e (assign env way s v) AnyResult := by
  cases way
  · exact .modify (.of_same_envs rfl) (fun hs => hs.define hv) fun _ => trivial
  · exact safe_overwrite env s hv

theorem blind_bind (env : EnvId) (callers : List EnvId) (template : Closure) :
    Blind (bind env callers template) := by
  refine .bind (.modify fun _ _ _ _ _ => rfl) fun _ => .bind (.onStore _) fun _ =>
    .bind (.modify fun e stack sp frame maxSlots => ?_) fun _ => .pure _
  have hflag : (e.on stack sp frame maxSlots).isMacro template = e.isMacro template := rfl
  rw [hflag]
  split <;> rfl

/-- Binding a template gives a closure of the running call's environment. -/
theorem safe_bind [Unbound] {env : EnvId} {callers : List EnvId} {template : Closure}
    (hscopes : (env :: callers).Pairwise (· > ·)) (henv : env < e.envs.size)
    (ht : template.Coded (Value.Proper e.envs.size)) :
    Safe e (bind env callers template) ProperResult := by
  intro hs _
  have hchain : CallFrame.chain e.envs (env :: callers).toArray 0 =
      linkUp e.envs (env :: callers) := by rw [chain_eq]; rfl
  have hsize : (linkUp e.envs (env :: callers)).size = e.envs.size := size_linkUp
  have hlinked := hs.linkUp hscopes
  have hproper : ∀ ref, (Value.closure { template with ref, env := some env }).Proper
      (linkUp e.envs (env :: callers)).size := fun ref => by
    rw [hsize]
    exact .closure nofun (fun _ h => Option.some.inj h ▸ henv) (ht.bind ref (some env))
  unfold bind
  simp only [bind_run, modify_run, onStore_run, hchain, pure_run]
  -- whether the closure is made a macro changes neither environments nor values
  refine ⟨?_, ?_, ?_⟩
  · refine .of_update ?_ ?_ ?_ <;> split
    · rfl
    · rfl
    · exact hsize.ge
    · exact hsize.ge
    · exact fun _ h => isSome_linkUp h
    · exact fun _ h => isSome_linkUp h
  · split
    · exact ⟨hlinked.globals, hlinked.bindings, hlinked.older, hlinked.hosts⟩
    · exact hlinked.withStore _
  · split <;> exact hproper _

/-! ## Calls -/

/-- A call with as many arguments as there are parameters gets an environment that binds them. -/
theorem enter_of_bindPositional {c : Closure} {args : List Value} {bindings : Bindings}
    (hlength : c.positional = args.length) (hvariadic : c.variadic = false)
    (h : bindPositional c 0 args [] = .ok bindings) (e : Engine) :
    enter c args e = (.ok e.envs.size, { e with envs := (e.envs.create bindings c.env).2 }) := by
  have harity : CallFrame.checkArity c args.length = .ok () := by
    simp [CallFrame.checkArity, hlength]
  have hbindings : bindArguments c args e = (.ok bindings, e) := by
    rw [bindArguments, hlength, List.take_length, h, bind_of_ok (ofExcept_ok _ e),
      hvariadic]
    rfl
  rw [enter, harity, bind_of_ok (ofExcept_ok _ e), bind_of_ok hbindings]
  rfl

/-- A call of a function without parameters gets an environment without bindings. -/
theorem enter_thunk {c : Closure} (hpositional : c.positional = 0)
    (hvariadic : c.variadic = false) (e : Engine) :
    enter c [] e = (.ok e.envs.size, { e with envs := (e.envs.create [] c.env).2 }) :=
  enter_of_bindPositional hpositional hvariadic rfl e

theorem parameter_of_implements {c : Closure} {body : List Term} (h : c.Implements body)
    {i : Nat} (hi : i < c.parameters) : ∃ s, CallFrame.parameter c i = .ok s := by
  obtain ⟨s, hs⟩ := h.parameters i hi
  exact ⟨s, by rw [CallFrame.parameter, hs]⟩

/-- Parameters that are symbols are bound to proper arguments. -/
theorem bindPositional_eq_ok [Unbound] {n : Nat} {c : Closure} {place : Nat} {args : List Value}
    {bindings : Bindings} (hp : ∀ i < args.length, ∃ s, CallFrame.parameter c (place + i) = .ok s)
    (hargs : ∀ v ∈ args, v.Proper n) (hb : ∀ s v, bindings.get? s = some v → v.Proper n) :
    ∃ more, bindPositional c place args bindings = .ok more ∧
      ∀ s v, more.get? s = some v → v.Proper n := by
  induction args generalizing place bindings with
  | nil => exact ⟨bindings, rfl, hb⟩
  | cons v args ih =>
    obtain ⟨s, hs⟩ := hp 0 (by simp)
    rw [List.forall_mem_cons] at hargs
    rw [bindPositional, show CallFrame.parameter c place = .ok s from hs]
    refine ih (fun i hi => ?_) hargs.2 fun s' v' hv' => ?_
    · obtain ⟨s', hs'⟩ := hp (i + 1) (by simpa using hi)
      exact ⟨s', by rw [← hs']; congr 1; omega⟩
    · obtain rfl | hold := Bindings.eq_or_of_get?_insert hv'
      · exact hargs.1
      · exact hb s' v' hold

theorem blind_bindArguments (c : Closure) (args : List Value) : Blind (bindArguments c args) := by
  refine .bind (.ofExcept _) fun bindings => ?_
  split
  · exact .bind (.ofExcept _) fun _ => .bind (.onStore _) fun _ => .pure _
  · exact .pure _

theorem safe_bindArguments [Unbound] {c : Closure} {body : List Term} (hc : c.Implements body)
    {args : List Value} (hargs : ∀ v ∈ args, v.Proper e.envs.size) :
    Safe e (bindArguments c args) fun bindings e' =>
      e'.envs = e.envs ∧ ∀ s v, bindings.get? s = some v → v.Proper e.envs.size := by
  -- parameters are the first constants, so each position has its symbol
  have hpositional : ∀ i < (args.take c.positional).length,
      ∃ s, CallFrame.parameter c (0 + i) = .ok s := fun i hi => by
    rw [Nat.zero_add]
    exact parameter_of_implements hc (by simp [ClosureOf.parameters] at *; omega)
  have hnone : ∀ s v, Bindings.get? s [] = some v → v.Proper e.envs.size := by
    simp [Bindings.get?]
  obtain ⟨bindings, hb, hproper⟩ := bindPositional_eq_ok hpositional
    (fun v hv => hargs v (List.mem_of_mem_take hv)) hnone
  unfold bindArguments
  rw [hb]
  refine .bind (.pure (Q := fun b e' => bindings = b ∧ e = e') fun _ => ⟨rfl, rfl⟩) ?_
  rintro _ _ - - - ⟨rfl, rfl⟩
  split
  · rename_i hvariadic
    obtain ⟨s, hs⟩ := parameter_of_implements hc (i := c.positional)
      (by simp [ClosureOf.parameters, hvariadic])
    rw [hs]
    refine .bind (.pure (Q := fun b e' => s = b ∧ e = e') fun _ => ⟨rfl, rfl⟩) ?_
    rintro _ _ - - - ⟨rfl, rfl⟩
    refine .bind (Q := fun list e' => e'.envs = e.envs ∧ list.Proper e.envs.size)
      (.onStore fun _ => ⟨rfl, ?_⟩) ?_
    · exact Store.proper_list _ fun v hv => hargs v (List.mem_of_mem_drop hv)
    · rintro list e' - - - ⟨henvs, hlist⟩
      refine .pure fun _ => ⟨henvs, fun s' v hv => ?_⟩
      obtain rfl | hold := Bindings.eq_or_of_get?_insert hv
      · exact hlist
      · exact hproper s' v hold
  · exact .pure fun _ => ⟨rfl, hproper⟩

theorem blind_enter (c : Closure) (args : List Value) : Blind (enter c args) :=
  .bind (.ofExcept _) fun _ => .bind (blind_bindArguments c args) fun _ => fun _ _ _ _ _ => rfl

/-- Starting a call leaves the limits alone. -/
theorem limits_enter (c : Closure) (args : List Value) (e : Engine) :
    (enter c args e).2.limits = e.limits := by
  refine limits_bind (limits_ofExcept _) (fun _ => limits_bind (limits_bind (limits_ofExcept _)
    fun bindings => ?_) fun _ _ => rfl) e
  split
  · exact limits_bind (limits_ofExcept _) fun _ => limits_bind (fun _ => rfl) fun _ _ => rfl
  · exact fun _ => rfl

/-- A new call gets a new environment, enclosed by that of the function. -/
theorem safe_enter [Unbound] {c : Closure} (hc : c.Callable e.envs.size) {args : List Value}
    (hargs : ∀ v ∈ args, v.Proper e.envs.size) :
    Safe e (enter c args) fun env e' =>
      env = e.envs.size ∧ e'.envs.size = e.envs.size + 1 ∧ e'.envs.next? env = c.env := by
  obtain ⟨⟨himplements, -⟩, henv⟩ := hc
  refine .bind (Q := fun _ e' => e = e') (.ofExcept (fun _ _ _ => rfl) fun error h => ?_) ?_
  · unfold CallFrame.checkArity at h
    split at h
    · cases h
      trivial
    · split at h
      · cases h
        trivial
      · cases h
  · rintro _ _ - - - rfl
    refine .bind (safe_bindArguments himplements hargs) ?_
    rintro bindings e' - - hs' ⟨henvs, hproper⟩ - -
    rw [← henvs] at hproper henv ⊢
    refine ⟨.of_update rfl ?_ fun env h => ?_, hs'.create hproper henv, rfl,
      e'.envs.size_create _ _, ?_⟩
    · exact (e'.envs.size_create bindings c.env).symm ▸ Nat.le_succ _
    -- links of older environments stay, as the new one has the next number
    · rw [Environments.next?_create, if_neg]
      · exact h
      · rintro rfl
        obtain ⟨next, hnext⟩ := Option.isSome_iff_exists.1 h
        exact lt_irrefl _ (e'.envs.lt_size_of_next? _ hnext)
    · exact (e'.envs.next?_create e'.envs.size bindings c.env).trans (if_pos rfl)

end Reference

end StackLisp

import StackLisp.Proofs.Pursuit

/-!
# Compiled code does what its terms mean

A stretch of code that was compiled from terms is pursued: machines that run it follow the
reference evaluator on the terms, provided that they follow it afterwards. The proof is by
induction on the structure of the code, and for calls on how deep the leader may nest them.

- `TermPursued`, `BlockPursued`: code for a term, and for terms in a row;
- `Block.pursued`: blocks of finished code are pursued;
- `Body.pursues`: so are the bodies of functions;
- `callsPursued`: and so are the calls of closures.
-/

namespace StackLisp

open Eval Machine

attribute [local instance] Unbound.never

/-- The context in which the leader evaluates the terms of the innermost call. -/
def Frame.context (y : Evaluator) (r : Nat) (f : Frame) (rest : List Frame) :
    Reference.Context where
  evaluator := y
  call := Reference.call y r
  env := f.env
  callers := rest.map Frame.env

/-- The leader is at the engine `t`, with the running calls `f` and `rest`. -/
structure Poised (t : Engine) (f : Frame) (rest : List Frame) : Prop where
  sound : t.Sound
  frame_le : t.frame ≤ t.sp
  env : f.env < t.envs.size
  scopes : ((f :: rest).map Frame.env).Pairwise (· > ·)

namespace Poised

variable {y : Evaluator} {r : Nat} {t t' : Engine} {f : Frame} {rest : List Frame}

theorem valid (h : Poised t f rest) (hy : y.Safe) : (f.context y r rest).Valid t.envs.size :=
  ⟨hy, Reference.safe_call hy r, h.env, h.scopes⟩

theorem keeps (h : Poised t f rest) (hk : t.Keeps t') (hs : t'.Sound) : Poised t' f rest :=
  ⟨hs, hk.frame_le h.frame_le, h.env.trans_le hk.envs, h.scopes⟩

/-- The operands do not matter to the leader. -/
theorem withOperands (h : Poised t f rest) (operands : List Value) :
    Poised t (f.withOperands operands) rest :=
  ⟨h.sound, h.frame_le, h.env, h.scopes⟩

/-- After a safe computation the leader can go on. -/
theorem of_safe {α : Type} {x : Eval α} {Q : α → Engine → Prop} (h : Poised t f rest)
    (hx : x.Safe t Q) {a : α} (hrun : x t = (.ok a, t')) :
    Poised t' f rest ∧ t.envs.size ≤ t'.envs.size ∧ Q a t' := by
  obtain ⟨hk, hs, hq⟩ := hx.of_ok h.sound h.frame_le hrun
  exact ⟨h.keeps hk hs, hk.envs, hq⟩

theorem eval (h : Poised t f rest) (hy : y.Safe) {term : Term} (hterm : term.Proper t.envs.size)
    {v : Value} (hrun : Reference.eval (f.context y r rest) term t = (.ok v, t')) :
    Poised t' f rest ∧ t.envs.size ≤ t'.envs.size ∧ v.Proper t'.envs.size :=
  h.of_safe (Reference.safe_eval hterm le_rfl (h.valid hy)) hrun

end Poised

/-- Machines that run the code from `p` to `q` of the closure follow the leader on the term, if
they do so afterwards. -/
def TermPursued (κ : Leeway) (X : Nat → Evaluator) (y : Evaluator) (r : Nat) (c : Closure)
    (depth p : Nat) (term : Term) (q : Nat) : Prop :=
  ∀ ⦃t : Engine⦄ ⦃f : Frame⦄ ⦃rest : List Frame⦄ ⦃K : Value → Eval Value⦄, f.closure = c →
    f.operands.length = depth → Poised t f rest → term.Proper t.envs.size → q < c.code.size →
    (∀ v t', Reference.eval (f.context y r rest) term t = (.ok v, t') →
      Pursues κ X t' (f.withOperands (v :: f.operands)) rest ⟨c, q⟩ r (K v t')) →
    Pursues κ X t f rest ⟨c, p⟩ r ((Reference.eval (f.context y r rest) term >>= K) t)

/-- Machines that run the code from `p` to `q` of the closure follow the leader on the terms, if
they do so afterwards. -/
def BlockPursued (κ : Leeway) (X : Nat → Evaluator) (y : Evaluator) (r : Nat) (c : Closure)
    (depth p : Nat) (terms : List Term) (q : Nat) : Prop :=
  ∀ ⦃t : Engine⦄ ⦃f : Frame⦄ ⦃rest : List Frame⦄ ⦃K : List Value → Eval Value⦄, f.closure = c →
    f.operands.length = depth → Poised t f rest → (∀ term ∈ terms, term.Proper t.envs.size) →
    q < c.code.size →
    (∀ vs t', Reference.evalAll (f.context y r rest) terms t = (.ok vs, t') →
      Pursues κ X t' (f.withOperands (vs.reverse ++ f.operands)) rest ⟨c, q⟩ r (K vs t')) →
    Pursues κ X t f rest ⟨c, p⟩ r ((Reference.evalAll (f.context y r rest) terms >>= K) t)

/-- Machines that call a closure follow the leader, if they do so after the call. -/
def CallsPursued (κ : Leeway) (X : Nat → Evaluator) (y : Evaluator) (r : Nat) : Prop :=
  ∀ ⦃t : Engine⦄ ⦃f : Frame⦄ ⦃rest : List Frame⦄ ⦃K : Value → Eval Value⦄ ⦃p : Nat⦄ ⦃n : UInt16⦄
    ⦃c : Closure⦄ ⦃args operands : List Value⦄, Poised t f rest → c.Callable t.envs.size →
    (∀ v ∈ args, v.Proper t.envs.size) → f.closure.code.decode p = .ok (.call n) →
    f.operands = args.reverse ++ .closure c :: operands → n.toNat = args.length →
    p + 2 < f.closure.code.size →
    (∀ v t', Reference.call y r ((f :: rest).map Frame.env) c args t = (.ok v, t') →
      Pursues κ X t' (f.withOperands (v :: operands)) rest ⟨f.closure, p + 2⟩ r (K v t')) →
    Pursues κ X t f rest ⟨f.closure, p⟩ r
      ((Reference.call y r ((f :: rest).map Frame.env) c args >>= K) t)

/-! ## Terms in a row -/

namespace Reference

theorem evalAll_cons {x : Context} {term : Term} {terms : List Term} {β : Type}
    (K : List Value → Eval β) :
    evalAll x (term :: terms) >>= K =
      eval x term >>= fun v => evalAll x terms >>= fun vs => K (v :: vs) := by
  rw [evalAll]
  simp only [bind_assoc, pure_bind]

theorem evalAll_singleton {x : Context} {term : Term} {β : Type} (K : List Value → Eval β) :
    evalAll x [term] >>= K = eval x term >>= fun v => K [v] := by
  rw [evalAll_cons]
  simp only [evalAll, pure_bind]

/-- The values of terms in a row, one by one. -/
theorem evalAll_eq_ok {x : Context} {term : Term} {terms : List Term} {t t' : Engine}
    {vs : List Value} :
    evalAll x (term :: terms) t = (.ok vs, t') ↔ ∃ v t₁ ws, eval x term t = (.ok v, t₁) ∧
      evalAll x terms t₁ = (.ok ws, t') ∧ vs = v :: ws := by
  rw [evalAll, bind_eq_ok]
  constructor
  · rintro ⟨v, t₁, hv, hrest⟩
    obtain ⟨ws, t₂, hws, hpure⟩ := bind_eq_ok.1 hrest
    cases hpure
    exact ⟨v, t₁, ws, hv, hws, rfl⟩
  · rintro ⟨v, t₁, ws, hv, hws, rfl⟩
    exact ⟨v, t₁, hv, bind_of_ok hws _⟩

theorem length_of_evalAll {x : Context} {terms : List Term} {t t' : Engine} {vs : List Value}
    (h : evalAll x terms t = (.ok vs, t')) : vs.length = terms.length := by
  induction terms generalizing t vs with
  | nil =>
    cases h
    rfl
  | cons term terms ih =>
    obtain ⟨v, t₁, ws, -, hws, rfl⟩ := evalAll_eq_ok.1 h
    rw [List.length_cons, List.length_cons, ih hws]

end Reference

section

variable {κ : Leeway} {X : Nat → Evaluator} {y : Evaluator} {r : Nat} {c : Closure}
  {depth p q e : Nat} {term : Term} {terms : List Term}

theorem BlockPursued.nil : BlockPursued κ X y r c depth p [] p := by
  intro t f rest K hc _ _ _ _ hk
  exact hk [] t rfl

theorem BlockPursued.single (h : BlockPursued κ X y r c depth p [term] q) :
    TermPursued κ X y r c depth p term q := by
  intro t f rest K hc hdepth hp hterm hq hk
  have hblock := @h t f rest (fun vs => K (vs.headD .nil)) hc hdepth hp (by simpa using hterm) hq ?_
  · rwa [Reference.evalAll_singleton] at hblock
  · intro vs t' hrun
    obtain ⟨v, t₁, ws, hv, hws, rfl⟩ := Reference.evalAll_eq_ok.1 hrun
    cases hws
    exact hk v _ hv

theorem BlockPursued.cons (hy : y.Safe) (h : TermPursued κ X y r c depth p term q)
    (hrest : BlockPursued κ X y r c (depth + 1) q terms e) (hle : q ≤ e) :
    BlockPursued κ X y r c depth p (term :: terms) e := by
  intro t f rest K hc hdepth hp hterms he hk
  rw [List.forall_mem_cons] at hterms
  rw [Reference.evalAll_cons]
  refine h hc hdepth hp hterms.1 (hle.trans_lt he) fun v t₁ hv => ?_
  obtain ⟨hp₁, henvs, -⟩ := hp.eval hy hterms.1 hv
  refine hrest (f := f.withOperands (v :: f.operands)) hc (by simp [Frame.withOperands, hdepth])
    (hp₁.withOperands _) (fun u hu => (hterms.2 u hu).mono henvs) he fun vs t₂ hvs => ?_
  have hboth := hk (v :: vs) t₂ (Reference.evalAll_eq_ok.2 ⟨v, t₁, vs, hv, hvs, rfl⟩)
  rw [List.reverse_cons, List.append_assoc] at hboth
  exact hboth

end

/-! ## Terms without parts -/

section

variable {κ : Leeway} {X : Nat → Evaluator} {y : Evaluator} {r : Nat} {c : Closure}
  {depth p q m e : Nat} {i : UInt16}

/-- Pushing a constant. -/
theorem Pursues.const {t : Engine} {f : Frame} {rest : List Frame} {v : Value}
    {o : Except Stop Value × Engine} (hd : f.closure.code.decode p = .ok (.const i))
    (hv : f.closure.constants[i.toNat]? = some v)
    (hlt : f.operands.length < f.closure.code.maxStack)
    (h : Pursues κ X t (f.withOperands (v :: f.operands)) rest ⟨f.closure, p + 2⟩ r o) :
    Pursues κ X t f rest ⟨f.closure, p⟩ r o :=
  h.move fun _ _ _ _ resume _ hs => ⟨resume, performs_const hs hd hv hlt⟩

theorem TermPursued.constant {v : Value} (hd : c.code.decode p = .ok (.const i))
    (hv : c.constants[i.toNat]? = some v) (hlt : depth < c.code.maxStack) :
    TermPursued κ X y r c depth p (.constant v) (p + 2) := by
  rintro t f rest K rfl rfl - - - hk
  have hrun : Reference.eval (f.context y r rest) (.constant v) t = (.ok v, t) := by
    rw [Reference.eval, pure_run]
  rw [bind_of_ok hrun]
  exact .const hd hv hlt (hk v t hrun)

theorem TermPursued.lookup {symbol : Symbol} (hd : c.code.decode p = .ok (.const i))
    (hv : c.constants[i.toNat]? = some (.symbol symbol)) (hlt : depth < c.code.maxStack)
    (hload : c.code.decode (p + 2) = .ok .load) :
    TermPursued κ X y r c depth p (.lookup symbol) (p + 3) := by
  rintro t f rest K rfl rfl - - - hk
  rw [Reference.eval] at hk ⊢
  refine .const hd hv hlt (.anti (.step (.of_performs (Reference.blind_lookup _ _) 0
    fun _ _ _ _ resume _ hs => .inr ⟨resume, performs_load hs hload rfl⟩) hk) (Nat.le_succ r))

theorem TermPursued.function {template : Closure} (hd : c.code.decode p = .ok (.const i))
    (hv : c.constants[i.toNat]? = some (.closure template)) (hlt : depth < c.code.maxStack)
    (hclosure : c.code.decode (p + 2) = .ok .closure) :
    TermPursued κ X y r c depth p (.function template) (p + 3) := by
  rintro t f rest K rfl rfl - - - hk
  rw [Reference.eval] at hk ⊢
  refine .const hd hv hlt (.anti (.step (.of_performs (Reference.blind_bind _ _ _) 0
    fun _ _ _ _ resume hhome hs => .inr ⟨resume, performs_closure hhome hs hclosure rfl⟩) hk)
    (Nat.le_succ r))

/-! ## Terms with parts -/

theorem TermPursued.assignment {way : Assignment} {symbol : Symbol} {value : Term}
    (hd : c.code.decode p = .ok (.const i)) (hv : c.constants[i.toNat]? = some (.symbol symbol))
    (hlt : depth < c.code.maxStack) (hvalue : TermPursued κ X y r c (depth + 1) (p + 2) value q)
    (hway : c.code.decode q = .ok way.instruction) :
    TermPursued κ X y r c depth p (.assignment way symbol value) (q + 1) := by
  rintro t f rest K rfl rfl hp hterm hq hk
  rw [Reference.eval] at hk ⊢
  simp only [bind_assoc, pure_bind]
  have hproper : value.Proper t.envs.size := by
    cases hterm with
    | assignment h => exact h
  refine .const hd hv hlt (hvalue (f := f.withOperands (.symbol symbol :: f.operands)) rfl rfl
    (hp.withOperands _) hproper (by omega) fun v t₁ hv => ?_)
  have hsteps : Steps κ X t₁ (f.withOperands (v :: .symbol symbol :: f.operands)) rest
      ⟨f.closure, q⟩ (Reference.assign f.env way symbol v t₁) ⟨f.closure, q + 1⟩
      (fun _ => f.withOperands (v :: f.operands)) rest :=
    .of_performs (Reference.blind_assign _ _ _ _) 0
      fun _ _ _ _ resume _ hs => .inr ⟨resume, performs_assign hs hway rfl⟩
  refine .anti (.step hsteps fun _ t₂ hassign => hk v t₂ ?_) (Nat.le_succ r)
  exact (bind_of_ok hv _).trans (bind_of_ok hassign _)

theorem TermPursued.conditional {otherwise done : UInt16} {test consequent alternative : Term}
    (hy : y.Safe) (htest : TermPursued κ X y r c depth p test q)
    (hjumpIfNot : c.code.decode q = .ok (.jumpIfNot otherwise))
    (hthen : TermPursued κ X y r c depth (q + 2) consequent m)
    (hjump : c.code.decode m = .ok (.jump done)) (hotherwise : otherwise.toNat = m + 2)
    (helse : TermPursued κ X y r c depth (m + 2) alternative done.toNat) (hle : q + 2 ≤ m)
    (hdone : m + 2 ≤ done.toNat) :
    TermPursued κ X y r c depth p (.conditional test consequent alternative) done.toNat := by
  rintro t f rest K rfl rfl hp hterm hq hk
  obtain ⟨hproper, hproper', hproper''⟩ : test.Proper t.envs.size ∧ consequent.Proper t.envs.size ∧
      alternative.Proper t.envs.size := by
    cases hterm with
    | conditional ht hc ha => exact ⟨ht, hc, ha⟩
  rw [Reference.eval] at hk ⊢
  rw [bind_assoc]
  refine htest rfl rfl hp hproper (by omega) fun v t₁ hv => ?_
  obtain ⟨hp₁, henvs, -⟩ := hp.eval hy hproper hv
  have hrun : ∀ {w t₂}, (if v.isTruthy then Reference.eval (f.context y r rest) consequent
      else Reference.eval (f.context y r rest) alternative) t₁ = (.ok w, t₂) →
      Pursues κ X t₂ (f.withOperands (w :: f.operands)) rest ⟨f.closure, done.toNat⟩ r (K w t₂) :=
    fun hw => hk _ _ (by rw [bind_of_ok hv, hw])
  -- the machines are at the branch that the leader takes
  have hbranch : Pursues κ X t₁ f rest ⟨f.closure, if v.isTruthy then q + 2 else otherwise.toNat⟩ r
      (((if v.isTruthy then Reference.eval (f.context y r rest) consequent
        else Reference.eval (f.context y r rest) alternative) >>= K) t₁) := by
    by_cases htruthy : v.isTruthy
    · simp only [htruthy, if_true] at hrun ⊢
      refine hthen rfl rfl hp₁ (hproper'.mono henvs) (by omega) fun w t₂ hw => ?_
      exact (hrun hw).move fun _ _ _ _ resume _ hs =>
        ⟨resume, performs_jump hs hjump (by omega) hq⟩
    · simp only [htruthy] at hrun ⊢
      rw [hotherwise]
      exact helse rfl rfl hp₁ (hproper''.mono henvs) hq fun w t₂ hw => hrun hw
  have hsize : otherwise.toNat < f.closure.code.size := by omega
  exact hbranch.move fun _ _ _ _ resume _ hs =>
    ⟨resume, performs_jumpIfNot hs hjumpIfNot rfl (by omega) hsize⟩

end

/-! ## Calls -/

section

variable {R : Nat} {X : Nat → Evaluator} {y : Evaluator} {r : Nat} {t : Engine} {f : Frame}
  {rest : List Frame} {p : Nat} {n : UInt16} {args operands : List Value}

/-- An intrinsic function is called outside the machine. -/
theorem Steps.intrinsic (hev : Evaluator.Agree (.lax R) X y) (hp : Poised t f rest) {ref : Ref}
    {function : Intrinsic} (hargs : ∀ v ∈ args, v.Proper t.envs.size)
    (hd : f.closure.code.decode p = .ok (.call n))
    (hf : f.operands = args.reverse ++ .intrinsic ref function :: operands)
    (hn : n.toNat = args.length) :
    Steps (.lax R) X t f rest ⟨f.closure, p⟩ (function.call y args t) ⟨f.closure, p + 2⟩
      (fun v => f.withOperands (v :: operands)) rest := by
  obtain ⟨hspent, hends⟩ := (function.agrees_call hev hargs).tracks hp.sound hp.frame_le
  have hlike : ∀ {home floor s}, Mirrors t f rest home floor s → (Leeway.lax R).Like s t :=
    fun ⟨hhome, hgist, _, hholds⟩ => ⟨hgist, hholds.frame_le hhome, False.elim, trivial⟩
  -- the step stops where the function stops
  have hstop : ∀ {i home floor s stop}, Mirrors t f rest home floor s →
      (function.call (X i) args s).1 = .error stop →
      (step (X i) home ⟨f.closure, p⟩ s).1 = .error stop := by
    rintro i home floor s stop ⟨-, -, resume, hholds⟩ hcall
    have hrun : step (X i) home ⟨f.closure, p⟩ s = _ :=
      intrinsic_run (f := f.resumingAt resume) hholds hd hf hn
    rw [hrun, bind_of_error (Prod.ext hcall rfl)]
  -- it gives up for want of the slots that the function wants above the running calls
  have hgiveUp : ∀ {i home floor s slots}, Mirrors t f rest home floor s →
      (Leeway.lax R).GivesUp slots s.limits.maxSlots s.sp (function.call (X i) args s).1 →
      (Leeway.lax R).GivesUp (height (f :: rest) + slots) s.limits.maxSlots floor
        (step (X i) home ⟨f.closure, p⟩ s).1 := by
    rintro i home floor s slots hs ⟨stop, hcall, hlt, hexhausted⟩
    obtain ⟨resume, hholds⟩ := hs.holds
    rw [Spelled.sp_eq_of_resumingAt hholds, Nat.add_assoc] at hlt
    exact ⟨stop, hstop hs hcall, hlt, hexhausted⟩
  refine ⟨fun ho i hi home floor s hs => ?_, fun ho => ?_⟩
  · exact (hspent ho i hi s (hlike hs)).imp (fun ⟨_, h⟩ => ⟨_, hgiveUp hs h⟩) (hstop hs)
  · obtain ⟨enough, hends⟩ := hends ho
    refine ⟨height (f :: rest) + enough, fun i home floor s hs => ?_⟩
    rcases hends i s (hlike hs) with h | ⟨hi, h⟩ | h
    · exact .inl (hgiveUp hs h)
    · exact .inr (.inl ⟨hi.trans_le (Nat.le_add_left _ _), hstop hs h⟩)
    · obtain ⟨hhome, -, resume, hholds⟩ := hs
      have hperforms : Performs home floor s (step (X i) home ⟨f.closure, p⟩) _ _ _ :=
        performs_intrinsic (f := f.resumingAt resume) hholds hd hf hn fun hrun => by
          have hkeeps := h.keeps
          rwa [hrun] at hkeeps
      have hspares : ∀ {s'}, Engine.Restacks floor (function.call (X i) args s).2 s' →
          s.Spares floor s' := fun hr =>
        ⟨fun i hi slot hslot => hr.slots i hi slot
          (h.keeps.slots i (hi.trans_le (Spelled.floor_le hholds)) slot hslot),
          h.keeps.size.trans hr.size, congrArg Limits.maxSlots (hr.limits.trans h.keeps.limits)⟩
      have hgist : ∀ {s'}, Engine.Restacks floor (function.call (X i) args s).2 s' →
          s'.gist = (function.call y args t).2.gist :=
        fun hr => (Engine.gist_of_core hr.core).trans h.like.gist
      refine .inr (.inr ?_)
      cases hy : function.call y args t with
      | mk result t' =>
        rw [hy] at h hgist
        cases result with
        | error stop =>
          have hcall : function.call (X i) args s = (.error stop, (function.call (X i) args s).2) :=
            Prod.ext h.result rfl
          obtain ⟨s', hx, hr⟩ := hperforms.error hcall
          rw [hx]
          exact ⟨rfl, hspares hr, hgist hr⟩
        | ok v =>
          have hcall : function.call (X i) args s = (.ok v, (function.call (X i) args s).2) :=
            Prod.ext h.result rfl
          obtain ⟨s', hx, hr, hf'⟩ := hperforms.ok hcall
          rw [hx]
          exact ⟨rfl, hspares hr, hhome, hgist hr, resume, hf'⟩

/-- A closure is entered, unless the stack is used up. -/
theorem Steps.enter {c : Closure} (hc : c.Callable t.envs.size)
    (hd : f.closure.code.decode p = .ok (.call n))
    (hf : f.operands = args.reverse ++ .closure c :: operands) (hn : n.toNat = args.length) :
    Steps (.lax R) X t f rest ⟨f.closure, p⟩ (Reference.enter c args t) ⟨c, 1⟩
      (fun env => ⟨c, env, [], 0⟩) (⟨f.closure, f.env, operands, p + 2⟩ :: rest) := by
  -- a call asks for its header and its operands above the running calls
  refine .of_performs (Reference.blind_enter c args)
    (height (f :: rest) + CallFrame.header + c.code.maxStack + 1)
    fun i home floor s resume _ hholds => ?_
  rcases performs_call hc.terms.1 hholds hd hf hn with ⟨hnone, s', hfull, -⟩ | ⟨-, hperforms⟩
  · have hdemand := lt_demand_of_not_admits hnone
    refine .inl ⟨_, congrArg Prod.fst hfull, ?_, _, hdemand, rfl⟩
    simpa only [demand, Spelled.sp_eq_of_resumingAt hholds, Nat.add_assoc] using hdemand
  · exact .inr ⟨0, hperforms⟩

/-- Machines that call a value follow the leader. -/
theorem Pursues.invoke (hev : Evaluator.Agree (.lax R) X y) (hcalls : CallsPursued (.lax R) X y r)
    (hp : Poised t f rest) {callee : Value} (hcallee : callee.Proper t.envs.size)
    (hargs : ∀ v ∈ args, v.Proper t.envs.size) (hd : f.closure.code.decode p = .ok (.call n))
    (hf : f.operands = args.reverse ++ callee :: operands) (hn : n.toNat = args.length)
    (hlt : p + 2 < f.closure.code.size) {K : Value → Eval Value}
    (hk : ∀ v t', Reference.invoke (f.context y r rest) callee args t = (.ok v, t') →
      Pursues (.lax R) X t' (f.withOperands (v :: operands)) rest ⟨f.closure, p + 2⟩ r (K v t')) :
    Pursues (.lax R) X t f rest ⟨f.closure, p⟩ r
      ((Reference.invoke (f.context y r rest) callee args >>= K) t) := by
  -- the leader fails, and so do the machines
  have hfail : (∀ ref function, callee ≠ .intrinsic ref function) → (∀ c, callee ≠ .closure c) →
      Pursues (.lax R) X t f rest ⟨f.closure, p⟩ r
        (((Eval.fail (.wrongType "function" callee) : Eval Value) >>= K) t) := by
    intro hintrinsic hclosure
    have hsteps : Steps (.lax R) X t f rest ⟨f.closure, p⟩
        ((Eval.fail (.wrongType "function" callee) : Eval Value) t) ⟨f.closure, p + 2⟩
        (fun v => f.withOperands (v :: operands)) rest :=
      .of_performs (.throw _) 0 fun i home floor s resume _ hholds => .inr ⟨resume,
        fun hok => (nomatch hok), fun herror => ⟨s, by
          cases herror
          exact performs_uncallable (f := f.resumingAt resume) hholds hd hf hn hintrinsic
            hclosure, by
          cases herror
          exact .refl floor s⟩⟩
    exact (Pursues.step hsteps fun _ _ hok => (nomatch hok)).anti (Nat.le_succ r)
  cases callee with
  | intrinsic ref function =>
    exact (Pursues.step (.intrinsic hev hp hargs hd hf hn) hk).anti (Nat.le_succ r)
  | closure c => exact hcalls hp hcallee.callable hargs hd hf hn hlt hk
  | _ => exact hfail (by simp) (by simp)

/-- Code for a call is pursued if the code for its parts is. -/
theorem TermPursued.call (hev : Evaluator.Agree (.lax R) X y)
    (hcalls : CallsPursued (.lax R) X y r) {c : Closure} {depth q : Nat} {callee : Term}
    {terms : List Term} (hitems : BlockPursued (.lax R) X y r c depth p (callee :: terms) q)
    (hd : c.code.decode q = .ok (.call n)) (hn : n.toNat = terms.length) :
    TermPursued (.lax R) X y r c depth p (.call callee terms) (q + 2) := by
  rintro t f rest K rfl rfl hp hterm hq hk
  have hproper : ∀ term ∈ callee :: terms, term.Proper t.envs.size := by
    cases hterm with
    | call hcallee hterms => exact List.forall_mem_cons.2 ⟨hcallee, hterms⟩
  -- the leader evaluates the callee and the arguments in a row
  have heval : ∀ {β : Type} (K : Value → Eval β),
      Reference.eval (f.context y r rest) (.call callee terms) >>= K =
        Reference.evalAll (f.context y r rest) (callee :: terms) >>= fun items =>
          Reference.invoke (f.context y r rest) (items.headD .nil) items.tail >>= K := by
    intro β K
    rw [Reference.evalAll_cons, Reference.eval]
    simp only [bind_assoc, List.headD_cons, List.tail_cons]
  rw [heval]
  refine hitems rfl rfl hp hproper (by omega) fun items t₁ hrun => ?_
  obtain ⟨hp₁, -, hitems₁⟩ := hp.of_safe
    (Reference.safe_evalAll hproper le_rfl (hp.valid hev.safe)) hrun
  have hlength := Reference.length_of_evalAll hrun
  obtain ⟨v, vs, rfl⟩ := List.exists_cons_of_length_eq_add_one hlength
  rw [List.length_cons, List.length_cons, Nat.succ_inj] at hlength
  obtain ⟨hv, hvs⟩ := List.forall_mem_cons.1 hitems₁
  refine .invoke hev hcalls (hp₁.withOperands ((v :: vs).reverse ++ f.operands)) hv hvs hd ?_
    (hn.trans hlength.symm) hq fun w t₂ hw => hk w t₂ ?_
  · rw [Frame.withOperands, List.reverse_cons, List.append_assoc, List.singleton_append]
  · have hcall := heval pure
    rw [bind_pure] at hcall
    rw [hcall, bind_of_ok hrun, bind_pure]
    exact hw

/-! ## Code -/

/-- Blocks of finished code are pursued. -/
theorem Block.pursued (hev : Evaluator.Agree (.lax R) X y)
    (hcalls : CallsPursued (.lax R) X y r) {c : Closure} {depth p q : Nat} {terms : List Term}
    (h : Block c depth p terms q) : BlockPursued (.lax R) X y r c depth p terms q := by
  induction h with
  | nil => exact BlockPursued.nil
  | constant hd hv hlt hrest ih =>
    exact BlockPursued.cons hev.safe (TermPursued.constant hd hv hlt) ih hrest.le
  | lookup hd hv hlt hload hrest ih =>
    exact BlockPursued.cons hev.safe (TermPursued.lookup hd hv hlt hload) ih hrest.le
  | conditional _ hjumpIfNot hthen hjump hotherwise helse hrest iht ihc iha ih =>
    exact BlockPursued.cons hev.safe (TermPursued.conditional hev.safe iht.single hjumpIfNot
      ihc.single hjump hotherwise iha.single hthen.le helse.le) ih hrest.le
  | assignment hd hv hlt _ hway hrest ihv ih =>
    exact BlockPursued.cons hev.safe (TermPursued.assignment hd hv hlt ihv.single hway) ih hrest.le
  | function hd hv hlt hclosure hrest ih =>
    exact BlockPursued.cons hev.safe (TermPursued.function hd hv hlt hclosure) ih hrest.le
  | call _ hd hn hrest iht ih =>
    exact BlockPursued.cons hev.safe (TermPursued.call hev hcalls iht hd hn) ih hrest.le

/-- Machines that run the body of a function follow the leader, if they do so from the return
on. -/
theorem Body.pursues (hev : Evaluator.Agree (.lax R) X y) (hcalls : CallsPursued (.lax R) X y r)
    {c : Closure} {body : List Term} (h : Body c p body) {K : Value → Eval Value}
    (hc : f.closure = c) (hempty : f.operands = []) (hp : Poised t f rest)
    (hbody : ∀ term ∈ body, term.Proper t.envs.size)
    (hk : ∀ v t' q, Reference.evalBody (f.context y r rest) body t = (.ok v, t') →
      c.code.decode q = .ok .ret →
      Pursues (.lax R) X t' (f.withOperands [v]) rest ⟨c, q⟩ r (K v t')) :
    Pursues (.lax R) X t f rest ⟨c, p⟩ r
      ((Reference.evalBody (f.context y r rest) body >>= K) t) := by
  subst hc
  -- on the forms of the body: each but the last is evaluated and its value dropped
  induction h generalizing t with
  | @last p q term hb hret _ =>
    have hterm := BlockPursued.single (hb.pursued hev hcalls)
    refine hterm rfl (by rw [hempty]; rfl) hp (hbody term (by simp)) (Code.lt_size_of_decode hret)
      fun v t' hv => ?_
    rw [hempty]
    exact hk v t' q hv hret
  | @cons p q term others hb hpop hothers ih =>
    obtain ⟨next, others, rfl⟩ : ∃ next more, others = next :: more := by
      cases hothers <;> exact ⟨_, _, rfl⟩
    rw [List.forall_mem_cons] at hbody
    have hfirst : Reference.evalBody (f.context y r rest) (term :: next :: others) =
        Reference.eval (f.context y r rest) term >>= fun _ =>
          Reference.evalBody (f.context y r rest) (next :: others) := rfl
    rw [hfirst] at hk ⊢
    rw [bind_assoc]
    have hterm := BlockPursued.single (hb.pursued hev hcalls)
    refine hterm rfl (by rw [hempty]; rfl) hp hbody.1 (Code.lt_size_of_decode hpop)
      fun v t₁ hv => ?_
    obtain ⟨hp₁, henvs, -⟩ := hp.eval hev.safe hbody.1 hv
    have hnext := ih hp₁ (fun term hterm => (hbody.2 term hterm).mono henvs)
      fun w t' q hw hret => hk w t' q ((bind_of_ok hv _).trans hw) hret
    exact hnext.move fun _ _ _ _ resume _ hs => ⟨resume, performs_pop hs hpop rfl⟩

/-- Machines that call closures follow a leader that may nest calls `r` deep. -/
theorem callsPursued (hev : Evaluator.Agree (.lax R) X y) (r : Nat) :
    CallsPursued (.lax R) X y r := by
  induction r with
  | zero =>
    -- the leader has no fuel, and the machines have none either
    intro t f rest K p n c args operands _ _ _ _ _ _ _ _
    refine ⟨fun _ i _ m hm home floor s _ => .inr ?_, fun ho => absurd rfl ho⟩
    rw [Nat.le_zero.1 hm]
    rfl
  | succ r ih =>
    intro t f rest K p n c args operands hp hc hargs hd hf hn hlt hk
    rw [Reference.call, bind_assoc]
    refine .step (.enter hc hd hf hn) fun env t₁ henter => ?_
    obtain ⟨hp₁, henvs, rfl, hsize, -⟩ := hp.of_safe (Reference.safe_enter hc hargs) henter
    obtain ⟨himplements, hterms⟩ := hc.terms
    refine himplements.body.pursues hev ih rfl rfl ?_
      (fun term hterm => (hterms term hterm).mono henvs) fun v t' q hv hret => ?_
    · refine ⟨hp₁.sound, hp₁.frame_le, hsize ▸ Nat.lt_succ_self _, List.pairwise_cons.2
        ⟨(hp.valid hev.safe (r := r)).lt, hp.scopes⟩⟩
    · have hreturned : Pursues (.lax R) X t' (f.withOperands (v :: operands)) rest
          ⟨f.closure, p + 2⟩ r (K v t') :=
        (hk v t' ((bind_of_ok henter _).trans hv)).anti (Nat.le_succ r)
      exact hreturned.move fun i home floor s resume hhome hs =>
        ⟨p + 2, performs_return (f := ⟨c, _, [v], resume⟩) hhome hs hret rfl (Nat.succ_pos _) hlt⟩

end

end StackLisp

import StackLisp.Proofs.Running

/-!
# What terms come to

The judgement on runs, lifted to the terms that the code was compiled from. A term, terms in a row
and a call each come to a value or an error of which something holds, whatever the machine does
afterwards; each says how many steps it takes at most.

- `Evals`, `EvalsAll`: terms, evaluated in the environment of a call;
- `Responds`: calls of a value;
- `Evals.call`, `Evals.conditional` and so on: one rule for each kind of term;
- `Responds.closure`: a call of a closure comes to what its body comes to;
- `Machine.CallEnds`, `Machine.applyWith_ends`: so does a call from outside the machine.
-/

namespace StackLisp

open Eval

/-- The code for terms in a row is code for the first one and then code for the others. -/
theorem Block.split {c : Closure} {depth p q : Nat} {term : Term} {terms : List Term}
    (h : Block c depth p (term :: terms) q) :
    ∃ m, Block c depth p [term] m ∧ Block c (depth + 1) m terms q := by
  cases h with
  | constant hd hv hlt h => exact ⟨_, .constant hd hv hlt .nil, h⟩
  | lookup hd hv hlt hload h => exact ⟨_, .lookup hd hv hlt hload .nil, h⟩
  | conditional htest hif hthen hjump ho helse h =>
    exact ⟨_, .conditional htest hif hthen hjump ho helse .nil, h⟩
  | assignment hd hv hlt hvalue hway h => exact ⟨_, .assignment hd hv hlt hvalue hway .nil, h⟩
  | function hd hv hlt hclosure h => exact ⟨_, .function hd hv hlt hclosure .nil, h⟩
  | call hitems hd hn h => exact ⟨_, .call hitems hd hn .nil, h⟩

/-- What is known of a result and of the engine that it leaves. -/
abbrev Result (α : Type) := Except Error α → Engine → Prop

/-- A call of the value with the arguments takes at most `n` steps and comes to `P`. -/
def Responds (R : Regime) (ev : Evaluator) (n : Nat) (t : Engine) (callee : Value)
    (args : List Value) (P : Result Value) : Prop :=
  ∀ (f : Frame) (rest : List Frame) (p : Nat) (count : UInt16) (operands : List Value) (m : Nat)
    (Q : Result Value), f.closure.code.decode p = .ok (.call count) →
    f.operands = args.reverse ++ callee :: operands → count.toNat = args.length →
    p + 2 < f.closure.code.size →
    (∀ v t', R.allows t t' → P (.ok v) t' →
      Runs R ev m t' (f.withOperands (v :: operands)) rest (p + 2) Q) →
    (∀ error t', R.allows t t' → P (.error error) t' → Q (.error error) t') →
    Runs R ev (n + m) t f rest p Q

/-- In an environment, with the environments of the calls around, the term takes at most `n` steps
and comes to `P`. -/
def Evals (R : Regime) (ev : Evaluator) (n : Nat) (t : Engine) (env : EnvId)
    (callers : List EnvId) (term : Term) (P : Result Value) : Prop :=
  ∀ (f : Frame) (rest : List Frame) (p q m : Nat) (Q : Result Value), f.env = env →
    rest.map Frame.env = callers → Block f.closure f.operands.length p [term] q →
    q < f.closure.code.size →
    (∀ v t', R.allows t t' → P (.ok v) t' →
      Runs R ev m t' (f.withOperands (v :: f.operands)) rest q Q) →
    (∀ error t', R.allows t t' → P (.error error) t' → Q (.error error) t') →
    Runs R ev (n + m) t f rest p Q

/-- The terms, evaluated one after the other, take at most `n` steps and come to `P`. -/
def EvalsAll (R : Regime) (ev : Evaluator) (n : Nat) (t : Engine) (env : EnvId)
    (callers : List EnvId) (terms : List Term) (P : Result (List Value)) : Prop :=
  ∀ (f : Frame) (rest : List Frame) (p q m : Nat) (Q : Result Value), f.env = env →
    rest.map Frame.env = callers → Block f.closure f.operands.length p terms q →
    q < f.closure.code.size →
    (∀ vs t', vs.length = terms.length → R.allows t t' → P (.ok vs) t' →
      Runs R ev m t' (f.withOperands (vs.reverse ++ f.operands)) rest q Q) →
    (∀ error t', R.allows t t' → P (.error error) t' → Q (.error error) t') →
    Runs R ev (n + m) t f rest p Q

variable {R : Regime} {ev : Evaluator} {n m k : Nat} {t t₁ : Engine} {env : EnvId}
  {callers : List EnvId} {term : Term} {terms : List Term} {P : Result Value}

/-! ## Weakening -/

theorem Responds.mono {callee : Value} {args : List Value} {Q : Result Value}
    (h : Responds R ev n t callee args P) (hnm : n ≤ m)
    (hpq : ∀ r t', R.allows t t' → P r t' → Q r t') : Responds R ev m t callee args Q :=
  fun f rest p count operands k _ hd hf hcount hlt hok herror =>
    (h f rest p count operands k _ hd hf hcount hlt
      (fun v t' hallows hp => hok v t' hallows (hpq _ t' hallows hp))
      (fun error t' hallows hp => herror error t' hallows (hpq _ t' hallows hp))).mono
      (Nat.add_le_add_right hnm k)

theorem Evals.mono {Q : Result Value} (h : Evals R ev n t env callers term P) (hnm : n ≤ m)
    (hpq : ∀ r t', R.allows t t' → P r t' → Q r t') : Evals R ev m t env callers term Q :=
  fun f rest p q k _ hf hrest hblock hlt hok herror =>
    (h f rest p q k _ hf hrest hblock hlt
      (fun v t' hallows hp => hok v t' hallows (hpq _ t' hallows hp))
      (fun error t' hallows hp => herror error t' hallows (hpq _ t' hallows hp))).mono
      (Nat.add_le_add_right hnm k)

/-! ## Terms -/

namespace Evals

theorem constant {v : Value} (h : P (.ok v) t) : Evals R ev 1 t env callers (.constant v) P := by
  rintro f rest p q m Q - - hblock - hok -
  cases hblock with
  | constant hd hv hlt hnil =>
    cases hnil
    rw [Nat.add_comm]
    exact .pushes hd hv hlt (hok v t (R.refl t) h)

theorem lookup {s : Symbol} {v : Value} (hv : Reference.lookup env s t = (.ok v, t))
    (h : P (.ok v) t) : Evals R ev 2 t env callers (.lookup s) P := by
  rintro f rest p q m Q rfl - hblock - hok -
  cases hblock with
  | lookup hd hs hlt hload hnil =>
    cases hnil
    rw [Nat.add_comm]
    exact .pushes hd hs hlt (.loads hload rfl hv (hok v t (R.refl t) h))

theorem function {template : Closure} {v : Value}
    (hv : Reference.bind env callers template t = (.ok v, t₁)) (hallows : R.allows t t₁)
    (h : P (.ok v) t₁) : Evals R ev 2 t env callers (.function template) P := by
  rintro f rest p q m Q rfl rfl hblock - hok -
  cases hblock with
  | function hd hs hlt hclosure hnil =>
    cases hnil
    rw [Nat.add_comm]
    exact .pushes hd hs hlt (.binds hclosure rfl hv hallows (hok v t₁ hallows h))

/-- A value is assigned wherever a term of that value is. -/
theorem assignment {way : Assignment} {target : Symbol} {S : Result Value}
    (hvalue : Evals R ev n t env callers term S)
    (hassign : ∀ v t', R.allows t t' → S (.ok v) t' → ∃ t₁,
      Reference.assign env way target v t' = (.ok (), t₁) ∧ R.allows t' t₁ ∧ P (.ok v) t₁)
    (herror : ∀ error t', R.allows t t' → S (.error error) t' → P (.error error) t') :
    Evals R ev (n + 2) t env callers (.assignment way target term) P := by
  rintro f rest p q m Q rfl rfl hblock hlt hok hstop
  cases hblock with
  | @assignment _ _ e _ _ _ _ _ _ hd hs hroom hinner hway hnil =>
    cases hnil
    have hruns := hvalue (f.withOperands (.symbol target :: f.operands)) rest (p + 2) e (m + 1) Q
      rfl rfl hinner ((Nat.lt_succ_self e).trans hlt) (fun v t' hallows hv => ?_)
      (fun error t' hallows he => hstop error t' hallows (herror error t' hallows he))
    · exact (Runs.pushes hd hs hroom hruns).mono (by omega)
    · obtain ⟨t₁, hrun, hallows₁, hp⟩ := hassign v t' hallows hv
      exact .assigns hway rfl hrun hallows₁ (hok v t₁ (R.trans hallows hallows₁) hp)

/-- One of the branches is evaluated after the test. -/
theorem conditional {test consequent alternative : Term} {S : Result Value}
    (htest : Evals R ev n t env callers test S)
    (hbranch : ∀ v t', R.allows t t' → S (.ok v) t' →
      Evals R ev m t' env callers (if v.isTruthy then consequent else alternative) P)
    (herror : ∀ error t', R.allows t t' → S (.error error) t' → P (.error error) t') :
    Evals R ev (n + m + 2) t env callers (.conditional test consequent alternative) P := by
  rintro f rest p q k Q rfl rfl hblock hlt hok hstop
  cases hblock with
  | @conditional _ _ e l otherwise done _ _ _ _ ht hif hc hjump ho ha _ hnil =>
    cases hnil
    have hle := hc.le
    have hover := ha.le
    have hthen : l < f.closure.code.size := by omega
    refine (htest f rest p e (m + k + 2) Q rfl rfl ht (by omega) (fun v t' hallows hv => ?_)
      (fun error t' hallows he => hstop error t' hallows (herror error t' hallows he))).mono
      (by omega)
    have hrest := hbranch v t' hallows hv
    have hotherwise : otherwise.toNat < f.closure.code.size := by omega
    refine .branches (n := m + k + 1) hif rfl (by omega) hotherwise ?_
    by_cases htruthy : v.isTruthy
    · simp only [htruthy, if_true] at hrest ⊢
      -- the consequent ends before the jump over the alternative
      refine hrest (f.withOperands f.operands) rest (e + 2) l (k + 1) Q rfl rfl hc hthen
        (fun w t'' hallows' hw => ?_)
        (fun error t'' hallows' => hstop error t'' (R.trans hallows hallows'))
      exact .jumps hjump (by omega) hlt (hok w t'' (R.trans hallows hallows') hw)
    · simp only [htruthy, ho] at hrest ⊢
      refine (hrest (f.withOperands f.operands) rest (l + 2) done.toNat k Q rfl rfl ha hlt
        (fun w t'' hallows' hw => hok w t'' (R.trans hallows hallows') hw)
        (fun error t'' hallows' => hstop error t'' (R.trans hallows hallows'))).mono (by omega)

/-- The function and its arguments are evaluated in a row, and then the function is called. -/
theorem call {callee : Term} {args : List Term} {S : Result (List Value)}
    (hitems : EvalsAll R ev n t env callers (callee :: args) S)
    (hcall : ∀ v vs t', R.allows t t' → S (.ok (v :: vs)) t' → Responds R ev m t' v vs P)
    (herror : ∀ error t', R.allows t t' → S (.error error) t' → P (.error error) t') :
    Evals R ev (n + m) t env callers (.call callee args) P := by
  rintro f rest p q k Q rfl rfl hblock hlt hok hstop
  cases hblock with
  | @call _ _ e _ count _ _ _ hinner hd hn hnil =>
    cases hnil
    -- the items are evaluated up to the call, with fuel left for it
    have hruns := hitems f rest p e (m + k) Q rfl rfl hinner (by omega)
      (fun vs t' hlength hallows hvs => ?_)
      (fun error t' hallows he => hstop error t' hallows (herror error t' hallows he))
    · rwa [Nat.add_assoc]
    · obtain ⟨v, vs, rfl⟩ := List.exists_cons_of_length_eq_add_one hlength
      rw [List.length_cons, List.length_cons, Nat.succ_inj] at hlength
      refine hcall v vs t' hallows hvs (f.withOperands ((v :: vs).reverse ++ f.operands)) rest e
        count f.operands k Q hd ?_ (hn.trans hlength.symm) hlt
        (fun w t'' hallows' hw => hok w t'' (R.trans hallows hallows') hw)
        (fun error t'' hallows' => hstop error t'' (R.trans hallows hallows'))
      rw [Frame.withOperands, List.reverse_cons, List.append_assoc, List.singleton_append]

end Evals

namespace EvalsAll

variable {S : Result (List Value)}

theorem nil (h : S (.ok []) t) : EvalsAll R ev 0 t env callers [] S := by
  rintro f rest p q m Q - - hblock - hok -
  cases hblock
  rw [Nat.zero_add]
  exact hok [] t rfl (R.refl t) h

/-- The first term is evaluated, and then the others. -/
theorem cons (hfirst : Evals R ev n t env callers term P)
    (hothers : ∀ v t', R.allows t t' → P (.ok v) t' →
      EvalsAll R ev m t' env callers terms fun r t'' => S (r.map (v :: ·)) t'')
    (herror : ∀ error t', R.allows t t' → P (.error error) t' → S (.error error) t') :
    EvalsAll R ev (n + m) t env callers (term :: terms) S := by
  rintro f rest p q k Q rfl rfl hblock hlt hok hstop
  obtain ⟨e, hterm, hterms⟩ := hblock.split
  have hruns := hfirst f rest p e (m + k) Q rfl rfl hterm (hterms.le.trans_lt hlt)
    (fun v t' hallows hv => ?_)
    (fun error t' hallows he => hstop error t' hallows (herror error t' hallows he))
  · rwa [Nat.add_assoc]
  · refine hothers v t' hallows hv (f.withOperands (v :: f.operands)) rest e q k Q rfl rfl hterms
      hlt
      (fun vs t'' hlength hallows' hvs => ?_)
      (fun error t'' hallows' he => hstop error t'' (R.trans hallows hallows') he)
    have hrun := hok (v :: vs) t'' (by rw [List.length_cons, hlength, List.length_cons])
      (R.trans hallows hallows') hvs
    rwa [List.reverse_cons, List.append_assoc] at hrun

end EvalsAll

/-! ## Calls -/

namespace Responds

variable {args : List Value}

theorem intrinsic {ref : Ref} {function : Intrinsic} {r : Except Error Value}
    (hmodest : Runs.Modest (function.call ev args))
    (hrun : function.call ev args t = (r.mapError .fault, t₁)) (hallows : R.allows t t₁)
    (h : P r t₁) : Responds R ev 1 t (.intrinsic ref function) args P := by
  intro f rest p count operands m Q hd hf hcount hlt hok herror
  rw [Nat.add_comm]
  refine .applies hd hf hcount hmodest hrun hallows (fun error hr => ?_) (fun v hr => ?_)
  · exact herror error t₁ hallows (hr ▸ h)
  · exact hok v t₁ hallows (hr ▸ h)

/-- A closure with one term for a body comes to what the term comes to in a new environment. -/
theorem closure {c : Closure} (hc : c.Implements [term])
    (henter : Reference.enter c args t = (.ok env, t₁)) (hallows : R.allows t t₁)
    (hbody : ∀ callers, Evals R ev n t₁ env callers term P) :
    Responds R ev (n + 2) t (.closure c) args P := by
  intro f rest p count operands m Q hd hf hcount hlt hok herror
  have hbody₁ := hc.body
  cases hbody₁ with
  | @last _ e _ hblock hret _ =>
    have hruns := hbody (f.env :: rest.map Frame.env) ⟨c, env, [], 0⟩
      (⟨f.closure, f.env, operands, p + 2⟩ :: rest) 1 e (m + 1) Q rfl rfl hblock
      (Code.lt_size_of_decode hret) (fun v t' hallows' hv => ?_)
      (fun error t' hallows' => herror error t' (R.trans hallows hallows'))
    · exact (Runs.enters hc hd hf hcount henter hallows hruns).mono (by omega)
    · have hcaller := hok v t' (R.trans hallows hallows') hv
      exact .returns hret rfl (Nat.succ_pos _) hlt (hcaller.resuming (p + 2))
  | cons _ _ hrest => cases hrest

end Responds

namespace Machine

variable {c : Closure} {args : List Value} {e : Engine}

/-- A call of the closure from outside comes to `P`, unless the stack is used up, or the fuel. -/
def CallEnds (R : Regime) (ev : Evaluator) (n : Nat) (e : Engine) (c : Closure)
    (args : List Value) (P : Result Value) : Prop :=
  ∀ fuel, ∃ t', (applyWith ev fuel c args e).2.core = Engine.core { t' with depth := e.depth } ∧
    R.allows { e with depth := e.depth + 1 } t' ∧
    Ending P (e.limits.maxSlots < e.sp + args.length + (n + 2) * stride) (fuel < n + 1)
      (applyWith ev fuel c args e).1 t'

/-- Code that is started from outside ends like the term that it was compiled from, unless there is
no room on the stack for the start. -/
theorem callWith_ends {s : Engine} (hc : c.Implements [term]) (hframe : s.frame ≤ s.sp)
    (henter : Reference.enter c args s = (.ok env, t₁)) (hallows : R.allows s t₁)
    (hbody : Evals R ev n t₁ env [] term P) (fuel : Nat) :
    ∃ t', (callWith ev fuel c args s).2.core = t'.core ∧ R.allows s t' ∧
      Ending P (s.limits.maxSlots < s.sp + args.length + (n + 2) * stride) (fuel < n + 1)
        (callWith ev fuel c args s).1 t' := by
  have hmax := c.code.maxStack_lt
  rw [callWith_run, start]
  rcases pushCall_run c args s with ⟨hfull, hpush⟩ | ⟨-, s₁, hpush, hr, hprepared⟩
  -- the arguments do not fit on the stack
  · rw [bind_of_error (bind_of_error hpush _)]
    refine ⟨s, rfl, R.refl s, .full ?_⟩
    by_contra hle
    refine hfull (.inr ?_)
    simp only [stride] at hle
    omega
  rcases performs_enter hc hprepared with ⟨hfull, hrun⟩ | ⟨-, hperforms⟩
  -- the operands that the code may need do not fit on the stack
  · have hstart : (pushCall c args >>= fun _ => CallFrame.enter args.length) s =
        (.error (overflow (demand c s₁.sp) s₁), s₁) := by rw [bind_of_ok hpush, hrun]
    rw [bind_of_error hstart]
    refine ⟨s, hr.core, R.refl s, .full ?_⟩
    by_contra hle
    refine hfull fun _ => .inr ?_
    rw [hr.limits, demand, hprepared.sp, CallFrame.header]
    simp only [stride] at hle
    omega
  · obtain ⟨s₂, hrun, hcore, hholds⟩ :=
      hperforms.ok_of_core (Reference.blind_enter c args) hr.core henter
    have hstart : (pushCall c args >>= fun _ => CallFrame.enter args.length) s =
        (.ok ⟨c, 1⟩, s₂) := by rw [bind_of_ok hpush, hrun]
    rw [bind_of_ok hstart]
    have hbody₁ := hc.body
    cases hbody₁ with
    | @last _ q _ hblock hret _ =>
      have hruns : Runs R ev (n + 1) t₁ ⟨c, env, [], 0⟩ [] 1 P :=
        hbody ⟨c, env, [], 0⟩ [] 1 q 1 P rfl rfl hblock (Code.lt_size_of_decode hret)
          (fun v t' _ hv => .finishes hret rfl hv) (fun _ _ _ h => h)
      obtain ⟨t', hcore', hallows', hending⟩ := hruns s.frame s.sp fuel s₂
        ⟨hframe, Engine.gist_of_core hcore, 0, hholds⟩ (Engine.limits_of_core hcore)
      refine ⟨t', hcore', R.trans hallows hallows', hending.mono (fun _ => id) (fun hlt => ?_) id⟩
      simp only [R.limits hallows, height_cons, height_nil, List.length_nil, stride] at hlt ⊢
      omega
    | cons _ _ hrest => cases hrest

/-- A call from outside of a closure with one term for a body ends like the term. -/
theorem applyWith_ends (hc : c.Implements [term]) (hframe : e.frame ≤ e.sp)
    (hdepth : e.depth < e.limits.maxApplyDepth)
    (henter : Reference.enter c args { e with depth := e.depth + 1 } = (.ok env, t₁))
    (hallows : R.allows { e with depth := e.depth + 1 } t₁)
    (hbody : Evals R ev n t₁ env [] term P) : CallEnds R ev n e c args P := by
  intro fuel
  rw [applyWith_run ev fuel c args (Nat.not_le.2 hdepth)]
  obtain ⟨t', hcore, hallows', hending⟩ := callWith_ends (s := { e with depth := e.depth + 1 }) hc
    hframe henter hallows hbody fuel
  exact ⟨t', Engine.core_withDepth e.depth hcore, hallows', hending⟩

end Machine

end StackLisp

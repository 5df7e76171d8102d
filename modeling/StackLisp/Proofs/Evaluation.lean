import StackLisp.Proofs.Builtins

/-!
# The reference evaluator is safe

Evaluating the terms of compiled functions keeps sound engines sound and gives proper values, by
induction on the terms, and for calls on how deep they nest.

- `Reference.Context.Valid`: where terms may be evaluated;
- `Reference.safe_eval`, `Reference.safe_evalBody`: terms and bodies;
- `Reference.safe_call`, `Reference.safe_apply`: calls of closures.
-/

namespace StackLisp

variable [Unbound]

/-- The constants of the term are proper when there are `n` environments, and its function literals
were compiled. -/
def Term.Proper (n : Nat) (t : Term) : Prop :=
  t.All (Value.Proper n) (ClosureOf.Coded (Value.Proper n))

theorem Term.Proper.mono {n m : Nat} (hnm : n ≤ m) {t : Term} (h : t.Proper n) : t.Proper m :=
  Term.All.mono (fun _ => .mono hnm) (fun _ hc => hc.mono fun _ => .mono hnm) h

/-- The terms of a closure that may be called are proper. -/
theorem ClosureOf.Callable.terms {n : Nat} {c : Closure} (h : c.Callable n) :
    c.Implements c.terms ∧ ∀ t ∈ c.terms, t.Proper n := by
  obtain ⟨himplements, hall⟩ := h.coded
  rw [himplements.terms_eq]
  exact ⟨himplements, hall⟩

namespace Reference

open Eval

/-- Closures are called safely, when the environments of the calls around are given, the younger
ones first. -/
def SafeCalls (call : List EnvId → Closure → List Value → Eval Value) : Prop :=
  ∀ {e : Engine} {callers : List EnvId} {c : Closure} {args : List Value},
    (∀ env ∈ callers, env < e.envs.size) → callers.Pairwise (· > ·) → c.Callable e.envs.size →
    (∀ v ∈ args, v.Proper e.envs.size) → (call callers c args).Safe e ProperResult

/-- Terms may be evaluated in the context, when there are `n` environments. -/
structure Context.Valid (n : Nat) (x : Context) : Prop where
  evaluator : x.evaluator.Safe
  call : SafeCalls x.call
  env : x.env < n
  scopes : (x.env :: x.callers).Pairwise (· > ·)

theorem Context.Valid.mono {n m : Nat} {x : Context} (h : x.Valid n) (hnm : n ≤ m) : x.Valid m :=
  { h with env := h.env.trans_le hnm }

/-- The environments of the running calls exist. -/
theorem Context.Valid.lt {n : Nat} {x : Context} (h : x.Valid n) :
    ∀ env ∈ x.env :: x.callers, env < n :=
  List.forall_mem_cons.2 ⟨h.env, fun env hmem =>
    ((List.pairwise_cons.1 h.scopes).1 env hmem).trans h.env⟩

/-- The results are proper values. -/
def ProperResults (vs : List Value) (e : Engine) : Prop :=
  ∀ v ∈ vs, v.Proper e.envs.size

variable {n : Nat} {x : Context} {e : Engine}

theorem safe_invoke (hx : x.Valid e.envs.size) {callee : Value} {args : List Value}
    (hcallee : callee.Proper e.envs.size) (hargs : ∀ v ∈ args, v.Proper e.envs.size) :
    Safe e (invoke x callee args) ProperResult := by
  cases callee with
  | intrinsic ref function => exact (function.agrees_call hx.evaluator.agree hargs).safe
  | closure c => exact hx.call hx.lt hx.scopes hcallee.callable hargs
  | _ => exact .fail (by trivial) _

/-- Terms in a row are safe if the single ones are. -/
theorem safe_evalAll_of {terms : List Term}
    (h : ∀ t ∈ terms, ∀ {e : Engine}, n ≤ e.envs.size → x.Valid e.envs.size →
      Safe e (eval x t) ProperResult) (hn : n ≤ e.envs.size) (hx : x.Valid e.envs.size) :
    Safe e (evalAll x terms) ProperResults := by
  induction terms generalizing e with
  | nil => exact .pure fun _ v hv => nomatch hv
  | cons t terms ih =>
    rw [List.forall_mem_cons] at h
    rw [evalAll]
    refine .bind (h.1 hn hx) fun v e₁ _ hk _ hv => ?_
    refine .bind (ih h.2 (hn.trans hk.envs) (hx.mono hk.envs)) fun vs e₂ _ hk' _ hvs => ?_
    exact .pure fun _ => List.forall_mem_cons.2 ⟨hv.mono hk'.envs, hvs⟩

/-- A term gives a proper value. -/
theorem safe_eval {t : Term} (h : t.Proper n) {e : Engine} (hn : n ≤ e.envs.size)
    (hx : x.Valid e.envs.size) : Safe e (eval x t) ProperResult := by
  -- on the term: environments are only added, so what was proper stays so along the way
  induction h generalizing e with
  | constant hv =>
    rw [eval]
    exact .pure fun _ => hv.mono hn
  | lookup =>
    rw [eval]
    exact safe_lookup _ _
  | conditional _ _ _ iht ihc iha =>
    rw [eval]
    refine .bind (iht hn hx) fun v e₁ _ hk _ _ => ?_
    split
    · exact ihc (hn.trans hk.envs) (hx.mono hk.envs)
    · exact iha (hn.trans hk.envs) (hx.mono hk.envs)
  | assignment _ ih =>
    rw [eval]
    refine .bind (ih hn hx) fun v e₁ _ hk _ hv => ?_
    exact .bind (safe_assign _ _ _ hv) fun _ e₂ _ hk' _ _ => .pure fun _ => hv.mono hk'.envs
  | function _ ht =>
    rw [eval]
    exact safe_bind hx.scopes hx.env (ht.mono fun _ => .mono hn)
  | call _ _ ihf iha =>
    rw [eval]
    refine .bind (ihf hn hx) fun f e₁ _ hk _ hf => ?_
    refine .bind (safe_evalAll_of iha (hn.trans hk.envs) (hx.mono hk.envs))
      fun vs e₂ _ hk' _ hvs => ?_
    exact safe_invoke ((hx.mono hk.envs).mono hk'.envs) (hf.mono hk'.envs) hvs

/-- Terms in a row give proper values. -/
theorem safe_evalAll {terms : List Term} (h : ∀ t ∈ terms, t.Proper n) (hn : n ≤ e.envs.size)
    (hx : x.Valid e.envs.size) : Safe e (evalAll x terms) ProperResults :=
  safe_evalAll_of (fun t ht _ => safe_eval (h t ht)) hn hx

/-- A body gives a proper value. -/
theorem safe_evalBody {body : List Term} (h : ∀ t ∈ body, t.Proper n) {e : Engine}
    (hn : n ≤ e.envs.size) (hx : x.Valid e.envs.size) : Safe e (evalBody x body) ProperResult := by
  match body with
  | [] => exact .pure fun _ => .nil
  | [t] => exact safe_eval (h t (by simp)) hn hx
  | t :: next :: others =>
    rw [List.forall_mem_cons] at h
    refine .bind (safe_eval h.1 hn hx) fun _ e₁ _ hk _ _ => ?_
    exact safe_evalBody h.2 (hn.trans hk.envs) (hx.mono hk.envs)

/-- The context of the terms of a closure that has just been called. -/
theorem Context.Valid.of_enter {ev : Evaluator} (hev : ev.Safe)
    {call : List EnvId → Closure → List Value → Eval Value} (hcall : SafeCalls call)
    {callers : List EnvId} (hlt : ∀ env ∈ callers, env < n) (hscopes : callers.Pairwise (· > ·)) :
    Context.Valid (n + 1) { evaluator := ev, call, env := n, callers } where
  evaluator := hev
  call := hcall
  env := Nat.lt_succ_self n
  scopes := List.pairwise_cons.2 ⟨hlt, hscopes⟩

/-- Calls are safe, however deep they may nest. -/
theorem safe_call {ev : Evaluator} (hev : ev.Safe) (fuel : Nat) : SafeCalls (call ev fuel) := by
  induction fuel with
  | zero => exact fun _ _ _ _ hs _ => ⟨.refl _, hs, trivial⟩
  | succ fuel ih =>
    intro e callers c args hlt hscopes hc hargs
    refine .bind (safe_enter hc hargs) ?_
    rintro env e₁ - hk - ⟨rfl, hsize, -⟩
    refine safe_evalBody hc.terms.2 hk.envs ?_
    rw [hsize]
    exact .of_enter hev ih hlt hscopes

/-- Calls from outside are safe. -/
theorem safe_apply {ev : Evaluator} (hev : ev.Safe) (fuel : Nat) {c : Closure} {args : List Value}
    (hc : c.Callable e.envs.size) (hargs : ∀ v ∈ args, v.Proper e.envs.size) :
    Safe e (apply ev fuel c args) ProperResult := by
  intro hs hframe
  unfold apply nested
  dsimp only
  split
  · exact ⟨.refl e, hs, trivial⟩
  · have hs₀ : Engine.Sound { e with depth := e.depth + 1 } :=
      ⟨hs.globals, hs.bindings, hs.older, hs.hosts⟩
    have hcall := @safe_call _ ev hev fuel { e with depth := e.depth + 1 } [] c args
      (fun _ hmem => nomatch hmem) .nil hc hargs hs₀ hframe
    revert hcall
    rcases call ev fuel [] c args { e with depth := e.depth + 1 } with ⟨_ | v, e'⟩
    all_goals
      rintro ⟨hk, hs', hresult⟩
      exact ⟨⟨⟨hk.limits, hk.hosts, hk.files, rfl, hk.slots, hk.size, hk.bound, hk.envs,
        hk.linked⟩, hk.sp, hk.frame⟩, ⟨hs'.globals, hs'.bindings, hs'.older, hs'.hosts⟩, hresult⟩

end Reference

end StackLisp

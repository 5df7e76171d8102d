import StackLisp.Proofs.Growth

/-!
# Calls while no code runs

The host program, the compiler and the loader call functions from outside of all code.

- `Engine.Idle`: no code is running;
- `Machine.apply_cases`, `Concludes`: how a call ends that is given steps enough;
- `Delivers`, `Enough`: a computation gives a value if there is enough for it;
- `Machine.delivers_apply`, `Setting.Serves.applies`: so do calls of functions that never fail.
-/

namespace StackLisp

/-! ## Calls that are given steps enough -/

/-- No code is running. -/
structure Engine.Idle (e : Engine) : Prop where
  sp : e.sp = 0
  frame : e.frame = 0
  depth : e.depth = 0

namespace Engine

variable {e t r : Engine} {depth depth' : Nat}

/-- What happens to stack and depth does not matter for what is added. -/
theorem Adds.of_core (h : Adds { e with depth } t) (hr : r.core = core { t with depth := depth' }) :
    e.Adds r := by
  rw [eq_withStack_of_core hr]
  exact ⟨h.limits, h.globals, h.kept, h.symbols, h.made, h.ids, h.refs⟩

theorem Gains.of_core (h : Gains { e with depth } t)
    (hr : r.core = core { t with depth := depth' }) : e.Gains r where
  toAdds := .of_core h.toAdds hr
  macros := by
    rw [eq_withStack_of_core hr]
    exact h.macros

theorem Grows.of_core (h : Grows { e with depth } t)
    (hr : r.core = core { t with depth := depth' }) : e.Grows r where
  toAdds := .of_core h.toAdds hr
  macros := by
    rw [eq_withStack_of_core hr]
    exact h.macros

end Engine

/-- A call from outside leaves the pointers as they were. -/
theorem Machine.idle_applyWith {e : Engine} (hidle : e.Idle) (ev : Evaluator) (fuel : Nat)
    (c : Closure) (args : List Value) : (Machine.applyWith ev fuel c args e).2.Idle := by
  by_cases hdeep : e.limits.maxApplyDepth ≤ e.depth
  · rw [Machine.applyWith_of_deep ev fuel c args hdeep]
    exact hidle
  · rw [Machine.applyWith_run ev fuel c args hdeep]
    exact ⟨hidle.sp, hidle.frame, hidle.depth⟩

/-- A call that is given steps enough, while no code runs, comes to what is known of it, or the
stack is used up. -/
theorem Machine.apply_cases {R : Regime} {n : Nat} {e : Engine} {c : Closure} {args : List Value}
    {P : Result Value}
    (h : ∀ ev, e.depth < e.limits.maxApplyDepth → Machine.CallEnds R ev n e c args P)
    (hidle : e.Idle) (hdepth : 0 < e.limits.maxApplyDepth) {fuel : Nat} (hfuel : n + 2 ≤ fuel) :
    ∃ r e' t, (Machine.evaluator fuel).apply c args e = (r, e') ∧ e'.Idle ∧
      e'.core = Engine.core { t with depth := e.depth } ∧
      R.allows { e with depth := e.depth + 1 } t ∧
      ((∃ result : Except Error Value, r = result.mapError .fault ∧ P result t) ∨
        e.limits.maxSlots < args.length + (n + 2) * stride ∧
          ∃ needed limit, r = .error (.fault (.exhausted (.stack needed limit)))) := by
  obtain ⟨fuel, rfl⟩ :=
    Nat.exists_eq_add_one_of_ne_zero (Nat.ne_zero_of_lt (Nat.lt_of_succ_le hfuel))
  have hnot : e.depth < e.limits.maxApplyDepth := by rwa [hidle.depth]
  have hafter := Machine.idle_applyWith hidle (Machine.evaluator fuel) fuel c args
  obtain ⟨t, hcore, hallows, hending⟩ := h (Machine.evaluator fuel) hnot fuel
  -- an idle engine has an empty stack, so what the call needs is all it takes
  rw [hidle.sp, Nat.zero_add] at hending
  change ∃ r e' t, Machine.applyWith (Machine.evaluator fuel) fuel c args e = (r, e') ∧ _
  generalize Machine.applyWith (Machine.evaluator fuel) fuel c args e = outcome at *
  obtain ⟨r, e'⟩ := outcome
  refine ⟨_, _, t, rfl, hafter, hcore, hallows, ?_⟩
  cases hending with
  | ok hv => exact .inl ⟨.ok _, rfl, hv⟩
  | error herror => exact .inl ⟨.error _, rfl, herror⟩
  | full hfull => exact .inr ⟨hfull, _, _, rfl⟩
  | spent hspent => omega

/-- A call gave a result of which `P` holds, or the stack was used up, which has less than `slots`
slots then. Global bindings are as they were, and so are the environments that there were. -/
structure Concludes (e : Engine) (P : Except Error Value → Prop) (slots : Nat)
    (outcome : Except Stop Value × Engine) : Prop where
  result : (∃ r : Except Error Value, outcome.1 = r.mapError .fault ∧ P r) ∨
    e.limits.maxSlots < slots ∧
      ∃ needed limit, outcome.1 = .error (.fault (.exhausted (.stack needed limit)))
  globals : outcome.2.globals = e.globals
  environments : ∀ (env : EnvId) (scope : Environment), e.envs.heap[env]? = some scope →
    outcome.2.envs.heap[env]? = some scope

theorem Concludes.mono {e : Engine} {P Q : Except Error Value → Prop} {slots slots' : Nat}
    {outcome : Except Stop Value × Engine} (h : Concludes e P slots outcome)
    (hpq : ∀ r, P r → Q r) (hle : slots ≤ slots') : Concludes e Q slots' outcome where
  result := h.result.imp (fun ⟨r, hr, hp⟩ => ⟨r, hr, hpq r hp⟩) fun hfull =>
    ⟨hfull.1.trans_le hle, hfull.2⟩
  globals := h.globals
  environments := h.environments

/-! ## Computations that give a value -/

/-- The outcome is a value of which `P` holds, if there is enough for it. -/
def Delivers {α : Type} (enough : Prop) (P : α → Engine → Prop) (outcome : Except Stop α × Engine) :
    Prop :=
  (∃ a e, outcome = (.ok a, e) ∧ P a e) ∨ ¬ enough ∧ ∃ stop e, outcome = (.error stop, e)

namespace Delivers

variable {α β : Type} {enough : Prop} {P : α → Engine → Prop} {Q : β → Engine → Prop}

theorem of_ok {a : α} {e : Engine} (h : P a e) : Delivers enough P (.ok a, e) :=
  .inl ⟨a, e, rfl, h⟩

theorem of_error {stop : Stop} {e : Engine} (h : ¬ enough) : Delivers enough P (.error stop, e) :=
  .inr ⟨h, stop, e, rfl⟩

theorem mono {P' : α → Engine → Prop} {outcome : Except Stop α × Engine}
    (h : Delivers enough P outcome) (hp : ∀ a e, P a e → P' a e) : Delivers enough P' outcome := by
  obtain ⟨a, e, hrun, ha⟩ | hnot := h
  · exact .inl ⟨a, e, hrun, hp a e ha⟩
  · exact .inr hnot

theorem bind {x : Eval α} {f : α → Eval β} {e : Engine} (hx : Delivers enough P (x e))
    (hf : ∀ a e', P a e' → Delivers enough Q (f a e')) : Delivers enough Q ((x >>= f) e) := by
  obtain ⟨a, e', hrun, ha⟩ | ⟨hnot, stop, e', hrun⟩ := hx
  · rw [Eval.bind_of_ok hrun]
    exact hf a e' ha
  · rw [Eval.bind_of_error hrun]
    exact .of_error hnot

end Delivers

/-- There is enough fuel, and the limits leave enough room, to load the library. -/
structure Enough (fuel : Nat) (limits : Limits) : Prop where
  fuel : 300 < fuel
  slots : 300 * stride ≤ limits.maxSlots
  applyDepth : 0 < limits.maxApplyDepth
  compileDepth : 250 ≤ limits.maxCompileDepth

/-- A call that needs little and never fails, while no code runs. -/
theorem Machine.delivers_apply {R : Regime} {n : Nat} {e : Engine} {c : Closure}
    {args : List Value} {P : Result Value}
    (h : ∀ ev, e.depth < e.limits.maxApplyDepth → Machine.CallEnds R ev n e c args P)
    (hp : ∀ error t, ¬ P (.error error) t) (hn : n ≤ 280) (hargs : args.length ≤ stride)
    (hidle : e.Idle) (fuel : Nat) :
    Delivers (Enough fuel e.limits) (fun v e' => e.depth < e.limits.maxApplyDepth ∧ e'.Idle ∧
        ∃ t, e'.core = Engine.core { t with depth := e.depth } ∧
          R.allows { e with depth := e.depth + 1 } t ∧ P (.ok v) t)
      ((Machine.evaluator fuel).apply c args e) := by
  cases fuel with
  | zero => exact .of_error fun henough => absurd henough.fuel (by omega)
  | succ fuel =>
    change Delivers _ _ (Machine.applyWith (Machine.evaluator fuel) fuel c args e)
    by_cases hdeep : e.limits.maxApplyDepth ≤ e.depth
    · rw [Machine.applyWith_of_deep _ fuel c args hdeep]
      refine .of_error fun henough => ?_
      have hdepth := henough.applyDepth
      rw [hidle.depth] at hdeep
      omega
    · have hafter := Machine.idle_applyWith hidle (Machine.evaluator fuel) fuel c args
      obtain ⟨t, hcore, hallows, hending⟩ := h (Machine.evaluator fuel) (Nat.not_le.1 hdeep) fuel
      generalize Machine.applyWith (Machine.evaluator fuel) fuel c args e = outcome at *
      obtain ⟨r, e'⟩ := outcome
      -- each way to fall short is excluded when there is enough of everything
      cases hending with
      | ok hv => exact .of_ok ⟨Nat.not_le.1 hdeep, hafter, t, hcore, hallows, hv⟩
      | error herror => exact absurd herror (hp _ _)
      | full hfull =>
        refine .of_error fun henough => ?_
        have hslots := henough.slots
        have hstrides := Nat.mul_le_mul_right stride (Nat.add_le_add_right hn 2)
        rw [hidle.sp] at hfull
        simp only [stride] at hfull hslots hstrides hargs
        omega
      | spent hspent =>
        refine .of_error fun henough => ?_
        have hfuel := henough.fuel
        omega

/-- A function that is called while no code runs. -/
theorem Setting.Serves.applies {n : Nat} {table : SymbolTable} {named : table.Named} {e : Engine}
    {c : Closure} {args : List Value} {Q : Value → Prop}
    (h : ∀ ev, (Setting.gaining ev table named).Serves { e with depth := e.depth + 1 } n c args
      (Meets Q)) (hn : n ≤ 280) (hargs : args.length ≤ stride) (hidle : e.Idle) (fuel : Nat) :
    Delivers (Enough fuel e.limits) (fun w e' => Q w ∧ e.Gains e' ∧ e'.Idle)
      ((Machine.evaluator fuel).apply c args e) := by
  have hframe : e.frame ≤ e.sp := by rw [hidle.frame]; exact Nat.zero_le _
  refine (Machine.delivers_apply (R := .gaining) (P := fun r _ => Meets Q r)
    (fun ev hdepth => (h ev).ends hframe hdepth) (fun _ _ => not_meets_error) hn hargs
    hidle fuel).mono ?_
  rintro w e' ⟨-, hidle', t, hcore, hgains, hw⟩
  exact ⟨meets_ok.1 hw, .of_core hgains hcore, hidle'⟩

end StackLisp

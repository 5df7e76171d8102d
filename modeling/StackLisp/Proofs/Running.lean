import StackLisp.Proofs.Pursuit

/-!
# How runs end

What is known of a run before it is made: it ends with a result of which something holds, or the
stack is used up, or the machine is given too few steps. Both resources are counted together: a run
that needs `n` steps never grows the stack by more than `n` strides. Until its end a run changes the
engine only as some `Regime` allows, however it ends.

- `Runs`: how the rest of a run ends, for every machine at a place of the code;
- `Runs.advance`: one instruction, and then the rest;
- `Runs.pushes`, `Runs.loads`, `Runs.branches` and so on: the single instructions;
- `Runs.enters`: the start of a call, for which the stack may be too small.
-/

namespace StackLisp

open Eval CallFrame

/-- How an engine may change while code runs. -/
structure Regime where
  allows : Engine → Engine → Prop
  refl : ∀ t, allows t t
  trans : ∀ {a b c}, allows a b → allows b c → allows a c
  limits : ∀ {t t'}, allows t t' → t'.limits = t.limits
  /-- Environments stay as they are. -/
  kept : ∀ {t t'}, allows t t' → ∀ {env : EnvId} {scope : Environment},
    t.envs.heap[env]? = some scope → t'.envs.heap[env]? = some scope

/-- How a computation ends, of which `P` holds when it gives a value or fails. It can run out of
stack only if `full`, and out of steps only if `short`. -/
inductive Ending {α : Type} (P : Except Error α → Engine → Prop) (full short : Prop) :
    Except Stop α → Engine → Prop
  | ok {a : α} {t : Engine} : P (.ok a) t → Ending P full short (.ok a) t
  | error {error : Error} {t : Engine} : P (.error error) t →
      Ending P full short (.error (.fault error)) t
  | full {needed limit : Nat} {t : Engine} : full →
      Ending P full short (.error (.fault (.exhausted (.stack needed limit)))) t
  | spent {t : Engine} : short → Ending P full short (.error .outOfFuel) t

theorem Ending.mono {α : Type} {P Q : Except Error α → Engine → Prop}
    {full short full' short' : Prop}
    {r : Except Stop α} {t : Engine} (h : Ending P full short r t) (hp : ∀ r, P r t → Q r t)
    (hfull : full → full') (hshort : short → short') : Ending Q full' short' r t := by
  cases h with
  | ok h => exact .ok (hp _ h)
  | error h => exact .error (hp _ h)
  | full h => exact .full (hfull h)
  | spent h => exact .spent (hshort h)

section

variable {α β : Type} {home floor : Nat} {s t t' : Engine} {x : Eval β} {y : Eval α}
  {next : α → β} {frames : α → List Frame}

/-- A machine that may have as many slots as the reference does what the reference does. -/
theorem Performs.ok_of_core (h : Performs home floor s x y next frames) (hy : Blind y)
    (hcore : s.core = t.core) {b : α} (hrun : y t = (.ok b, t')) :
    ∃ s', x s = (.ok (next b), s') ∧ s'.core = t'.core ∧ s'.Holds home floor (frames b) := by
  have hrun' := hy.run hcore
  rw [hrun] at hrun'
  obtain ⟨s', hx, hr, hf⟩ := h.ok hrun'
  exact ⟨s', hx, hr.core, hf⟩

theorem Performs.error_of_core (h : Performs home floor s x y next frames) (hy : Blind y)
    (hcore : s.core = t.core) {stop : Stop} (hrun : y t = (.error stop, t')) :
    ∃ s', x s = (.error stop, s') ∧ s'.core = t'.core := by
  have hrun' := hy.run hcore
  rw [hrun] at hrun'
  obtain ⟨s', hx, hr⟩ := h.error hrun'
  exact ⟨s', hx, hr.core⟩

end

/-- No instruction needs more slots than this above the stack pointer. -/
def stride : Nat := 65540

theorem Code.maxStack_lt (code : Code) : code.maxStack < 65536 := by
  unfold maxStack
  split
  · exact UInt16.toNat_lt _
  · omega

/-- A machine that goes on at the position of the call `f` needs at most `n` steps for the rest of
its run, and `P` holds of what it comes to. -/
def Runs (R : Regime) (ev : Evaluator) (n : Nat) (t : Engine) (f : Frame) (rest : List Frame)
    (position : Nat) (P : Except Error Value → Engine → Prop) : Prop :=
  ∀ (home floor fuel : Nat) (s : Engine), Mirrors t f rest home floor s → s.limits = t.limits →
    ∃ t', (Machine.run ev home fuel ⟨f.closure, position⟩ s).2.core = t'.core ∧ R.allows t t' ∧
      Ending P (t.limits.maxSlots < floor + height (f :: rest) + n * stride) (fuel < n)
        (Machine.run ev home fuel ⟨f.closure, position⟩ s).1 t'

namespace Runs

variable {R : Regime} {ev : Evaluator} {n m : Nat} {t t₁ : Engine} {f f' : Frame}
  {rest rest' : List Frame} {p : Nat} {P : Except Error Value → Engine → Prop}

theorem mono (h : Runs R ev n t f rest p P) (hnm : n ≤ m) : Runs R ev m t f rest p P := by
  intro home floor fuel s hs hlimits
  obtain ⟨t', hcore, hallows, hending⟩ := h home floor fuel s hs hlimits
  have hstrides := Nat.mul_le_mul_right stride hnm
  exact ⟨t', hcore, hallows, hending.mono (fun _ => id) (fun _ => by omega) (fun _ => by omega)⟩

/-- Where the call goes on after a call that it makes does not matter yet. -/
theorem resuming (h : Runs R ev n t f rest p P) (resume : Nat) :
    Runs R ev n t (f.resumingAt resume) rest p P :=
  fun home floor fuel s hs => h home floor fuel s ⟨hs.home_le, hs.gist, hs.holds⟩

/-- One instruction that gives `b`, and then the rest. -/
theorem advance {α : Type} {y : Eval α} {b : α} (a' : α → Activation) (f' : α → Frame)
    (hy : Blind y)
    (hstep : ∀ home floor s resume, home ≤ floor →
      s.Holds home floor (f.resumingAt resume :: rest) →
      ∃ resume', Performs home floor s (Machine.step ev home ⟨f.closure, p⟩) y
        (fun b => .running (a' b)) fun b => (f' b).resumingAt resume' :: rest')
    (hrun : y t = (.ok b, t₁)) (hallows : R.allows t t₁)
    (hclosure : (a' b).closure = (f' b).closure)
    (hheight : height (f' b :: rest') ≤ height (f :: rest) + stride)
    (hnext : Runs R ev n t₁ (f' b) rest' (a' b).position P) : Runs R ev (n + 1) t f rest p P := by
  rintro home floor fuel s ⟨hhome, hgist, resume, hholds⟩ hlimits
  have hcore := Engine.core_of_gist hgist hlimits
  cases fuel with
  | zero => exact ⟨t, hcore, R.refl t, .spent (Nat.succ_pos n)⟩
  | succ fuel =>
    -- the machine has the core of the reference, so what `y` gives there it gives here
    obtain ⟨resume', hperforms⟩ := hstep home floor s resume hhome hholds
    obtain ⟨s', hx, hcore', hf⟩ := hperforms.ok_of_core hy hcore hrun
    have hactivation : a' b = ⟨(f' b).closure, (a' b).position⟩ := by rw [← hclosure]
    obtain ⟨t', hcore'', hallows', hending⟩ := hnext home floor fuel s'
      ⟨hhome, Engine.gist_of_core hcore', resume', hf⟩ (Engine.limits_of_core hcore')
    rw [Machine.run_of_running hx, hactivation]
    rw [R.limits hallows] at hending
    refine ⟨t', hcore'', R.trans hallows hallows', hending.mono (fun _ => id) (fun _ => ?_)
      (fun _ => by omega)⟩
    rw [Nat.succ_mul]
    omega

/-- An instruction that only rearranges the stack. -/
theorem move (a' : Activation) (f' : Frame)
    (hstep : ∀ home floor s resume, home ≤ floor →
      s.Holds home floor (f.resumingAt resume :: rest) →
      ∃ resume', Performs home floor s (Machine.step ev home ⟨f.closure, p⟩) (pure ())
        (fun _ => .running a') fun _ => f'.resumingAt resume' :: rest')
    (hclosure : a'.closure = f'.closure)
    (hheight : height (f' :: rest') ≤ height (f :: rest) + stride)
    (hnext : Runs R ev n t f' rest' a'.position P) : Runs R ev (n + 1) t f rest p P :=
  advance (fun _ => a') (fun _ => f') (.pure ()) hstep rfl (R.refl t) hclosure hheight
    hnext

/-! ## Instructions -/

section

variable {v : Value} {operands : List Value}

/-- Putting one value in the place of some operands takes at most one slot more. -/
theorem height_withOperands_le (f : Frame) (rest : List Frame) {operands : List Value}
    (h : operands.length ≤ f.operands.length + 1) :
    height (f.withOperands operands :: rest) ≤ height (f :: rest) + stride := by
  simp only [height_cons, Frame.withOperands, stride]
  omega

theorem pushes {i : UInt16} (hd : f.closure.code.decode p = .ok (.const i))
    (hv : f.closure.constants[i.toNat]? = some v)
    (hlt : f.operands.length < f.closure.code.maxStack)
    (h : Runs R ev n t (f.withOperands (v :: f.operands)) rest (p + 2) P) :
    Runs R ev (n + 1) t f rest p P :=
  .move ⟨f.closure, p + 2⟩ (f.withOperands (v :: f.operands))
    (fun _ _ _ resume _ hs => ⟨resume, Machine.performs_const hs hd hv hlt⟩) rfl
    (height_withOperands_le f rest (by simp)) h

theorem jumps {target : UInt16} (hd : f.closure.code.decode p = .ok (.jump target))
    (hpos : 0 < target.toNat) (hlt : target.toNat < f.closure.code.size)
    (h : Runs R ev n t f rest target.toNat P) : Runs R ev (n + 1) t f rest p P :=
  .move ⟨f.closure, target.toNat⟩ f
    (fun _ _ _ resume _ hs => ⟨resume, Machine.performs_jump hs hd hpos hlt⟩) rfl
    (Nat.le_add_right _ _) h

theorem branches {target : UInt16} (hd : f.closure.code.decode p = .ok (.jumpIfNot target))
    (hf : f.operands = v :: operands) (hpos : 0 < target.toNat)
    (hlt : target.toNat < f.closure.code.size)
    (h : Runs R ev n t (f.withOperands operands) rest
      (if v.isTruthy then p + 2 else target.toNat) P) : Runs R ev (n + 1) t f rest p P :=
  .move ⟨f.closure, if v.isTruthy then p + 2 else target.toNat⟩ (f.withOperands operands)
    (fun _ _ _ resume _ hs => ⟨resume, Machine.performs_jumpIfNot hs hd hf hpos hlt⟩) rfl
    (height_withOperands_le f rest (by rw [hf, List.length_cons]; omega)) h

theorem loads {symbol : Symbol} (hd : f.closure.code.decode p = .ok .load)
    (hf : f.operands = .symbol symbol :: operands)
    (hv : Reference.lookup f.env symbol t = (.ok v, t))
    (h : Runs R ev n t (f.withOperands (v :: operands)) rest (p + 1) P) :
    Runs R ev (n + 1) t f rest p P :=
  .advance (fun _ => ⟨f.closure, p + 1⟩) (fun v => f.withOperands (v :: operands))
    (Reference.blind_lookup _ _)
    (fun _ _ _ resume _ hs => ⟨resume, Machine.performs_load hs hd hf⟩) hv (R.refl t) rfl
    (height_withOperands_le f rest (by rw [hf]; simp)) h

/-- A function literal is bound to the environment of the call. -/
theorem binds {template : Closure} (hd : f.closure.code.decode p = .ok .closure)
    (hf : f.operands = .closure template :: operands)
    (hv : Reference.bind f.env (rest.map Frame.env) template t = (.ok v, t₁))
    (hallows : R.allows t t₁)
    (h : Runs R ev n t₁ (f.withOperands (v :: operands)) rest (p + 1) P) :
    Runs R ev (n + 1) t f rest p P :=
  .advance (fun _ => ⟨f.closure, p + 1⟩) (fun v => f.withOperands (v :: operands))
    (Reference.blind_bind _ _ _)
    (fun _ _ _ resume hhome hs => ⟨resume, Machine.performs_closure hhome hs hd hf⟩) hv hallows rfl
    (height_withOperands_le f rest (by rw [hf]; simp)) h

theorem assigns {way : Assignment} {symbol : Symbol}
    (hd : f.closure.code.decode p = .ok way.instruction)
    (hf : f.operands = v :: .symbol symbol :: operands)
    (hv : Reference.assign f.env way symbol v t = (.ok (), t₁)) (hallows : R.allows t t₁)
    (h : Runs R ev n t₁ (f.withOperands (v :: operands)) rest (p + 1) P) :
    Runs R ev (n + 1) t f rest p P :=
  .advance (fun _ => ⟨f.closure, p + 1⟩) (fun _ => f.withOperands (v :: operands))
    (Reference.blind_assign _ _ _ _)
    (fun _ _ _ resume _ hs => ⟨resume, Machine.performs_assign hs hd hf⟩) hv hallows rfl
    (height_withOperands_le f rest (by rw [hf]; simp)) h

/-- A call returns to the call that made it. -/
theorem returns {g : Frame} (hd : f.closure.code.decode p = .ok .ret) (hf : f.operands = [v])
    (hpos : 0 < g.resume) (hlt : g.resume < g.closure.code.size)
    (h : Runs R ev n t (g.withOperands (v :: g.operands)) rest g.resume P) :
    Runs R ev (n + 1) t f (g :: rest) p P := by
  refine .move ⟨g.closure, g.resume⟩ (g.withOperands (v :: g.operands))
    (fun home floor s resume hhome hs => ⟨g.resume,
      Machine.performs_return (f := f.resumingAt resume) hhome hs hd hf hpos hlt⟩) rfl ?_ h
  simp only [height_cons, Frame.withOperands, List.length_cons, stride]
  omega

/-- The outermost call ends with its value. -/
theorem finishes (hd : f.closure.code.decode p = .ok .ret) (hf : f.operands = [v])
    (h : P (.ok v) t) : Runs R ev 1 t f [] p P := by
  rintro home floor fuel s ⟨hhome, hgist, resume, hholds⟩ hlimits
  have hcore := Engine.core_of_gist hgist hlimits
  cases fuel with
  | zero => exact ⟨t, hcore, R.refl t, .spent Nat.one_pos⟩
  | succ fuel =>
    have hstep : Machine.step ev home ⟨f.closure, p⟩ s = _ :=
      Machine.finish_run (f := f.resumingAt resume) hholds hd hf
    rw [Machine.run_of_returned hstep]
    exact ⟨t, hcore, R.refl t, .ok h⟩

end

/-! ## Calls -/

section

variable {args operands : List Value} {count : UInt16}

/-- The computation neither sees the stack nor leaves anything else undone that running calls rely
on. -/
structure Modest (x : Eval Value) : Prop where
  blind : Blind x
  keeps : ∀ s : Engine, s.Keeps (x s).2

/-- An intrinsic function fails, and the run with it, or its result takes its place. -/
theorem applies {ref : Ref} {function : Intrinsic} {r : Except Error Value}
    (hd : f.closure.code.decode p = .ok (.call count))
    (hf : f.operands = args.reverse ++ .intrinsic ref function :: operands)
    (hcount : count.toNat = args.length) (hmodest : Modest (function.call ev args))
    (hrun : function.call ev args t = (r.mapError .fault, t₁)) (hallows : R.allows t t₁)
    (herror : ∀ error, r = .error error → P (.error error) t₁)
    (h : ∀ v, r = .ok v → Runs R ev n t₁ (f.withOperands (v :: operands)) rest (p + 2) P) :
    Runs R ev (n + 1) t f rest p P := by
  -- the function does not see the stack, so its value only replaces callee and arguments
  have hperforms : ∀ home floor s resume, home ≤ floor →
      s.Holds home floor (f.resumingAt resume :: rest) → ∃ resume',
      Performs home floor s (Machine.step ev home ⟨f.closure, p⟩) (function.call ev args)
        (fun _ => .running ⟨f.closure, p + 2⟩)
        fun v => (f.withOperands (v :: operands)).resumingAt resume' :: rest :=
    fun home floor s resume _ hs => ⟨resume, Machine.performs_intrinsic (f := f.resumingAt resume)
      hs hd hf hcount fun hrun => by
        have hkeeps := hmodest.keeps s
        rwa [hrun] at hkeeps⟩
  cases r with
  | ok v =>
    refine .advance (fun _ => ⟨f.closure, p + 2⟩)
      (fun v => f.withOperands (v :: operands)) hmodest.blind hperforms hrun hallows rfl
      (height_withOperands_le f rest ?_) (h v rfl)
    rw [hf, List.length_append, List.length_cons, List.length_cons]
    omega
  | error error =>
    rintro home floor fuel s ⟨hhome, hgist, resume, hholds⟩ hlimits
    have hcore := Engine.core_of_gist hgist hlimits
    cases fuel with
    | zero => exact ⟨t, hcore, R.refl t, .spent (Nat.succ_pos n)⟩
    | succ fuel =>
      obtain ⟨resume', hperforms⟩ := hperforms home floor s resume hhome hholds
      obtain ⟨s', hx, hcore'⟩ := hperforms.error_of_core hmodest.blind hcore hrun
      rw [Machine.run_of_error hx]
      exact ⟨t₁, hcore', hallows, .error (herror error rfl)⟩

/-- A closure is entered, unless the stack is used up. -/
theorem enters {c : Closure} {body : List Term} {env : EnvId} (hc : c.Implements body)
    (hd : f.closure.code.decode p = .ok (.call count))
    (hf : f.operands = args.reverse ++ .closure c :: operands)
    (hcount : count.toNat = args.length) (henter : Reference.enter c args t = (.ok env, t₁))
    (hallows : R.allows t t₁)
    (h : Runs R ev n t₁ ⟨c, env, [], 0⟩ (⟨f.closure, f.env, operands, p + 2⟩ :: rest) 1 P) :
    Runs R ev (n + 1) t f rest p P := by
  rintro home floor fuel s ⟨hhome, hgist, resume, hholds⟩ hlimits
  have hcore := Engine.core_of_gist hgist hlimits
  cases fuel with
  | zero => exact ⟨t, hcore, R.refl t, .spent (Nat.succ_pos n)⟩
  | succ fuel =>
    -- the machine either runs out of stack or enters the function as the reference does
    rcases Machine.performs_call (f := f.resumingAt resume) hc hholds hd hf hcount with
      ⟨hnone, s', hfull, hrestacks⟩ | ⟨-, hperforms⟩
    · have hstep : Machine.step ev home ⟨f.closure, p⟩ s = _ := hfull
      rw [Machine.run_of_error hstep]
      refine ⟨t, hrestacks.core.trans hcore, R.refl t, .full ?_⟩
      have hsp := Spelled.sp_eq_of_resumingAt hholds
      -- a call asks for a header and room for its operands, together less than a stride
      have hdemand := Machine.lt_demand_of_not_admits hnone
      have hmax := c.code.maxStack_lt
      rw [hlimits, hsp] at hdemand
      simp only [Machine.demand, header] at hdemand
      rw [Nat.succ_mul, stride]
      omega
    · obtain ⟨s', hx, hcore', hf'⟩ :=
        hperforms.ok_of_core (Reference.blind_enter c args) hcore henter
      obtain ⟨t', hcore'', hallows', hending⟩ := h home floor fuel s'
        ⟨hhome, Engine.gist_of_core hcore', 0, hf'⟩ (Engine.limits_of_core hcore')
      have hstep : Machine.step ev home ⟨f.closure, p⟩ s = _ := hx
      rw [Machine.run_of_running hstep]
      rw [R.limits hallows] at hending
      refine ⟨t', hcore'', R.trans hallows hallows', hending.mono (fun _ => id) (fun _ => ?_)
        (fun _ => by omega)⟩
      rw [Nat.succ_mul]
      simp only [height_cons, hf, List.length_append, List.length_reverse, List.length_cons,
        List.length_nil, stride] at *
      omega

end

end Runs

end StackLisp

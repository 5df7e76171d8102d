import StackLisp.Proofs.Evaluation
import StackLisp.Proofs.Transitions

/-!
# Machines that follow the reference evaluator

The reference evaluator leads, and machines with more and more fuel follow it step by step. What
is left to be done is the same on both sides at all times: the leader has a continuation, and the
machines have the frames of the running calls and a position in the code.

- `Mirrors`: a machine stands where the leader does;
- `Steps`: with one instruction the machines do a part of what the leader does;
- `Pursues`: with all further instructions they do the rest of it;
- `Pursues.step`: one step, and then the rest.
-/

namespace StackLisp

open Eval CallFrame

/-- The stack of the machine is used up, which may have so many slots and no more. -/
def StackExhausted (maxSlots : Nat) (stop : Stop) : Prop :=
  ∃ needed, maxSlots < needed ∧ stop = .fault (.exhausted (.stack needed maxSlots))

/-- Machines may run out of stack, if the slots that there may be are less than those in use and
those that there would have to be besides. They need not have the same slots. -/
def Leeway.lax (patience : Nat) : Leeway where
  exact := False
  excused slots maxSlots sp stop := maxSlots < sp + slots ∧ StackExhausted maxSlots stop
  excused_mono hmn h := ⟨h.1.trans_le (Nat.add_le_add_left hmn _), h.2⟩
  patience

/-- The call goes on at another position after the call that it makes. -/
def Frame.resumingAt (f : Frame) (resume : Nat) : Frame :=
  { f with resume }

/-- The same slots are in use for a machine that mirrors `f` and `rest`. -/
theorem Spelled.sp_eq_of_resumingAt {slots : Array Slot} {home floor frame sp resume : Nat}
    {f : Frame} {rest : List Frame}
    (h : Spelled slots home floor (f.resumingAt resume :: rest) frame sp) :
    sp = floor + height (f :: rest) :=
  h.sp_eq

/-- The slots below `floor` are as they were, and so is the limit to the stack. -/
structure Engine.Spares (floor : Nat) (e e' : Engine) : Prop where
  slots : ∀ i < floor, ∀ slot, e.stack.slots[i]? = some slot → e'.stack.slots[i]? = some slot
  size : e.stack.size ≤ e'.stack.size
  limit : e'.limits.maxSlots = e.limits.maxSlots

theorem Engine.Spares.trans {floor : Nat} {e e' e'' : Engine} (h : e.Spares floor e')
    (h' : e'.Spares floor e'') : e.Spares floor e'' where
  slots i hi slot hs := h'.slots i hi slot (h.slots i hi slot hs)
  size := h.size.trans h'.size
  limit := h'.limit.trans h.limit

/-- The machine is where the leader is at the engine `t`: apart from the stack and its limit its
engine is the same, and the stack holds the running calls. Where the innermost one goes on after a
call that it makes does not matter yet. -/
structure Mirrors (t : Engine) (f : Frame) (rest : List Frame) (home floor : Nat) (s : Engine) :
    Prop where
  home_le : home ≤ floor
  gist : s.gist = t.gist
  holds : ∃ resume, s.Holds home floor (f.resumingAt resume :: rest)

variable {α : Type}

/-- What a step of a machine comes to, when the leader's part ends with `o`: the machine is at the
activation `a`, with the frames `f` and `rest`, or stops like the leader. -/
def Lands (home floor : Nat) (s : Engine) (a : Activation) (f : α → Frame) (rest : List Frame) :
    Except Stop Progress × Engine → Except Stop α × Engine → Prop
  | (r, s'), (.ok b, t') =>
    r = .ok (.running a) ∧ s.Spares floor s' ∧ Mirrors t' (f b) rest home floor s'
  | (r, s'), (.error stop, t') => r = .error stop ∧ s.Spares floor s' ∧ s'.gist = t'.gist

/-- From where the leader is, with the frames `f` and `rest`, a step of a machine at `a` does what
the leader did, whose part ended with `o`. -/
structure Steps (κ : Leeway) (X : Nat → Evaluator) (t : Engine) (f : Frame) (rest : List Frame)
    (a : Activation) (o : Except Stop α × Engine) (a' : Activation) (f' : α → Frame)
    (rest' : List Frame) : Prop where
  spent : Spent o.1 → ∀ i ≤ κ.patience, ∀ {home floor s}, Mirrors t f rest home floor s →
    (∃ slots, κ.GivesUp slots s.limits.maxSlots floor (Machine.step (X i) home a s).1) ∨
    Spent (Machine.step (X i) home a s).1
  ends : ¬ Spent o.1 → ∃ enough, ∀ i {home floor s}, Mirrors t f rest home floor s →
    κ.GivesUp enough s.limits.maxSlots floor (Machine.step (X i) home a s).1 ∨
    (i < enough ∧ Spent (Machine.step (X i) home a s).1) ∨
    Lands home floor s a' f' rest' (Machine.step (X i) home a s) o

/-- A machine that started at `s` ended like the leader. -/
structure Arrives (floor : Nat) (s : Engine) (o o' : Except Stop Value × Engine) : Prop where
  result : o.1 = o'.1
  gist : o.2.gist = o'.2.gist
  spares : s.Spares floor o.2

/-- From where the leader is, with the frames `f` and `rest`, machines at `a` do the rest of what
the leader did, which ended with `o`. Machines with at most `r` steps left run out of fuel if the
leader does. -/
structure Pursues (κ : Leeway) (X : Nat → Evaluator) (t : Engine) (f : Frame) (rest : List Frame)
    (a : Activation) (r : Nat) (o : Except Stop Value × Engine) : Prop where
  spent : Spent o.1 → ∀ i ≤ κ.patience, ∀ m ≤ r, ∀ {home floor s}, Mirrors t f rest home floor s →
    (∃ slots, κ.GivesUp slots s.limits.maxSlots floor (Machine.run (X i) home m a s).1) ∨
    Spent (Machine.run (X i) home m a s).1
  ends : ¬ Spent o.1 → ∃ enough, ∀ i m {home floor s}, Mirrors t f rest home floor s →
    κ.GivesUp enough s.limits.maxSlots floor (Machine.run (X i) home m a s).1 ∨
    ((i < enough ∨ m < enough) ∧ Spent (Machine.run (X i) home m a s).1) ∨
    Arrives floor s (Machine.run (X i) home m a s) o

/-! ## Runs -/

namespace Machine

variable {ev : Evaluator} {home m : Nat} {a : Activation} {s s' : Engine}

theorem run_of_running {a' : Activation} (h : step ev home a s = (.ok (.running a'), s')) :
    run ev home (m + 1) a s = run ev home m a' s' := by
  simp only [run, h]

theorem run_of_returned {v : Value} (h : step ev home a s = (.ok (.returned v), s')) :
    run ev home (m + 1) a s = (.ok v, s') := by
  simp only [run, h]

theorem run_of_error {stop : Stop} (h : step ev home a s = (.error stop, s')) :
    run ev home (m + 1) a s = (.error stop, s') := by
  simp only [run, h]

/-- A run stops where its first step stops. -/
theorem run_of_stop {stop : Stop} (h : (step ev home a s).1 = .error stop) :
    (run ev home (m + 1) a s).1 = .error stop := by
  rw [run_of_error (Prod.ext h rfl)]

end Machine

/-! ## Single steps -/

section Performs

variable {β : Type} {home floor : Nat} {s t t' : Engine} {x : Eval β} {y : Eval α} {next : α → β}
  {frames : α → List Frame}

/-- What a construct that does not see the stack does for the leader, the machine does too. -/
theorem Performs.ok_of_gist (h : Performs home floor s x y next frames) (hy : Blind y)
    (hgist : s.gist = t.gist) {b : α} (hrun : y t = (.ok b, t')) :
    ∃ s', x s = (.ok (next b), s') ∧ s.Spares floor s' ∧ s'.gist = t'.gist ∧
      s'.Holds home floor (frames b) := by
  have hrun' := hy.run_gist hgist
  rw [hrun] at hrun'
  obtain ⟨s', hx, hr, hf⟩ := h.ok hrun'
  exact ⟨s', hx, ⟨hr.slots, hr.size, (congrArg Limits.maxSlots hr.limits).trans rfl⟩,
    (Engine.gist_of_core hr.core).trans rfl, hf⟩

theorem Performs.error_of_gist (h : Performs home floor s x y next frames) (hy : Blind y)
    (hgist : s.gist = t.gist) {stop : Stop} (hrun : y t = (.error stop, t')) :
    ∃ s', x s = (.error stop, s') ∧ s.Spares floor s' ∧ s'.gist = t'.gist := by
  have hrun' := hy.run_gist hgist
  rw [hrun] at hrun'
  obtain ⟨s', hx, hr⟩ := h.error hrun'
  exact ⟨s', hx, ⟨hr.slots, hr.size, (congrArg Limits.maxSlots hr.limits).trans rfl⟩,
    (Engine.gist_of_core hr.core).trans rfl⟩

end Performs

section Steps

variable {κ : Leeway} {X : Nat → Evaluator} {t : Engine} {f : Frame} {rest rest' : List Frame}
  {a a' : Activation} {f' : α → Frame}

/-- An instruction that performs a construct which does not see the stack. -/
theorem Steps.of_performs {y : Eval α} (hy : Blind y) (slots : Nat)
    (h : ∀ i home floor s resume, home ≤ floor → s.Holds home floor (f.resumingAt resume :: rest) →
      κ.GivesUp slots s.limits.maxSlots floor (Machine.step (X i) home a s).1 ∨ ∃ resume',
        Performs home floor s (Machine.step (X i) home a) y (fun _ => .running a')
          fun b => (f' b).resumingAt resume' :: rest') :
    Steps κ X t f rest a (y t) a' f' rest' := by
  -- both outcomes of the construct are compared before fuel is looked at
  have hstep : ∀ i {home floor s}, Mirrors t f rest home floor s →
      κ.GivesUp slots s.limits.maxSlots floor (Machine.step (X i) home a s).1 ∨
      Lands home floor s a' f' rest' (Machine.step (X i) home a s) (y t) := by
    rintro i home floor s ⟨hhome, hgist, resume, hholds⟩
    refine (h i home floor s resume hhome hholds).imp_right ?_
    rintro ⟨resume', hperforms⟩
    cases hrun : y t with
    | mk r t' =>
      cases r with
      | error stop =>
        obtain ⟨s', hx, hspares, hgist'⟩ := hperforms.error_of_gist hy hgist hrun
        rw [hx]
        exact ⟨rfl, hspares, hgist'⟩
      | ok b =>
        obtain ⟨s', hx, hspares, hgist', hf⟩ := hperforms.ok_of_gist hy hgist hrun
        rw [hx]
        exact ⟨rfl, hspares, hhome, hgist', resume', hf⟩
  refine ⟨fun hspent i _ _ _ _ hs => (hstep i hs).imp (⟨slots, ·⟩) fun hlands => ?_,
    fun _ => ⟨slots, fun i _ _ _ hs => (hstep i hs).imp_right .inr⟩⟩
  rw [show y t = (.error .outOfFuel, (y t).2) from Prod.ext hspent rfl] at hlands
  exact hlands.1

end Steps

/-! ## The rest of a run -/

namespace Pursues

variable {κ : Leeway} {X : Nat → Evaluator} {t : Engine} {f : Frame} {rest rest' : List Frame}
  {a a' : Activation} {r : Nat} {o : Except Stop Value × Engine}

theorem anti {r' : Nat} (h : Pursues κ X t f rest a r o) (hr : r' ≤ r) :
    Pursues κ X t f rest a r' o :=
  ⟨fun ho i hi m hm => h.spent ho i hi m (hm.trans hr), h.ends⟩

/-- A machine that stops at its first step stops as a whole. -/
theorem givesUp_of_step {i home m slots maxSlots floor : Nat} {s : Engine}
    (h : κ.GivesUp slots maxSlots floor (Machine.step (X i) home a s).1) :
    κ.GivesUp slots maxSlots floor (Machine.run (X i) home (m + 1) a s).1 := by
  obtain ⟨stop, hstop, hexcused⟩ := h
  exact ⟨stop, Machine.run_of_stop hstop, hexcused⟩

/-- Machines stop with the instruction at which the leader stops. -/
theorem step_error {stop : Stop} {t' : Engine} {f' : α → Frame}
    (h : Steps κ X t f rest a (.error stop, t') a' f' rest') :
    Pursues κ X t f rest a (r + 1) (.error stop, t') := by
  obtain ⟨hspent, hends⟩ := h
  refine ⟨fun ho i hi m _ home floor s hs => ?_, fun ho => ?_⟩
  · cases m with
    | zero => exact .inr rfl
    | succ m =>
      exact (hspent (by cases ho; rfl) i hi hs).imp (.imp fun _ => givesUp_of_step)
        Machine.run_of_stop
  · obtain ⟨enough, hends⟩ := hends fun h' => ho (by cases h'; rfl)
    refine ⟨enough + 1, fun i m home floor s hs => ?_⟩
    cases m with
    | zero => exact .inr (.inl ⟨.inr (Nat.succ_pos _), rfl⟩)
    | succ m =>
      rcases hends i hs with h' | ⟨hi, h'⟩ | ⟨hstep, hspares, hgist⟩
      · exact .inl ((givesUp_of_step h').mono (Nat.le_succ _))
      · exact .inr (.inl ⟨.inl (hi.trans (Nat.lt_succ_self _)), Machine.run_of_stop h'⟩)
      · rw [Machine.run_of_error (Prod.ext hstep rfl)]
        exact .inr (.inr ⟨rfl, hgist, hspares⟩)

/-- When the instruction goes well for the leader, the rest of the run decides. -/
theorem step_ok {b : α} {t' : Engine} {f' : α → Frame}
    (h : Steps κ X t f rest a (.ok b, t') a' f' rest')
    (hrest : Pursues κ X t' (f' b) rest' a' r o) : Pursues κ X t f rest a (r + 1) o := by
  have hnot : ¬ Spent (Except.ok b : Except Stop α) := nofun
  obtain ⟨enough, hends⟩ := h.2 hnot
  obtain ⟨hspent', hends'⟩ := hrest
  refine ⟨fun ho i hi m hm home floor s hs => ?_, fun ho => ?_⟩
  · cases m with
    | zero => exact .inr rfl
    | succ m =>
      rcases hends i hs with h' | ⟨-, h'⟩ | ⟨hstep, hspares, hs'⟩
      · exact .inl ⟨enough, givesUp_of_step h'⟩
      · exact .inr (Machine.run_of_stop h')
      · rw [Machine.run_of_running (Prod.ext hstep rfl), ← hspares.limit]
        exact hspent' ho i hi m (Nat.le_of_succ_le_succ hm) hs'
  · obtain ⟨enough', hends'⟩ := hends' ho
    -- one more for the step itself
    refine ⟨max enough enough' + 1, fun i m home floor s hs => ?_⟩
    cases m with
    | zero => exact .inr (.inl ⟨.inr (Nat.succ_pos _), rfl⟩)
    | succ m =>
      rcases hends i hs with h' | ⟨hi, h'⟩ | ⟨hstep, hspares, hs'⟩
      · exact .inl ((givesUp_of_step h').mono (by omega))
      · exact .inr (.inl ⟨.inl (by omega), Machine.run_of_stop h'⟩)
      · rw [Machine.run_of_running (Prod.ext hstep rfl), ← hspares.limit]
        rcases hends' i m hs' with h' | ⟨hlt, h'⟩ | h'
        · exact .inl (h'.mono (by omega))
        · exact .inr (.inl ⟨by omega, h'⟩)
        · exact .inr (.inr ⟨h'.result, h'.gist, hspares.trans h'.spares⟩)

/-- Machines do a part of what the leader does with one instruction, and the rest after it. -/
theorem step {y : Eval α} {G : α → Eval Value} {f' : α → Frame}
    (h : Steps κ X t f rest a (y t) a' f' rest')
    (hg : ∀ b t', y t = (.ok b, t') → Pursues κ X t' (f' b) rest' a' r (G b t')) :
    Pursues κ X t f rest a (r + 1) ((y >>= G) t) := by
  cases hy : y t with
  | mk result t' =>
    rw [hy] at h
    cases result with
    | error stop =>
      rw [bind_of_error hy]
      exact step_error h
    | ok b =>
      rw [bind_of_ok hy]
      exact step_ok h (hg b t' hy)

/-- An instruction that only rearranges the stack. -/
theorem move {f' : Frame} (h : Pursues κ X t f' rest' a' r o)
    (hmove : ∀ i home floor s resume, home ≤ floor →
      s.Holds home floor (f.resumingAt resume :: rest) → ∃ resume',
        Performs home floor s (Machine.step (X i) home a) (pure ()) (fun _ => .running a')
          fun _ => f'.resumingAt resume' :: rest') :
    Pursues κ X t f rest a r o := by
  have hsteps : Steps κ X t f rest a ((pure () : Eval Unit) t) a' (fun _ => f') rest' :=
    .of_performs (.pure ()) 0 fun i home floor s resume hhome hs =>
      .inr (hmove i home floor s resume hhome hs)
  have hstep : Pursues κ X t f rest a (r + 1) (((pure () : Eval Unit) >>= fun _ _ => o) t) :=
    .step hsteps fun _ t' hrun => by
      cases hrun
      exact h
  exact hstep.anti (Nat.le_succ r)

/-- The machines return from the outermost call, as the leader does. -/
theorem finish {p : Nat} {v : Value} (hd : f.closure.code.decode p = .ok .ret)
    (hf : f.operands = [v]) : Pursues κ X t f [] ⟨f.closure, p⟩ r (.ok v, t) := by
  refine ⟨fun ho => (nomatch ho), fun _ => ⟨1, fun i m home floor s hs => ?_⟩⟩
  obtain ⟨-, hgist, resume, hholds⟩ := hs
  cases m with
  | zero => exact .inr (.inl ⟨.inr Nat.one_pos, rfl⟩)
  | succ m =>
    have hstep : Machine.step (X i) home ⟨f.closure, p⟩ s = _ :=
      Machine.finish_run (f := f.resumingAt resume) hholds hd hf
    rw [Machine.run_of_returned hstep]
    exact .inr (.inr ⟨rfl, hgist, fun _ _ _ h => h, le_rfl, rfl⟩)

end Pursues

end StackLisp

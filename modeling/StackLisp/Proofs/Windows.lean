import StackLisp.Proofs.Reached

/-!
# Calls from outside and the stack

A call from outside the machine works in a window of its own, above the part of the stack that was
in use. It neither changes anything below its window nor sees what an earlier call has left in it.

- `Engine.Confined`, `Engine.Restored`: what has changed lies in the window, and the pointers are
  back where they were;
- `Underway`: the machine is in the middle of a call;
- `apply_restores_stack`: a call is confined at every step and restores the stack however it ends;
- `task_ignores_stale_slots`: what is left on the stack has no influence on what comes after it.
-/

namespace StackLisp

open Eval

attribute [local instance] Unbound.anywhere

/-- Below the first free slot of `e` nothing has changed. The stack has not become smaller, nor
larger than allowed. -/
structure Engine.Confined (e e' : Engine) : Prop where
  slots : ∀ i < e.sp, e'.stack.slots[i]? = e.stack.slots[i]?
  size : e.stack.size ≤ e'.stack.size
  bound : e'.stack.size ≤ max e.limits.initialSlots e.limits.maxSlots

/-- Besides, the pointers and the count of calls are what they were. -/
structure Engine.Restored (e e' : Engine) : Prop extends Engine.Confined e e' where
  sp : e'.sp = e.sp
  frame : e'.frame = e.frame
  depth : e'.depth = e.depth

namespace Engine

variable {e e' : Engine}

theorem Retains.confined (h : e.Retains e.sp e') (he : e.room.Lawful) : e.Confined e' where
  slots i hi := by
    -- slots that are there stay, and all slots below `sp` are there
    have hlt : i < e.stack.slots.size := hi.trans_le he.used
    rw [Array.getElem?_eq_getElem hlt]
    exact h.slots i hi _ (Array.getElem?_eq_getElem hlt)
  size := h.size
  bound := h.bound.trans (max_le he.most (le_max_right _ _))

theorem Keeps.restored (h : e.Keeps e') (he : e.room.Lawful) : e.Restored e' :=
  ⟨h.toRetains.confined he, h.sp, h.frame, h.depth⟩

end Engine

/-- A reset changes nothing but the stack where no call is in progress. -/
theorem Engine.core_reset {e : Engine} (h : e.depth = 0) : e.reset.core = e.core := by
  rw [Engine.reset, Engine.core, Engine.core, Engine.withStack, Engine.withStack, h]

/-- A closure was called at the engine `e`, and now the machine is at the engine `e'`. -/
inductive Underway (fuel : Nat) (c : Closure) (args : List Value) (e : Engine) :
    (e' : Engine) → Activation → Prop
  | start {e' : Engine} {a : Activation} : e.depth < e.limits.maxApplyDepth →
      Machine.start c args { e with depth := e.depth + 1 } = (.ok a, e') →
      Underway fuel c args e e' a
  | step {e' e'' : Engine} {a a' : Activation} : Underway fuel c args e e' a →
      Machine.step (Machine.evaluator fuel) e.frame a e' = (.ok (.running a'), e'') →
      Underway fuel c args e e'' a'

theorem Coherent.Leads.retains {home floor : Nat} {e : Engine}
    {o : Except Stop CallFrame.Progress × Engine} (h : Leads home floor e o) :
    e.Retains floor o.2 := by
  obtain ⟨r, e'⟩ := o
  match r with
  | .ok (.running _) | .ok (.returned _) | .error _ => exact h.1

/-- A machine in the middle of a call is coherent and has left alone what was on the stack. -/
theorem Underway.coherent {fuel : Nat} {c : Closure} {args : List Value} {e e' : Engine}
    {a : Activation} (h : Underway fuel c args e e' a) (he : e.Usable)
    (hc : c.Callable e.envs.size) (hargs : ∀ v ∈ args, v.Proper e.envs.size) :
    Coherent e.frame e.sp e' a ∧ Engine.Retains e.sp { e with depth := e.depth + 1 } e' := by
  induction h with
  | start _ hstart =>
    have husable := he.withDepth (e.depth + 1)
    have hstarts := Machine.start_coherent husable.sound husable.frame_le hc hargs
    rw [hstart] at hstarts
    exact hstarts.symm
  | step _ hstep ih =>
    -- each step keeps the machine coherent, and what the steps retain adds up
    obtain ⟨hcoherent, hr⟩ := ih
    have hnext := Machine.step_coherent (Machine.safe_evaluator fuel) hcoherent
    rw [hstep] at hnext
    exact ⟨hnext.2, hr.trans hnext.1⟩

/-- Whatever a closure does, and however its call ends, the call restores the stack. At every step
in between, all changes are confined to what was not in use before, and the stack does not become
smaller. -/
theorem apply_restores_stack {e : Engine} (he : Reached e) (fuel : Nat) {c : Closure}
    {args : List Value} (hc : c.Callable e.envs.size) (hargs : ∀ v ∈ args, v.Proper e.envs.size) :
    e.Restored ((Machine.evaluator fuel).apply c args e).2 ∧
    ∀ {e' : Engine} {a : Activation}, Underway fuel c args e e' a →
      e.Confined e' ∧ e.Confined (Machine.step (Machine.evaluator fuel) e.frame a e').2 ∧
      e'.stack.size ≤ (Machine.step (Machine.evaluator fuel) e.frame a e').2.stack.size := by
  have husable := he.usable
  have hroom := husable.room
  constructor
  · obtain ⟨hk, -, -⟩ := (Machine.safe_evaluator fuel).apply hc hargs husable.sound husable.frame_le
    exact hk.restored hroom
  · intro e' a hunderway
    obtain ⟨hcoherent, hr⟩ := hunderway.coherent husable hc hargs
    have hstep := (Machine.step_coherent (Machine.safe_evaluator fuel) hcoherent).retains
    -- the call itself is counted, and `Confined` does not depend on the count
    have hconfined : ∀ {t : Engine}, Engine.Retains e.sp { e with depth := e.depth + 1 } t →
        e.Confined t := fun {t} hr =>
      have hconfined := Engine.Retains.confined hr (Engine.lawful_withDepth hroom (e.depth + 1))
      ⟨hconfined.slots, hconfined.size, hconfined.bound⟩
    exact ⟨hconfined hr, hconfined (hr.trans hstep), hstep.size⟩

/-- The function of the form `(fn ())` is called, and again while this call is in progress. -/
theorem apply_restores_stack_nested : ∃ (e e₁ : Engine) (c : Closure), Reached e ∧ Reached e₁ ∧
    0 < e₁.sp ∧ c.Callable e.envs.size ∧ c.Callable e₁.envs.size ∧
    Underway 2 c [] e e₁ ⟨c, 1⟩ ∧ e.Confined e₁ ∧
    e₁.Restored ((Machine.evaluator 2).apply c [] e₁).2 := by
  obtain ⟨e, e₁, c, he, hc, -, -, hshallow, hstarted, hworking⟩ := Working.literal
  have hreached : Reached e₁ := .working (hworking 2)
  have hc₁ := hc.mono hstarted.envs_le
  have hunderway : Underway 2 c [] e e₁ ⟨c, 1⟩ := .start hshallow hstarted.start
  refine ⟨e, e₁, c, he, hreached, ?_, hc, hc₁, hunderway,
    ((apply_restores_stack he 2 hc (List.forall_mem_nil _)).2 hunderway).1,
    (apply_restores_stack hreached 2 hc₁ (List.forall_mem_nil _)).1⟩
  rw [hstarted.sp]
  exact Nat.succ_pos _

/-! ## Stale slots -/

/-- Engines that are reached and differ by their stacks only are alike. -/
theorem Reached.like {s t : Engine} (hs : Reached s) (ht : Reached t) (hcore : s.core = t.core)
    (hsp : s.sp = t.sp) : Leeway.lockstep.Like s t :=
  ⟨Engine.gist_of_core hcore, hs.usable.frame_le, False.elim, Engine.limits_of_core hcore, hsp,
    hs.usable.room, ht.usable.room⟩

/-- A task does not see what is on the stack. -/
theorem Task.alike {s t : Engine} (hs : Reached s) (ht : Reached t) (hcore : s.core = t.core)
    (hsp : s.sp = t.sp) (fuel : Nat) {task : Task} (htask : task.Allowed t.envs.size) :
    Alike (task.run (Machine.evaluator fuel) s) (task.run (Machine.evaluator fuel) t) :=
  (Task.agrees_run (Machine.agree_lockstep fuel) htask).alike ht.usable.sound ht.usable.frame_le
    (hs.like ht hcore hsp)

/-- Tasks end alike on engines that differ only by what is on their stacks, and by how far these
have grown. So, between the tasks of a host program, it makes no difference whether the stack is
replaced by a new one, whatever was done before and however it ended. -/
theorem task_ignores_stale_slots :
    (∀ {s t : Engine}, Reached s → Reached t → s.core = t.core → s.sp = t.sp →
      ∀ (fuel : Nat) {task : Task}, task.Allowed t.envs.size →
        Alike (task.run (Machine.evaluator fuel) s) (task.run (Machine.evaluator fuel) t)) ∧
    ∀ {e : Engine}, Reached e → e.sp = 0 → e.depth = 0 →
      ∀ (m : Nat) {earlier : Task}, earlier.Allowed e.envs.size →
      ∀ (n : Nat) {task : Task},
        task.Allowed (earlier.run (Machine.evaluator m) e).2.envs.size →
        Alike (task.run (Machine.evaluator n) (earlier.run (Machine.evaluator m) e).2)
          (task.run (Machine.evaluator n) (earlier.run (Machine.evaluator m) e).2.reset) := by
  refine ⟨fun hs ht hcore hsp fuel _ htask => Task.alike hs ht hcore hsp fuel htask, ?_⟩
  intro e he hsp hdepth m earlier hearlier n task htask
  -- the earlier task has given the stack back empty, so a reset replaces nothing else
  have hsafe := (Task.agrees_run (Machine.safe_evaluator m).agree hearlier).safe
  obtain ⟨hk, -, -⟩ := hsafe he.usable.sound he.usable.frame_le
  have hreached := he.done m earlier hearlier
  have hcore := Engine.core_reset (hk.depth.trans hdepth)
  exact Task.alike hreached hreached.reset hcore.symm (hk.sp.trans hsp) n htask

/-- A call that is broken off leaves its frame behind. The next call does not see it. -/
theorem task_ignores_stale_slots_broken : ∃ (s t : Engine) (c : Closure), Reached s ∧ Reached t ∧
    s.stack ≠ t.stack ∧ s.core = t.core ∧ s.sp = t.sp ∧ c.Callable t.envs.size ∧
    Alike ((Machine.evaluator 3).apply c [] s) ((Machine.evaluator 3).apply c [] t) := by
  obtain ⟨e, e₁, c, he, hc, -, ⟨-, hsp, hdepth⟩, hshallow, hstarted, -⟩ := Working.literal
  have hnone : ∀ v ∈ ([] : List Value), v.Proper e.envs.size := List.forall_mem_nil _
  -- with this little fuel, the call is started and not continued
  have hrun : (Machine.evaluator 1).apply c [] e =
      (.error .outOfFuel, { e₁ with sp := e.sp, frame := e.frame, depth := e.depth }) := by
    rw [show (Machine.evaluator 1).apply c [] e = Machine.applyWith (Machine.evaluator 0) 0 c [] e
      from rfl, Machine.applyWith_run _ _ _ _ (Nat.not_le.2 hshallow), Machine.callWith_run,
      bind_of_ok hstarted.start]
    rfl
  have hbroken := he.done 1 (.apply c []) ⟨hc, hnone⟩
  obtain ⟨hk, -, -⟩ := (Machine.safe_evaluator 1).apply hc hnone he.usable.sound he.usable.frame_le
  obtain ⟨s, hs⟩ : ∃ s, s = ((Machine.evaluator 1).apply c [] e).2 := ⟨_, rfl⟩
  rw [← hs] at hk
  have hreached : Reached s := hs ▸ hbroken
  have hcore := Engine.core_reset (hk.depth.trans hdepth)
  have htask : (Task.apply c []).Allowed s.reset.envs.size :=
    ⟨hc.mono hk.envs, List.forall_mem_nil _⟩
  refine ⟨s, s.reset, c, hreached, hreached.reset, fun hsame => ?_, hcore.symm, hk.sp.trans hsp,
    htask.1,
    task_ignores_stale_slots.1 hreached hreached.reset hcore.symm (hk.sp.trans hsp) 3 htask⟩
  -- the callee is still where it was pushed, and a new stack has nothing there
  have hleft : s.stack.slots[0]? = some (.value (.closure c)) := by
    rw [hs, hrun, ← hsp]
    exact hstarted.callee
  rw [hsame] at hleft
  simp [Engine.reset, Stack.ofSize, Array.getElem?_replicate] at hleft

end StackLisp

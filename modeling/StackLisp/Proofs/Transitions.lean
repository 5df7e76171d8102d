import StackLisp.Proofs.Block
import StackLisp.Proofs.Frames
import StackLisp.Proofs.Safe

/-!
# Instructions and frames

What each instruction does to the frames of the running calls, and how it is one of the constructs
of the language in terms of them.

- `Performs`: a computation of the machine does what a construct does, and leaves certain frames;
- `Machine.performs_load`, `Machine.performs_assign`, `Machine.performs_closure` and so on: the
  single instructions;
- `Machine.performs_enter`: a call starts, unless the stack is used up.
-/

namespace StackLisp

open Eval

/-- At the engine `e`, the computation `x` does what `y` does, and then has the frames `frames a`
on the stack if that gives `a`. -/
structure Performs {α β : Type} (home floor : Nat) (e : Engine) (x : Eval β) (y : Eval α)
    (next : α → β) (frames : α → List Frame) : Prop where
  ok : ∀ {a e₁}, y e = (.ok a, e₁) → ∃ e', x e = (.ok (next a), e') ∧ e₁.Restacks floor e' ∧
    e'.Holds home floor (frames a)
  error : ∀ {stop e₁}, y e = (.error stop, e₁) → ∃ e', x e = (.error stop, e') ∧
    e₁.Restacks floor e'

variable {α β : Type} {home floor : Nat} {e : Engine}

/-- A computation that ends with rearranging the stack. -/
theorem Performs.of_bind {x : Eval β} {y : Eval α} {g : α → Eval β} {next : α → β}
    {frames : α → List Frame} (hx : x e = (y >>= g) e)
    (hg : ∀ a e₁, y e = (.ok a, e₁) → ∃ e', g a e₁ = (.ok (next a), e') ∧
      e₁.Restacks floor e' ∧ e'.Holds home floor (frames a)) :
    Performs home floor e x y next frames where
  ok h := by
    rw [hx, bind_of_ok h]
    exact hg _ _ h
  error h := ⟨_, by rw [hx, bind_of_error h], .refl floor _⟩

/-- A computation that only rearranges the stack. -/
theorem Performs.of_move {x : Eval β} {b : β} {frames : List Frame} (e' : Engine)
    (hx : x e = (.ok b, e')) (hr : e.Restacks floor e') (hf : e'.Holds home floor frames) :
    Performs home floor e x (pure ()) (fun _ => b) fun _ => frames where
  ok h := by
    cases h
    exact ⟨e', hx, hr, hf⟩
  error h := nomatch h

theorem Performs.congr {x x' : Eval β} {y : Eval α} {next : α → β} {frames : α → List Frame}
    (h : Performs home floor e x y next frames) (hx : x' e = x e) :
    Performs home floor e x' y next frames :=
  ⟨fun hy => hx ▸ h.ok hy, fun hy => hx ▸ h.error hy⟩

theorem Performs.map {γ : Type} {x : Eval β} {y : Eval α} {next : α → β}
    {frames : α → List Frame} (h : Performs home floor e x y next frames) (g : β → γ) :
    Performs home floor e (x >>= fun b => pure (g b)) y (fun a => g (next a)) frames where
  ok hy := by
    obtain ⟨e', hx, hr, hf⟩ := h.ok hy
    exact ⟨e', bind_of_ok hx _, hr, hf⟩
  error hy := by
    obtain ⟨e', hx, hr⟩ := h.error hy
    exact ⟨e', bind_of_error hx _, hr⟩

/-- The stack may be rearranged before a construct that does not see it. -/
theorem Performs.of_restacks {s : Engine} {x x' : Eval β} {y : Eval α} {next : α → β}
    {frames : α → List Frame} (h : Performs home floor s x y next frames) (hy : Blind y)
    (hr : e.Restacks floor s) (hlimits : (y e).2.limits = e.limits) (hx : x' e = x s) :
    Performs home floor e x' y next frames := by
  -- the construct does the same on the rearranged stack, and leaves it alone
  have hsame : ∀ {r e₁}, y e = (r, e₁) → y s = (r, e₁.withStack s.stack s.sp s.frame) ∧
      e₁.Restacks floor (e₁.withStack s.stack s.sp s.frame) := by
    intro r e₁ hrun
    obtain ⟨hstack, -, -⟩ := hy.same_stack hrun
    refine ⟨by rw [hy.run hr.core, hrun], rfl, fun i hi slot hs => ?_, ?_, ?_⟩
    · exact hr.slots i hi slot (hstack ▸ hs)
    · rw [hstack]
      exact hr.size
    · rw [hstack]
      rw [hrun] at hlimits
      exact hlimits.symm ▸ hr.bound
  refine ⟨fun hok => ?_, fun herror => ?_⟩
  · obtain ⟨hrun, hrestacks⟩ := hsame hok
    obtain ⟨e', hx', hr', hf⟩ := h.ok hrun
    exact ⟨e', hx.trans hx', hrestacks.trans hr', hf⟩
  · obtain ⟨hrun, hrestacks⟩ := hsame herror
    obtain ⟨e', hx', hr'⟩ := h.error hrun
    exact ⟨e', hx.trans hx', hrestacks.trans hr'⟩

/-! ## Slots and pointers -/

namespace CallFrame

theorem below_run {n : Nat} (h : n ≤ e.sp) : below n e = (.ok (e.sp - n), e) := by
  unfold below
  rw [bind_of_ok (get_run e), if_pos h]
  rfl

theorem beforeOperands_run {n : Nat} (h : n ≤ e.frame) :
    beforeOperands n e = (.ok (e.frame - n), e) := by
  unfold beforeOperands
  rw [bind_of_ok (get_run e), if_pos h]
  rfl

theorem fromStack_run {f : Stack → Except Error α} {a : α} (h : f e.stack = .ok a) :
    Eval.fromStack f e = (.ok a, e) := by
  unfold Eval.fromStack
  rw [bind_of_ok (get_run e), h]
  rfl

theorem write_run {i : Nat} (h : i < e.stack.slots.size) (slot : Slot) :
    write i slot e = (.ok (), e.fill i slot) := by
  have hw : e.stack.write i slot = (.ok (), { slots := e.stack.slots.setIfInBounds i slot }) :=
    if_pos h
  simp only [write, Eval.onStack, bind_run, hw]
  rfl

theorem setPointer_run (sp : Nat) (e : Engine) : setPointer sp e = (.ok (), { e with sp }) := rfl

theorem push_run (h : e.sp < e.stack.slots.size) (slot : Slot) :
    push slot e = (.ok (), { e.fill e.sp slot with sp := e.sp + 1 }) := by
  unfold push
  rw [bind_of_ok (get_run e), bind_of_ok (write_run h slot)]
  rfl

/-- One slot has been filled on top of the stack. -/
structure Pushed (i : Nat) (slot : Slot) (e e' : Engine) : Prop where
  sp : e'.sp = i + 1
  frame : e'.frame = e.frame
  core : e'.core = e.core
  size : e'.stack.slots.size = e.stack.slots.size
  top : e'.stack.slots[i]? = some slot
  other : ∀ j, j ≠ i → e'.stack.slots[j]? = e.stack.slots[j]?

theorem push_spec {i : Nat} (slot : Slot) (hsp : e.sp = i) (h : i < e.stack.slots.size) :
    ∃ e', push slot e = (.ok (), e') ∧ Pushed i slot e e' := by
  subst hsp
  exact ⟨_, push_run h slot, rfl, rfl, rfl, Engine.fill_size, Engine.fill_self h,
    fun j hj => Engine.fill_other hj.symm⟩

end CallFrame

/-! ## The innermost frame -/

namespace Engine.Holds

variable {f : Frame} {rest : List Frame} {operands : List Value}

/-- The innermost call gets other operands. -/
theorem retop (h : e.Holds home floor (f :: rest)) {e' : Engine} (hframe : e'.frame = e.frame)
    (hsp : e'.sp = e.frame + operands.length)
    (hslots : ∀ i < e.frame, e'.stack.slots[i]? = e.stack.slots[i]?)
    (hsize : e.stack.slots.size ≤ e'.stack.slots.size)
    (hoperands : Spells e'.stack.slots e.frame operands) :
    e'.Holds home floor (f.withOperands operands :: rest) := by
  obtain ⟨caller, base, hf, -, hrest, hc, he, hl, hr, -, hm⟩ := h.inv
  unfold Holds
  rw [hframe, hsp, hf]
  rw [hf] at hslots hoperands
  refine .cons (f := f.withOperands operands) (hrest.congr (fun i hi slot hs => ?_) hsize) ?_ ?_ ?_
    ?_ hoperands (hm.trans hsize)
  · rw [hslots i (by omega)]
    exact hs
  · exact (hslots _ (by omega)).trans hc
  · exact (hslots _ (by omega)).trans he
  · exact (hslots _ (by omega)).trans hl
  · exact (hslots _ (by omega)).trans hr

theorem floor_le (h : e.Holds home floor (f :: rest)) : floor ≤ e.frame := by
  obtain ⟨caller, base, hf, -, hrest, -⟩ := h.inv
  have := hrest.floor_le
  omega

theorem sp_eq (h : e.Holds home floor (f :: rest)) : e.sp = e.frame + f.operands.length := by
  obtain ⟨caller, base, hf, hsp, -⟩ := h.inv
  omega

theorem spells (h : e.Holds home floor (f :: rest)) :
    Spells e.stack.slots e.frame f.operands := by
  obtain ⟨caller, base, hf, -, -, -, -, -, -, ho, -⟩ := h.inv
  rwa [hf]

theorem maxStack_le (h : e.Holds home floor (f :: rest)) :
    e.frame + f.closure.code.maxStack ≤ e.stack.slots.size := by
  obtain ⟨caller, base, hf, -, -, -, -, -, -, -, hm⟩ := h.inv
  rwa [hf]

/-- Some operands are dropped. -/
theorem drop (h : e.Holds home floor (f :: rest)) (dropped : List Value)
    (hf : f.operands = dropped ++ operands) {sp : Nat} (hsp : sp = e.frame + operands.length) :
    Engine.Holds home floor (f.withOperands operands :: rest) { e with sp } := by
  have hspells := h.spells
  rw [hf, spells_append] at hspells
  exact h.retop rfl hsp (fun _ _ => rfl) le_rfl hspells.2

theorem restacks_put (h : e.Holds home floor (f :: rest)) (depth : Nat) (v : Value) :
    e.Restacks floor (e.put (e.frame + depth) v) :=
  (Engine.Restacks.fill e (h.floor_le.trans (Nat.le_add_right _ _)) _).trans (.move floor _ _ _)

/-- A value takes the place of some operands. -/
theorem put (h : e.Holds home floor (f :: rest)) (dropped : List Value)
    (hf : f.operands = dropped ++ operands) {v : Value}
    (hroom : e.frame + operands.length < e.stack.slots.size) :
    (e.put (e.frame + operands.length) v).Holds home floor
      (f.withOperands (v :: operands) :: rest) := by
  have hspells := h.spells
  rw [hf, spells_append] at hspells
  refine h.retop rfl ?_ (fun i hi => Engine.fill_other (by omega)) Engine.fill_size.ge ⟨?_, ?_⟩
  · exact Nat.add_assoc _ _ _
  · exact Engine.fill_self hroom
  · refine hspells.2.congr fun i _ hi slot hs => ?_
    rw [← hs]
    exact Engine.fill_other (by omega)

/-- There is room for a value in the place of the operands it replaces. -/
theorem room (h : e.Holds home floor (f :: rest)) {v : Value} (dropped : List Value)
    (hf : f.operands = dropped ++ v :: operands) :
    e.frame + operands.length < e.stack.slots.size := by
  have hspells := h.spells
  rw [hf, spells_append] at hspells
  exact (Array.getElem?_eq_some_iff.1 hspells.2.1).1

theorem currentEnv_run (h : e.Holds home floor (f :: rest)) :
    CallFrame.currentEnv e = (.ok f.env, e) := by
  obtain ⟨caller, base, hf, -, -, -, he, -⟩ := h.inv
  unfold CallFrame.currentEnv
  have hheader : CallFrame.header ≤ e.frame := by simp only [CallFrame.header]; omega
  rw [bind_of_ok (CallFrame.beforeOperands_run hheader)]
  rw [show e.frame - CallFrame.header = base + 1 by rw [hf]; rfl]
  exact CallFrame.fromStack_run (Stack.env_of_slot he)

theorem of_blind {frames : List Frame} (h : e.Holds home floor frames) {y : Eval α}
    (hy : Blind y) {r : Except Stop α} {e₁ : Engine} (hrun : y e = (r, e₁)) :
    e₁.Holds home floor frames := by
  obtain ⟨hstack, hsp, hframe⟩ := hy.same_stack hrun
  unfold Engine.Holds at *
  rwa [hstack, hsp, hframe]

end Engine.Holds

/-- A construct whose value takes the place of some operands. -/
theorem Performs.of_put {f : Frame} {rest : List Frame} {v₀ : Value} {operands : List Value}
    (dropped : List Value) (hf : f.operands = dropped ++ v₀ :: operands) {x : Eval β}
    {y : Eval Value} {g : Value → Eval β} {b : β} (hx : x e = (y >>= g) e)
    (hg : ∀ v e₁, y e = (.ok v, e₁) → e₁.Holds home floor (f :: rest) ∧
      g v e₁ = (.ok b, e₁.put (e₁.frame + operands.length) v)) :
    Performs home floor e x y (fun _ => b) fun v => f.withOperands (v :: operands) :: rest := by
  refine .of_bind hx fun v e₁ hrun => ?_
  obtain ⟨hholds, hrun'⟩ := hg v e₁ hrun
  exact ⟨_, hrun', hholds.restacks_put _ v,
    hholds.put (dropped ++ [v₀]) (by simpa using hf) (hholds.room dropped hf)⟩

/-! ## Instructions -/

namespace Machine

open CallFrame

variable {ev : Evaluator} {f : Frame} {rest : List Frame} {p : Nat} {operands : List Value}

/-- A step executes the instruction at the position of the call, which it passes first. -/
theorem step_run {c : Closure} {i : Instruction} (hd : c.code.decode p = .ok i)
    (hi : i.isReserved = false) :
    step ev home ⟨c, p⟩ e = execute ev home ⟨c, p + i.width⟩ i e := by
  have hfetch : c.code.fetch p = .ok i := by
    rw [Code.fetch, hd]
    simp [Code.executable, hi]
  unfold step
  rw [hfetch, bind_of_ok (ofExcept_ok i e)]

theorem performs_const {i : UInt16} {v : Value} (h : e.Holds home floor (f :: rest))
    (hd : f.closure.code.decode p = .ok (.const i))
    (hv : f.closure.constants[i.toNat]? = some v)
    (hlt : f.operands.length < f.closure.code.maxStack) :
    Performs home floor e (step ev home ⟨f.closure, p⟩) (pure ())
      (fun _ => .running ⟨f.closure, p + 2⟩)
      (fun _ => f.withOperands (v :: f.operands) :: rest) := by
  have hroom : e.frame + f.operands.length < e.stack.slots.size := by
    have := h.maxStack_le
    omega
  have hsp := h.sp_eq
  refine .of_move (e.put (e.frame + f.operands.length) v) ?_ (h.restacks_put _ v)
    (h.put [] rfl hroom)
  rw [step_run hd rfl, execute, execConst, hv, bind_of_ok (push_run (by omega) _), hsp]
  rfl

theorem performs_pop {v : Value} (h : e.Holds home floor (f :: rest))
    (hd : f.closure.code.decode p = .ok .pop) (hf : f.operands = v :: operands) :
    Performs home floor e (step ev home ⟨f.closure, p⟩) (pure ())
      (fun _ => .running ⟨f.closure, p + 1⟩) (fun _ => f.withOperands operands :: rest) := by
  have hsp := h.sp_eq
  rw [hf, List.length_cons] at hsp
  refine .of_move { e with sp := e.sp - 1 } ?_ (.move floor e _ _) (h.drop [v] hf ?_)
  · rw [step_run hd rfl, execute, bind_of_ok (below_run (by omega)),
      bind_of_ok (setPointer_run _ _)]
    rfl
  · exact congrArg (· - 1) hsp

theorem seek_run {c : Closure} {target : Nat} (hpos : 0 < target) (hlt : target < c.code.size) :
    c.code.seek target = .ok target := by
  rw [Code.seek, if_neg]
  simp only [Bool.or_eq_true, decide_eq_true_eq]
  omega

theorem performs_jump {target : UInt16} (h : e.Holds home floor (f :: rest))
    (hd : f.closure.code.decode p = .ok (.jump target)) (hpos : 0 < target.toNat)
    (hlt : target.toNat < f.closure.code.size) :
    Performs home floor e (step ev home ⟨f.closure, p⟩) (pure ())
      (fun _ => .running ⟨f.closure, target.toNat⟩) (fun _ => f :: rest) := by
  refine .of_move e ?_ (.refl floor e) h
  rw [step_run hd rfl, execute, seek_run hpos hlt]
  rfl

theorem performs_jumpIfNot {target : UInt16} {v : Value} (h : e.Holds home floor (f :: rest))
    (hd : f.closure.code.decode p = .ok (.jumpIfNot target)) (hf : f.operands = v :: operands)
    (hpos : 0 < target.toNat) (hlt : target.toNat < f.closure.code.size) :
    Performs home floor e (step ev home ⟨f.closure, p⟩) (pure ())
      (fun _ => .running ⟨f.closure, if v.isTruthy then p + 2 else target.toNat⟩)
      (fun _ => f.withOperands operands :: rest) := by
  have hsp := h.sp_eq
  have htop := (hf ▸ h.spells : Spells _ _ (v :: operands)).1
  rw [hf, List.length_cons] at hsp
  refine .of_move { e with sp := e.sp - 1 } ?_ (.move floor e _ _) (h.drop [v] hf ?_)
  · have hpop : pop e = (.ok v, { e with sp := e.sp - 1 }) := by
      unfold pop
      rw [bind_of_ok (below_run (by omega)), show e.sp - 1 = e.frame + operands.length by omega]
      rw [bind_of_ok (fromStack_run (Stack.value_of_slot htop))]
      rfl
    rw [step_run hd rfl, execute, bind_of_ok hpop, seek_run hpos hlt]
    split <;> rfl
  · exact congrArg (· - 1) hsp

theorem lookup_run (h : e.Holds home floor (f :: rest)) (symbol : Symbol) :
    lookup symbol e = Reference.lookup f.env symbol e := by
  unfold lookup
  rw [bind_of_ok h.currentEnv_run]
  rfl

theorem performs_load {symbol : Symbol} (h : e.Holds home floor (f :: rest))
    (hd : f.closure.code.decode p = .ok .load) (hf : f.operands = .symbol symbol :: operands) :
    Performs home floor e (step ev home ⟨f.closure, p⟩) (Reference.lookup f.env symbol)
      (fun _ => .running ⟨f.closure, p + 1⟩) (fun v => f.withOperands (v :: operands) :: rest) := by
  have hsp := h.sp_eq
  have htop := (hf ▸ h.spells : Spells _ _ (Value.symbol symbol :: operands)).1
  rw [hf, List.length_cons] at hsp
  refine .of_put [] hf (g := fun v => do
    write (e.frame + operands.length) (.value v)
    return .running ⟨f.closure, p + 1⟩) ?_ fun v e₁ hrun => ?_
  · rw [step_run hd rfl, execute, execLoad, bind_assoc, bind_of_ok (below_run (by omega))]
    rw [show e.sp - 1 = e.frame + operands.length by omega, bind_assoc,
      bind_of_ok (fromStack_run (Stack.symbol_of_slot htop)), bind_assoc, bind_run, lookup_run h,
      ← bind_run]
    rfl
  · have hholds := h.of_blind (Reference.blind_lookup f.env symbol) hrun
    obtain ⟨-, hsp₁, hframe₁⟩ := (Reference.blind_lookup f.env symbol).same_stack hrun
    refine ⟨hholds, ?_⟩
    rw [← hframe₁, bind_of_ok (write_run (hholds.room [] hf) _), Engine.put_of_sp (by omega)]
    rfl

theorem overwrite_run (h : e.Holds home floor (f :: rest)) (symbol : Symbol) (v : Value) :
    overwrite symbol v e = Reference.overwrite f.env symbol v e := by
  unfold overwrite
  rw [bind_of_ok h.currentEnv_run]
  rfl

theorem pop_run {v : Value} (h : e.Holds home floor (f :: rest)) (hf : f.operands = v :: operands) :
    pop e = (.ok v, { e with sp := e.frame + operands.length }) := by
  have hsp := h.sp_eq
  have htop := (hf ▸ h.spells : Spells _ _ (v :: operands)).1
  rw [hf, List.length_cons] at hsp
  unfold pop
  rw [bind_of_ok (below_run (by omega)), show e.sp - 1 = e.frame + operands.length by omega,
    bind_of_ok (fromStack_run (Stack.value_of_slot htop))]
  rfl

/-- The value is popped, assigned and put in the place of the symbol. -/
theorem performs_execAssign {symbol : Symbol} {v : Value} (h : e.Holds home floor (f :: rest))
    (hf : f.operands = v :: .symbol symbol :: operands) {assign : Symbol → Value → Eval Unit}
    {y : Eval Unit} (hy : Blind y) (hlimits : (y e).2.limits = e.limits)
    (hassign : ∀ s : Engine, s.Holds home floor
      (f.withOperands (.symbol symbol :: operands) :: rest) → assign symbol v s = y s) :
    Performs home floor e (execAssign assign) y id
      (fun _ => f.withOperands (v :: operands) :: rest) := by
  have hsp := h.sp_eq
  rw [hf, List.length_cons, List.length_cons] at hsp
  have hslot := (hf ▸ h.spells : Spells _ _ (v :: Value.symbol symbol :: operands)).2.1
  -- the engine with the value popped, where the assignment is made
  obtain ⟨s, hs⟩ : ∃ s : Engine, s = { e with sp := e.frame + operands.length + 1 } := ⟨_, rfl⟩
  have hholds : s.Holds home floor (f.withOperands (.symbol symbol :: operands) :: rest) :=
    hs ▸ h.drop [v] hf rfl
  refine .of_restacks (x := y >>= fun _ => below 1 >>= fun top => write top (.value v)) (s := s)
    (.of_bind rfl fun _ e₁ hrun => ?_) hy (hs ▸ .move floor e _ _) hlimits ?_
  · have hholds₁ := hholds.of_blind hy hrun
    have hsp₁ : e₁.sp = e₁.frame + operands.length + 1 := hholds₁.sp_eq
    have hroom := hholds₁.room [] rfl
    refine ⟨_, ?_, hholds₁.restacks_put _ v, hholds₁.put [.symbol symbol] rfl hroom⟩
    rw [bind_of_ok (below_run (by omega)), Engine.put_of_sp hsp₁, hsp₁]
    exact write_run hroom _
  · rw [execAssign, bind_of_ok (below_run (by omega)),
      show e.sp - 2 = e.frame + operands.length by omega,
      bind_of_ok (fromStack_run (Stack.symbol_of_slot hslot)), bind_of_ok (pop_run h hf),
      List.length_cons, ← Nat.add_assoc, ← hs, bind_run, hassign s hholds, ← bind_run]

theorem performs_assign {way : Assignment} {symbol : Symbol} {v : Value}
    (h : e.Holds home floor (f :: rest)) (hd : f.closure.code.decode p = .ok way.instruction)
    (hf : f.operands = v :: .symbol symbol :: operands) :
    Performs home floor e (step ev home ⟨f.closure, p⟩) (Reference.assign f.env way symbol v)
      (fun _ => .running ⟨f.closure, p + 1⟩) (fun _ => f.withOperands (v :: operands) :: rest) := by
  have hblind := Reference.blind_assign f.env way symbol v
  have hlimits := Reference.limits_assign f.env way symbol v e
  cases way with
  | define =>
    refine .congr (x := execAssign (fun symbol v => modify (·.define symbol v)) >>= fun _ =>
      pure (Progress.running ⟨f.closure, p + 1⟩)) ?_ (step_run hd rfl)
    exact (performs_execAssign h hf hblind hlimits fun _ _ => rfl).map _
  | overwrite =>
    refine .congr (x := execAssign overwrite >>= fun _ =>
      pure (Progress.running ⟨f.closure, p + 1⟩)) ?_ (step_run hd rfl)
    exact (performs_execAssign h hf hblind hlimits fun _ hs => overwrite_run hs symbol v).map _

/-- The environment that is captured is that of the running call, after the environments of all
running calls have been linked up. -/
theorem capture_run (hhome : home ≤ floor) (h : e.Holds home floor (f :: rest)) :
    capture home e = (.ok f.env,
      { e with envs := chain e.envs (f.env :: rest.map Frame.env).toArray 0 }) := by
  have hwalk : enclosing e.stack home (e.stack.size + 1) e.frame #[] =
      .ok (f.env :: rest.map Frame.env).toArray := by
    simpa [Stack.size] using enclosing_eq hhome h (Nat.lt_succ_of_le h.length_le_size) #[]
  unfold capture
  rw [bind_of_ok (get_run e), hwalk]
  rfl

/-- A function literal is bound, and the result takes its place. -/
theorem closure_run {template : Closure} (hhome : home ≤ floor)
    (h : e.Holds home floor (f :: rest)) (hd : f.closure.code.decode p = .ok .closure)
    (hf : f.operands = .closure template :: operands) :
    step ev home ⟨f.closure, p⟩ e =
      (Reference.bind f.env (rest.map Frame.env) template >>= fun v => do
        write (e.frame + operands.length) (.value v)
        return .running ⟨f.closure, p + 1⟩) e := by
  have hsp := h.sp_eq
  have htop := (hf ▸ h.spells : Spells _ _ (Value.closure template :: operands)).1
  rw [hf, List.length_cons] at hsp
  rw [step_run hd rfl, execute, execClosure, bind_assoc, bind_of_ok (below_run (by omega))]
  rw [show e.sp - 1 = e.frame + operands.length by omega, bind_assoc,
    bind_of_ok (fromStack_run (Stack.closure_of_slot htop)), bind_assoc,
    bind_of_ok (capture_run hhome h)]
  rfl

theorem performs_closure {template : Closure} (hhome : home ≤ floor)
    (h : e.Holds home floor (f :: rest)) (hd : f.closure.code.decode p = .ok .closure)
    (hf : f.operands = .closure template :: operands) :
    Performs home floor e (step ev home ⟨f.closure, p⟩)
      (Reference.bind f.env (rest.map Frame.env) template)
      (fun _ => .running ⟨f.closure, p + 1⟩) (fun v => f.withOperands (v :: operands) :: rest) := by
  have hsp := h.sp_eq
  rw [hf, List.length_cons] at hsp
  have hblind := Reference.blind_bind f.env (rest.map Frame.env) template
  refine .of_put [] hf (closure_run hhome h hd hf) fun v e₁ hrun => ?_
  have hholds := h.of_blind hblind hrun
  obtain ⟨-, hsp₁, hframe₁⟩ := hblind.same_stack hrun
  refine ⟨hholds, ?_⟩
  rw [← hframe₁, bind_of_ok (write_run (hholds.room [] hf) _), Engine.put_of_sp (by omega)]
  rfl

/-! ## Calls -/

section Call

variable {callee : Value} {args : List Value} {n : UInt16}

/-- The callee and its arguments are found on the stack. -/
theorem execCall_run (h : e.Holds home floor (f :: rest))
    (hf : f.operands = args.reverse ++ callee :: operands) (hn : n.toNat = args.length) :
    n.toNat + 1 ≤ e.sp ∧ e.sp - (n.toNat + 1) = e.frame + operands.length ∧
      e.stack.value (e.frame + operands.length) = .ok callee ∧
      Spells e.stack.slots (e.frame + operands.length + 1) args.reverse := by
  have hsp := h.sp_eq
  have hspells := h.spells
  rw [hf, spells_append] at hspells
  obtain ⟨hargs, hcallee, -⟩ := hspells
  rw [hf, List.length_append, List.length_reverse, List.length_cons] at hsp
  exact ⟨by omega, by omega, Stack.value_of_slot hcallee, hargs⟩

/-- The result of an intrinsic function replaces it and its arguments. -/
theorem intrinsic_run {ref : Ref} {function : Intrinsic} (h : e.Holds home floor (f :: rest))
    (hd : f.closure.code.decode p = .ok (.call n))
    (hf : f.operands = args.reverse ++ .intrinsic ref function :: operands)
    (hn : n.toNat = args.length) :
    step ev home ⟨f.closure, p⟩ e = (function.call ev args >>= fun v => do
      setPointer (e.frame + operands.length + 1)
      write (e.frame + operands.length) (.value v)
      return .running ⟨f.closure, p + 2⟩) e := by
  obtain ⟨hle, hslot, hcallee, hargs⟩ := execCall_run h hf hn
  rw [step_run hd rfl, execute, execCall, bind_of_ok (below_run hle), hslot,
    bind_of_ok (fromStack_run hcallee), hn]
  simp only
  rw [bind_of_ok (fromStack_run (Stack.values_of_spells hargs))]
  rfl

theorem performs_intrinsic {ref : Ref} {function : Intrinsic}
    (h : e.Holds home floor (f :: rest)) (hd : f.closure.code.decode p = .ok (.call n))
    (hf : f.operands = args.reverse ++ .intrinsic ref function :: operands)
    (hn : n.toNat = args.length)
    (hkeeps : ∀ {v e₁}, function.call ev args e = (.ok v, e₁) → e.Keeps e₁) :
    Performs home floor e (step ev home ⟨f.closure, p⟩) (function.call ev args)
      (fun _ => .running ⟨f.closure, p + 2⟩) (fun v => f.withOperands (v :: operands) :: rest) := by
  refine .of_put args.reverse hf (intrinsic_run h hd hf hn) fun v e₁ hrun => ?_
  have hholds := h.keeps (hkeeps hrun)
  refine ⟨hholds, ?_⟩
  have hroom := hholds.room args.reverse hf
  rw [← (hkeeps hrun).frame, bind_of_ok (setPointer_run _ e₁)]
  rw [bind_of_ok (write_run (e := { e₁ with sp := e₁.frame + operands.length + 1 }) hroom _)]
  rfl

theorem performs_uncallable (h : e.Holds home floor (f :: rest))
    (hd : f.closure.code.decode p = .ok (.call n))
    (hf : f.operands = args.reverse ++ callee :: operands) (hn : n.toNat = args.length)
    (hintrinsic : ∀ ref function, callee ≠ .intrinsic ref function)
    (hclosure : ∀ c, callee ≠ .closure c) :
    step ev home ⟨f.closure, p⟩ e = (.error (.fault (.wrongType "function" callee)), e) := by
  obtain ⟨hle, hslot, hcallee, hargs⟩ := execCall_run h hf hn
  rw [step_run hd rfl, execute, execCall, bind_of_ok (below_run hle), hslot,
    bind_of_ok (fromStack_run hcallee)]
  cases callee with
  | intrinsic ref function => exact absurd rfl (hintrinsic ref function)
  | closure c => exact absurd rfl (hclosure c)
  | _ => rfl

end Call

/-! ## Returns -/

/-- What a call finds of itself at its end: the result, and the frame of its caller. -/
theorem leave_run {v : Value} (h : e.Holds home floor (f :: rest))
    (hf : f.operands = v :: operands) :
    ∃ caller base, e.frame = base + 4 ∧ Spelled e.stack.slots home floor rest caller base ∧
      base < e.stack.slots.size ∧
      leave home e = (if caller = home then pure (Progress.returned v)
        else resume v >>= fun a => pure (Progress.running a))
        { e with sp := base + 4, frame := caller } := by
  obtain ⟨caller, base, hframe, hsp, hrest, hslot, -, hlink, -, hoperands, -⟩ := h.inv
  rw [hf, List.length_cons] at hsp
  rw [hf] at hoperands
  have htop : e.stack.value (e.sp - 1) = .ok v :=
    Stack.value_of_slot (by rw [← hoperands.1]; congr 1; omega)
  refine ⟨caller, base, hframe, hrest, (Array.getElem?_eq_some_iff.1 hslot).1, ?_⟩
  rw [leave, bind_of_ok (below_run (by omega)), bind_of_ok (fromStack_run htop),
    bind_of_ok (beforeOperands_run (by omega)), show e.frame - 2 = base + 2 by omega,
    bind_of_ok (fromStack_run (Stack.int_of_slot hlink)), bind_of_ok (modify_run _ e), hframe]

/-- Above the frames of the caller stands what is left of the call that ended. -/
theorem resume_run {g : Frame} {v : Value} {base : Nat}
    (h : Spelled e.stack.slots home floor (g :: rest) e.frame base) (hsp : e.sp = base + 4)
    (hroom : base < e.stack.slots.size) (hpos : 0 < g.resume)
    (hlt : g.resume < g.closure.code.size) :
    resume v e = (.ok ⟨g.closure, g.resume⟩, e.put base v) := by
  obtain ⟨-, low, hframe, hbase, -, hclosure, -, -, hresume, -, -⟩ := h.inv
  have hheader : below header e = (.ok (base + 1), e) := by
    rw [below_run (by simp only [header]; omega), hsp]
    rfl
  -- the engine with the stack cut back to the slot of the callee, where the value goes
  obtain ⟨s, hs⟩ : ∃ s : Engine, s = { e with sp := base + 1 } := ⟨_, rfl⟩
  have hstack : s.stack = e.stack := by rw [hs]
  have hframe₁ : s.frame = low + 4 := by rw [hs, ← hframe]
  have hsp₁ : s.sp = base + 1 := by rw [hs]
  have hput : s.fill base (.value v) = e.put base v := by rw [hs]; rfl
  have hcallee : (e.put base v).stack.closure low = .ok g.closure :=
    Stack.closure_of_slot ((Engine.fill_other (by omega)).trans hclosure)
  rw [resume, bind_of_ok hheader, bind_of_ok (setPointer_run _ _), ← hs,
    bind_of_ok (beforeOperands_run (by omega)), show s.frame - 1 = low + 3 by omega,
    bind_of_ok (fromStack_run (by rw [hstack]; exact Stack.int_of_slot hresume)),
    bind_of_ok (below_run (by omega)), show s.sp - 1 = base by omega,
    bind_of_ok (write_run (by rwa [hstack]) _), hput]
  have hlow : beforeOperands (header + 1) (e.put base v) = (.ok low, e.put base v) := by
    have hframe₂ : (e.put base v).frame = low + 4 := hframe
    rw [beforeOperands_run (by simp only [header]; omega), hframe₂]
    rfl
  rw [bind_of_ok hlow, bind_of_ok (fromStack_run hcallee), seek_run hpos hlt]
  rfl

/-- A call returns to the call that made it. -/
theorem performs_return {g : Frame} {v : Value} (hhome : home ≤ floor)
    (h : e.Holds home floor (f :: g :: rest)) (hd : f.closure.code.decode p = .ok .ret)
    (hf : f.operands = v :: operands) (hpos : 0 < g.resume)
    (hlt : g.resume < g.closure.code.size) :
    Performs home floor e (step ev home ⟨f.closure, p⟩) (pure ())
      (fun _ => .running ⟨g.closure, g.resume⟩)
      (fun _ => g.withOperands (v :: g.operands) :: rest) := by
  obtain ⟨caller, base, hframe, hrest, hroom, hleave⟩ := leave_run h hf
  -- the engine when the callee's frame is gone
  have hs : Engine.Holds home floor (g :: rest) { e with sp := base, frame := caller } := hrest
  have hbase : caller + g.operands.length = base := hs.sp_eq.symm
  have hput := hs.put [] rfl (v := v) (by rw [hbase]; exact hroom)
  have hrestacks := hs.restacks_put g.operands.length v
  rw [hbase] at hput hrestacks
  refine .of_move _ ?_ ((Engine.Restacks.move floor e _ _).trans hrestacks) hput
  have hresume := resume_run (e := { e with sp := base + 4, frame := caller }) (v := v) hrest rfl
    hroom hpos hlt
  rw [step_run hd rfl, execute, hleave, if_neg (hrest.home_lt hhome).ne', bind_of_ok hresume]
  rfl

/-- The outermost call is over. -/
theorem finish_run {v : Value} (h : e.Holds home floor [f])
    (hd : f.closure.code.decode p = .ok .ret) (hf : f.operands = v :: operands) :
    step ev home ⟨f.closure, p⟩ e =
      (.ok (.returned v), { e with sp := e.frame, frame := home }) := by
  obtain ⟨caller, base, hframe, hrest, -, hleave⟩ := leave_run h hf
  obtain rfl : caller = home := by
    cases hrest
    rfl
  rw [step_run hd rfl, execute, hleave, if_pos rfl, hframe]
  rfl

/-! ## Entering a call -/

section Enter

variable {c : Closure} {args : List Value} {base : Nat} {frames : List Frame}

/-- A callee and its arguments stand above the frames. -/
structure Prepared (home floor : Nat) (frames : List Frame) (c : Closure) (args : List Value)
    (base : Nat) (e : Engine) : Prop where
  spelled : Spelled e.stack.slots home floor frames e.frame base
  callee : e.stack.slots[base]? = some (.value (.closure c))
  spells : Spells e.stack.slots (base + 1) args.reverse
  sp : e.sp = base + 1 + args.length

theorem Prepared.sp_le (h : Prepared home floor frames c args base e) : e.sp ≤ e.stack.size := by
  have hle := h.spells.le_size (Array.getElem?_eq_some_iff.1 h.callee).1
  rw [List.length_reverse] at hle
  exact h.sp.trans_le hle

theorem bindPositional_run {s : Stack} {place slot : Nat} (h : Spells s.slots slot args.reverse)
    (bindings : Bindings) :
    CallFrame.bindPositional c s args.length place slot bindings =
      Reference.bindPositional c place args bindings := by
  induction args generalizing place slot bindings with
  | nil => rfl
  | cons v args ih =>
    rw [List.reverse_cons, spells_append] at h
    obtain ⟨hargs, hv, -⟩ := h
    rw [List.length_cons, CallFrame.bindPositional, Reference.bindPositional,
      Stack.value_of_slot (i := slot) hv]
    cases parameter c place with
    | error => rfl
    | ok symbol => exact ih hargs _

/-- The arguments are bound as they stand on the stack. -/
theorem bindArguments_run (h : Spells e.stack.slots (base + 1) args.reverse)
    (harity : c.positional ≤ args.length) :
    CallFrame.bindArguments c (base + 1) args.length e = Reference.bindArguments c args e := by
  -- the positional arguments come first, the others after them
  have hsplit : args.reverse = (args.drop c.positional).reverse ++
      (args.take c.positional).reverse := by
    rw [← List.reverse_append, List.take_append_drop]
  rw [hsplit, spells_append, List.length_reverse, List.length_take_of_le harity] at h
  have hpositional : CallFrame.bindPositional c e.stack (args.take c.positional).length 0 (base + 1)
      [] = Reference.bindPositional c 0 (args.take c.positional) [] := bindPositional_run h.2 []
  rw [List.length_take_of_le harity] at hpositional
  have hothers := Stack.values_of_spells h.1
  rw [List.length_drop, show base + 1 + c.positional + (args.length - c.positional) =
    base + 1 + args.length by omega] at hothers
  unfold CallFrame.bindArguments Reference.bindArguments
  have hfirst : Eval.fromStack
      (fun s => CallFrame.bindPositional c s c.positional 0 (base + 1) []) e =
      Eval.ofExcept (Reference.bindPositional c 0 (args.take c.positional) []) e := by
    rw [← hpositional]
    rfl
  rw [bind_run, hfirst, ← bind_run]
  cases Reference.bindPositional c 0 (args.take c.positional) [] with
  | error error => rfl
  | ok bindings =>
    rw [bind_of_ok (ofExcept_ok _ e), bind_of_ok (ofExcept_ok _ e)]
    split
    · cases parameter c c.positional with
      | error error => rfl
      | ok symbol =>
        rw [bind_of_ok (ofExcept_ok _ e), bind_of_ok (ofExcept_ok _ e),
          bind_of_ok (fromStack_run hothers)]
    · rfl

/-- The header of a new call is written over its arguments. -/
theorem writeHeader_run (h : Spelled e.stack.slots home floor frames e.frame base)
    (hcallee : e.stack.slots[base]? = some (.value (.closure c)))
    (hroom : base + 4 + c.code.maxStack ≤ e.stack.slots.size) (env : EnvId) :
    ∃ e', writeHeader base env e = (.ok (), e') ∧ e.Restacks floor e' ∧
      e'.Holds home floor (⟨c, env, [], 0⟩ :: frames) := by
  have hfloor := h.floor_le
  obtain ⟨e₁, hrun₁, h₁⟩ := push_spec (i := base + 1) (e := { e with sp := base + 1 }) (.env env)
    rfl (show base + 1 < e.stack.slots.size by omega)
  have hsize₁ : e₁.stack.slots.size = e.stack.slots.size := h₁.size
  obtain ⟨e₂, hrun₂, h₂⟩ := push_spec (.int e₁.frame) h₁.sp (by omega)
  have hsize₂ := h₂.size
  obtain ⟨e₃, hrun₃, h₃⟩ := push_spec (.int 0) h₂.sp (by omega)
  have hsize : e₃.stack.slots.size = e.stack.slots.size :=
    h₃.size.trans (h₂.size.trans h₁.size)
  -- three slots are pushed from `base + 1` on; everything below is as it was
  have hold : ∀ i < base + 1, e₃.stack.slots[i]? = e.stack.slots[i]? := fun i hi => by
    rw [h₃.other i (by omega), h₂.other i (by omega), h₁.other i (by omega)]
  refine ⟨{ e₃ with frame := e₃.sp }, ?_, ⟨?_, fun i hi slot hs => ?_, hsize.ge,
    hsize.le.trans (le_max_left _ _)⟩, ?_⟩
  · rw [writeHeader, bind_of_ok (setPointer_run _ _), bind_of_ok hrun₁, bind_of_ok (get_run e₁),
      bind_of_ok hrun₂, bind_of_ok hrun₃]
    rfl
  · exact h₃.core.trans (h₂.core.trans h₁.core)
  · exact (hold i (by omega)).trans hs
  · unfold Engine.Holds
    rw [h₃.sp]
    refine .cons (f := ⟨c, env, [], 0⟩) (h.congr (fun i hi slot hs => ?_) hsize.ge) ?_ ?_ ?_ h₃.top
      trivial (hroom.trans hsize.ge)
    · exact (hold i (by omega)).trans hs
    · exact (hold base (by omega)).trans hcallee
    · exact (h₃.other _ (by omega)).trans ((h₂.other _ (by omega)).trans h₁.top)
    · exact (h₃.other _ (by omega)).trans (h₂.top.trans (by rw [h₁.frame]))

/-- The engine `s` is `e` with slots added to its stack, so that it has as many as are needed. -/
structure Extends (needed : Nat) (e s : Engine) : Prop where
  core : s.core = e.core
  sp : s.sp = e.sp
  frame : s.frame = e.frame
  enough : needed ≤ s.stack.slots.size
  slots : ∀ (i : Nat) slot, e.stack.slots[i]? = some slot → s.stack.slots[i]? = some slot
  size : e.stack.slots.size ≤ s.stack.slots.size
  bound : s.stack.slots.size ≤ max e.stack.size e.limits.maxSlots

theorem Extends.restacks {needed : Nat} {s : Engine} (h : Extends needed e s) (floor : Nat) :
    e.Restacks floor s :=
  ⟨h.core, fun i _ => h.slots i, h.size, h.bound⟩

/-- Room is made by adding slots, or the stack is used up. -/
theorem reserve_run (needed : Nat) (e : Engine) :
    (¬ e.Fits needed ∧
      reserve needed e = (.error (.fault (.exhausted (.stack needed e.limits.maxSlots))), e)) ∨
    e.Fits needed ∧ ∃ s, reserve needed e = (.ok (), s) ∧ Extends needed e s := by
  have hrun : reserve needed e = Eval.onStack (·.grow needed e.limits.maxSlots) e := rfl
  rw [hrun]
  simp only [Eval.onStack, bind_run, Stack.grow]
  -- there is room already, or the limit is in the way, or slots are added
  split
  · rename_i h
    exact .inr ⟨.inl h, e, rfl, rfl, rfl, rfl, h, fun _ _ => id, le_rfl, le_max_left _ _⟩
  · rename_i hsmall
    split
    · rename_i hlimit
      exact .inl ⟨fun h => h.elim hsmall (Nat.not_le.2 hlimit), rfl⟩
    · rename_i hlimit
      have hgrown : needed ≤ Stack.grownSize e.stack.size needed e.limits.maxSlots := by
        unfold Stack.grownSize
        omega
      have hsize : (e.stack.extend (Stack.grownSize e.stack.size needed
          e.limits.maxSlots)).slots.size = max e.stack.size (Stack.grownSize e.stack.size needed
          e.limits.maxSlots) := by
        simp only [Stack.extend, Stack.size, Array.size_append, Array.size_replicate]
        omega
      refine .inr ⟨.inr (Nat.not_lt.1 hlimit), _, rfl, rfl, rfl, rfl, ?_, fun i slot h => ?_, ?_,
        ?_⟩
      · exact hgrown.trans (hsize.symm ▸ le_max_right _ _)
      · obtain ⟨hi, -⟩ := Array.getElem?_eq_some_iff.1 h
        rw [← h]
        exact Array.getElem?_append_left hi
      · exact hsize.symm ▸ le_max_left _ _
      · exact hsize.trans_le (max_le_max le_rfl (min_le_left _ _))

/-- The slots that a call needs when its callee and its arguments reach up to `sp`. -/
def demand (c : Closure) (sp : Nat) : Nat :=
  sp + header + c.code.maxStack + 1

/-- There is room for the call, or it is refused before that matters. -/
def Admits (c : Closure) (args : List Value) (e : Engine) : Prop :=
  checkArity c args.length = .ok () → e.Fits (demand c e.sp)

theorem lt_demand_of_not_admits {c : Closure} {args : List Value} {e : Engine}
    (h : ¬ Admits c args e) : e.limits.maxSlots < demand c e.sp :=
  Nat.lt_of_not_le fun hle => h fun _ => .inr hle

/-- What a call ends with if there is no room for it. -/
def overflow (needed : Nat) (e : Engine) : Stop :=
  .fault (.exhausted (.stack needed e.limits.maxSlots))

/-- The callee is found below the arguments. -/
theorem Prepared.callee_run {α : Type} (h : Prepared home floor frames c args base e)
    {k : Nat → Closure → Eval α} :
    (below (args.length + 1) >>= fun base => Eval.fromStack (·.closure base) >>= k base) e =
      k base c e := by
  have hsp := h.sp
  rw [bind_of_ok (below_run (by omega)), show e.sp - (args.length + 1) = base by omega,
    bind_of_ok (fromStack_run (Stack.closure_of_slot h.callee))]

theorem positional_le_of_checkArity {count : Nat} (h : checkArity c count = .ok ()) :
    c.positional ≤ count := by
  unfold checkArity at h
  by_contra hlt
  rw [if_pos (by omega)] at h
  cases h

/-- Where there is room, a call is entered as the language has it, and its header is written. -/
theorem enter_run {s : Engine} (h : Prepared home floor frames c args base e)
    (harity : checkArity c args.length = .ok ()) (hstart : c.code.seek 1 = .ok 1)
    (hreserve : reserve (demand c e.sp) e = (.ok (), s))
    (hslots : ∀ (i : Nat) slot, e.stack.slots[i]? = some slot → s.stack.slots[i]? = some slot) :
    CallFrame.enter args.length e = (Reference.enter c args >>= fun env =>
      writeHeader base env >>= fun _ => pure ⟨c, 1⟩) s := by
  have hbind : bindArguments c (base + 1) args.length s = Reference.bindArguments c args s :=
    bindArguments_run (h.spells.congr fun i _ _ => hslots i) (positional_le_of_checkArity harity)
  rw [CallFrame.enter, h.callee_run, harity, bind_of_ok (ofExcept_ok _ e), hstart,
    bind_of_ok (ofExcept_ok _ e), bind_of_ok (get_run e),
    bind_of_ok (show reserve (e.sp + header + c.code.maxStack + 1) e = _ from hreserve),
    Reference.enter, harity, bind_assoc, bind_of_ok (ofExcept_ok _ s), bind_assoc, bind_run,
    hbind, ← bind_run]

/-- A call of a compiled closure starts as the language has it, unless the stack is used up. -/
theorem performs_enter {body : List Term} (hc : c.Implements body)
    (h : Prepared home floor frames c args base e) :
    (¬ Admits c args e ∧
      CallFrame.enter args.length e = (.error (overflow (demand c e.sp) e), e)) ∨
    Admits c args e ∧
    Performs home floor e (CallFrame.enter args.length) (Reference.enter c args)
      (fun _ => ⟨c, 1⟩) (fun env => ⟨c, env, [], 0⟩ :: frames) := by
  -- the number of arguments is checked before room is made
  cases harity : checkArity c args.length with
  | error error =>
    have hreference : Reference.enter c args e = (.error (.fault error), e) := by
      rw [Reference.enter, harity, bind_of_error (ofExcept_error error e)]
    refine .inr ⟨fun hok => (by cases harity.symm.trans hok), fun hok => ?_, fun herror => ?_⟩
    · rw [hreference] at hok
      cases hok
    · rw [hreference] at herror
      cases herror
      refine ⟨e, ?_, .refl floor e⟩
      rw [CallFrame.enter, h.callee_run, harity, bind_of_error (ofExcept_error error e)]
  | ok =>
    have hseek : c.code.seek 1 = .ok 1 := seek_run Nat.one_pos hc.body.lt_size
    rcases reserve_run (demand c e.sp) e with ⟨hnofit, hfull⟩ | ⟨hfits, s, hreserve, hs⟩
    · refine .inl ⟨fun hadmits => hnofit (hadmits harity), ?_⟩
      rw [CallFrame.enter, h.callee_run, harity, bind_of_ok (ofExcept_ok _ e), hseek,
        bind_of_ok (ofExcept_ok _ e), bind_of_ok (get_run e)]
      exact bind_of_error hfull _
    · have hspelled : Spelled s.stack.slots home floor frames s.frame base :=
        hs.frame ▸ h.spelled.congr (fun i _ => hs.slots i) hs.size
      have hroom : base + 4 + c.code.maxStack ≤ s.stack.slots.size := by
        have hsp := h.sp
        have henough := hs.enough
        simp only [demand, header] at henough
        omega
      have hblind := Reference.blind_enter c args
      refine .inr ⟨fun _ => hfits, .of_restacks (s := s) (.of_bind rfl fun env e₁ hr => ?_) hblind
        (hs.restacks floor) (Reference.limits_enter c args e)
        (enter_run h harity hseek hreserve hs.slots)⟩
      -- binding the arguments does not touch the stack, so the header is written over them
      obtain ⟨hstack₁, -, hframe₁⟩ := hblind.same_stack hr
      have hcallee := hs.slots _ _ h.callee
      rw [← hstack₁] at hspelled hroom hcallee
      obtain ⟨e', hwrite, hrestacks, hholds⟩ :=
        writeHeader_run (hframe₁ ▸ hspelled) hcallee hroom env
      exact ⟨e', bind_of_ok hwrite _, hrestacks, hholds⟩

/-- A call that saves its position waits for a result, with the callee and its arguments above
it. -/
theorem prepared_of_call (h : e.Holds home floor (f :: rest))
    (hf : f.operands = args.reverse ++ .closure c :: operands) (position : Nat) :
    e.frame - 1 < e.stack.slots.size ∧ floor ≤ e.frame - 1 ∧
    Prepared home floor (⟨f.closure, f.env, operands, position⟩ :: rest) c args
      (e.frame + operands.length) (e.fill (e.frame - 1) (.int position)) := by
  obtain ⟨caller, base, hframe, hsp, hrest, hclosure, henv, hlink, hresume, hoperands, hm⟩ := h.inv
  have hfloor := hrest.floor_le
  rw [hf, List.length_append, List.length_reverse, List.length_cons] at hsp
  rw [hf, spells_append] at hoperands
  obtain ⟨hargs, hcallee, hbelow⟩ := hoperands
  rw [hframe, Nat.add_sub_cancel (base + 3) 1]
  obtain ⟨s, hs⟩ : ∃ s, s = e.fill (base + 3) (.int position) := ⟨_, rfl⟩
  rw [← hs]
  have hroom : base + 3 < e.stack.slots.size := (Array.getElem?_eq_some_iff.1 hresume).1
  have hother : ∀ i ≠ base + 3, ∀ slot, e.stack.slots[i]? = some slot →
      s.stack.slots[i]? = some slot := fun i hi slot h => by
    rw [hs, Engine.fill_other (Ne.symm hi)]
    exact h
  have hsize : s.stack.slots.size = e.stack.slots.size := by rw [hs, Engine.fill_size]
  have hframe₁ : s.frame = base + 4 := by rw [hs, ← hframe]; rfl
  have hsp₁ : s.sp = e.sp := by rw [hs]; rfl
  refine ⟨hroom, by omega, ?_, hother _ (by omega) _ hcallee, ?_, by omega⟩
  · -- of the calling frame, only the slot of the position has changed
    rw [hframe₁]
    refine .cons (f := ⟨f.closure, f.env, operands, position⟩) (hrest.congr
      (fun i hi => hother i (by omega)) hsize.ge) (hother _ (by omega) _ hclosure)
      (hother _ (by omega) _ henv) (hother _ (by omega) _ hlink) ?_ ?_ (hm.trans hsize.ge)
    · rw [hs]
      exact Engine.fill_self hroom
    · exact hbelow.congr fun i hi _ => hother i (by omega)
  · exact hargs.congr fun i hi _ => hother i (by omega)

/-- A closure is called, unless the stack is used up. -/
theorem performs_call {body : List Term} {n : UInt16} (hc : c.Implements body)
    (h : e.Holds home floor (f :: rest)) (hd : f.closure.code.decode p = .ok (.call n))
    (hf : f.operands = args.reverse ++ .closure c :: operands) (hn : n.toNat = args.length) :
    (¬ Admits c args e ∧ ∃ e', step ev home ⟨f.closure, p⟩ e =
      (.error (overflow (demand c e.sp) e), e') ∧ e.Restacks floor e') ∨
    Admits c args e ∧ Performs home floor e (step ev home ⟨f.closure, p⟩) (Reference.enter c args)
      (fun _ => .running ⟨c, 1⟩)
      (fun env => ⟨c, env, [], 0⟩ :: ⟨f.closure, f.env, operands, p + 2⟩ :: rest) := by
  obtain ⟨hle, hslot, hcallee, -⟩ := execCall_run h hf hn
  obtain ⟨hroom, hfloor, hprepared⟩ := prepared_of_call h hf (p + 2)
  obtain ⟨_, _, hframe, -⟩ := h.inv
  -- the engine when the position has been saved
  obtain ⟨s, hs⟩ : ∃ s, s = e.fill (e.frame - 1) (.int (p + 2)) := ⟨_, rfl⟩
  rw [← hs] at hprepared
  have hrun : step ev home ⟨f.closure, p⟩ e =
      (CallFrame.enter args.length >>= fun a => pure (Progress.running a)) s := by
    rw [step_run hd rfl, execute, execCall, bind_of_ok (below_run hle), hslot,
      bind_of_ok (fromStack_run hcallee)]
    simp only
    rw [bind_of_ok (beforeOperands_run (by omega)), bind_of_ok (write_run hroom _), hn, hs]
    rfl
  have hrestacks : e.Restacks floor s := hs ▸ .fill e hfloor _
  have hadmits : Admits c args s ↔ Admits c args e := by
    rw [hs]
    simp only [Admits, Engine.Fits, Stack.size, Engine.fill_size]
    rfl
  have hoverflow : overflow (demand c s.sp) s = overflow (demand c e.sp) e := by rw [hs]; rfl
  rcases performs_enter hc hprepared with ⟨hnone, hfull⟩ | ⟨hroom', hperforms⟩
  · refine .inl ⟨fun h => hnone (hadmits.2 h), s, ?_, hrestacks⟩
    rw [hrun, bind_of_error hfull, hoverflow]
  · exact .inr ⟨hadmits.1 hroom', (hperforms.map Progress.running).of_restacks
      (Reference.blind_enter c args) hrestacks (Reference.limits_enter c args e) hrun⟩

/-- Arguments are pushed one after the other. -/
theorem pushAll_run (hroom : e.sp + args.length ≤ e.stack.slots.size) :
    ∃ e', args.forM (fun v => push (.value v)) e = (.ok (), e') ∧ e'.sp = e.sp + args.length ∧
      e'.frame = e.frame ∧ e'.core = e.core ∧ e'.stack.slots.size = e.stack.slots.size ∧
      Spells e'.stack.slots e.sp args.reverse ∧
      ∀ i < e.sp, e'.stack.slots[i]? = e.stack.slots[i]? := by
  induction args generalizing e with
  | nil => exact ⟨e, rfl, rfl, rfl, rfl, rfl, trivial, fun _ _ => rfl⟩
  | cons v args ih =>
    rw [List.length_cons] at hroom
    obtain ⟨e₁, hrun₁, h₁⟩ := push_spec (.value v) rfl (show e.sp < e.stack.slots.size by omega)
    obtain ⟨e₂, hrun₂, hsp, hframe, hcore, hsize, hspells, hslots⟩ :=
      @ih e₁ (by rw [h₁.sp, h₁.size]; omega)
    rw [h₁.sp] at hsp hspells hslots
    refine ⟨e₂, ?_, ?_, hframe.trans h₁.frame, hcore.trans h₁.core, hsize.trans h₁.size, ?_,
      fun i hi => ?_⟩
    · exact (bind_of_ok hrun₁ _).trans hrun₂
    · rw [hsp, List.length_cons]
      omega
    · rw [List.reverse_cons, spells_append]
      -- the first argument lies below the others, which do not touch it
      exact ⟨hspells, (hslots _ (by simp)).trans h₁.top, trivial⟩
    · rw [hslots i (by omega), h₁.other i (by omega)]

/-- The callee and the arguments of a call from outside are pushed above everything else, unless
the stack is used up. -/
theorem pushCall_run (c : Closure) (args : List Value) (e : Engine) :
    (¬ e.Fits (e.sp + args.length + 1) ∧
      pushCall c args e = (.error (overflow (e.sp + args.length + 1) e), e)) ∨
    e.Fits (e.sp + args.length + 1) ∧ ∃ e', pushCall c args e = (.ok (), e') ∧ e.Restacks e.sp e' ∧
      Prepared e.frame e.sp [] c args e.sp e' := by
  rcases reserve_run (e.sp + args.length + 1) e with ⟨hnofit, hfull⟩ | ⟨hfits, s, hreserve, hs⟩
  · refine .inl ⟨hnofit, ?_⟩
    rw [pushCall, bind_of_ok (get_run e), bind_of_error hfull]
    rfl
  -- the callee and then the arguments, each above what was there
  · have henough := hs.enough
    obtain ⟨e₁, hrun₁, h₁⟩ := push_spec (.value (.closure c)) hs.sp (by omega)
    obtain ⟨e₂, hrun₂, hsp₂, hframe₂, hcore₂, hsize₂, hspells, hold⟩ :=
      @pushAll_run e₁ args (by rw [h₁.sp, h₁.size]; omega)
    rw [h₁.sp] at hsp₂ hspells hold
    have hsize₁ := h₁.size.symm.trans hsize₂.symm
    refine .inr ⟨hfits, e₂, ?_, ⟨hcore₂.trans (h₁.core.trans hs.core), fun i hi slot h => ?_,
      hs.size.trans hsize₁.le, hsize₁.ge.trans hs.bound⟩, ?_⟩
    · rw [pushCall, bind_of_ok (get_run e), bind_of_ok hreserve, bind_of_ok hrun₁]
      exact hrun₂
    · rw [hold i (by omega), h₁.other i (by omega)]
      exact hs.slots i slot h
    · refine ⟨?_, (hold _ (by omega)).trans h₁.top, hspells, hsp₂⟩
      rw [hframe₂, h₁.frame, hs.frame]
      exact .nil

/-- A call from outside is started and then run to its end. -/
theorem callWith_run (ev : Evaluator) (fuel : Nat) (c : Closure) (args : List Value) (e : Engine) :
    callWith ev fuel c args e = (start c args >>= run ev e.frame fuel) e := by
  rw [callWith, bind_of_ok (get_run e)]

/-- Calls from outside nest only so deep. -/
theorem applyWith_of_deep (ev : Evaluator) (fuel : Nat) (c : Closure) (args : List Value)
    (h : e.limits.maxApplyDepth ≤ e.depth) : applyWith ev fuel c args e =
      (.error (.fault (.exhausted (.applyDepth e.limits.maxApplyDepth))), e) :=
  if_pos h

/-- A call from outside is counted, and the pointers are afterwards what they were. -/
theorem applyWith_run (ev : Evaluator) (fuel : Nat) (c : Closure) (args : List Value)
    (h : ¬ e.limits.maxApplyDepth ≤ e.depth) : applyWith ev fuel c args e =
      ((callWith ev fuel c args { e with depth := e.depth + 1 }).1,
        { (callWith ev fuel c args { e with depth := e.depth + 1 }).2 with
          sp := e.sp, frame := e.frame, depth := e.depth }) :=
  if_neg h

end Enter

end Machine

end StackLisp

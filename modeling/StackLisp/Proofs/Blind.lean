import StackLisp.Proofs.Computation

/-!
# Computations that do not see the stack

Most of what an engine does has nothing to do with its stack. Two engines are alike for it when
they have the same `Engine.gist`: they differ by their stacks and by how far these may grow. A
computation that neither looks at the stack, its pointers and its limit, and leaves them alone, is
`Eval.Blind`.

- `Engine.core`, `Engine.gist`: an engine without its stack, and without the limit to it either;
- `Eval.Blind`, `Eval.Blind.run`, `Eval.Blind.run_gist`: a blind computation ends alike on engines
  that are alike.
-/

namespace StackLisp

namespace Engine

/-- The engine with another stack. -/
def withStack (e : Engine) (stack : Stack) (sp frame : Nat) : Engine :=
  { e with stack, sp, frame }

/-- The engine without its stack. -/
def core (e : Engine) : Engine :=
  e.withStack (.ofSize 0) 0 0

/-- The engine with another stack and another limit to it. -/
def on (e : Engine) (stack : Stack) (sp frame maxSlots : Nat) : Engine :=
  { e with stack, sp, frame, limits := { e.limits with maxSlots } }

/-- The engine without its stack and the limit to it. -/
def gist (e : Engine) : Engine :=
  e.on (.ofSize 0) 0 0 0

/-- The engine with another limit to its stack. -/
def allowing (e : Engine) (maxSlots : Nat) : Engine :=
  e.on e.stack e.sp e.frame maxSlots

@[simp]
theorem withStack_self (e : Engine) : e.withStack e.stack e.sp e.frame = e := rfl

@[simp]
theorem withStack_withStack (e : Engine) (stack other : Stack) (sp frame m n : Nat) :
    (e.withStack stack sp frame).withStack other m n = e.withStack other m n := rfl

@[simp]
theorem core_withStack (e : Engine) (stack : Stack) (sp frame : Nat) :
    (e.withStack stack sp frame).core = e.core := rfl

/-- Engines of one core differ by their stacks. -/
theorem eq_withStack_of_core {s t : Engine} (h : s.core = t.core) :
    s = t.withStack s.stack s.sp s.frame := by
  rw [← withStack_self s, ← withStack_withStack s (.ofSize 0) s.stack 0 0 s.sp s.frame]
  exact congrArg (·.withStack s.stack s.sp s.frame) h

@[simp]
theorem on_self (e : Engine) : e.on e.stack e.sp e.frame e.limits.maxSlots = e := rfl

/-- Engines of one gist differ by their stacks and the limits to them. -/
theorem eq_on_of_gist {s t : Engine} (h : s.gist = t.gist) :
    s = t.on s.stack s.sp s.frame s.limits.maxSlots :=
  congrArg (·.on s.stack s.sp s.frame s.limits.maxSlots) h

theorem gist_of_core {s t : Engine} (h : s.core = t.core) : s.gist = t.gist :=
  congrArg (·.on (.ofSize 0) 0 0 0) h

theorem core_of_gist {s t : Engine} (h : s.gist = t.gist) (hlimits : s.limits = t.limits) :
    s.core = t.core := by
  rw [eq_on_of_gist h, hlimits]
  rfl

theorem gist_withDepth (depth : Nat) {s t : Engine} (h : s.gist = t.gist) :
    gist { s with depth } = gist { t with depth } :=
  congrArg (fun e : Engine => { e with depth }) h

/-- What depends on neither stack nor limit is the same for engines of one gist. -/
theorem congr_gist {α : Sort _} (f : Engine → α)
    (hf : ∀ e stack sp frame maxSlots, f (e.on stack sp frame maxSlots) = f e) {s t : Engine}
    (h : s.gist = t.gist) : f s = f t := by
  rw [eq_on_of_gist h, hf]

theorem limits_of_core {s t : Engine} (h : s.core = t.core) : s.limits = t.limits :=
  congrArg (·.limits) h

theorem core_withDepth (depth : Nat) {s t : Engine} (h : s.core = t.core) :
    core { s with depth } = core { t with depth } :=
  congrArg (fun e : Engine => { e with depth }) h

/-- What does not depend on the stack is the same for engines of one core. -/
theorem congr_core {α : Sort _} (f : Engine → α)
    (hf : ∀ e stack sp frame, f (e.withStack stack sp frame) = f e) {s t : Engine}
    (h : s.core = t.core) : f s = f t := by
  rw [eq_withStack_of_core h, hf]

end Engine

namespace Eval

variable {α β : Type}

/-- The computation does the same on every stack, whatever the limit to it, and leaves both
alone. -/
def Blind (x : Eval α) : Prop :=
  ∀ e stack sp frame maxSlots, x (e.on stack sp frame maxSlots) =
    ((x e).1, (x e).2.on stack sp frame maxSlots)

/-- On engines of one gist a blind computation ends alike. -/
theorem Blind.run_gist {x : Eval α} (hx : Blind x) {s t : Engine} (h : s.gist = t.gist) :
    x s = ((x t).1, (x t).2.on s.stack s.sp s.frame s.limits.maxSlots) := by
  rw [← hx, ← Engine.eq_on_of_gist h]

/-- A blind computation leaves the stack and its limit alone. -/
theorem Blind.same_room {x : Eval α} (hx : Blind x) (e : Engine) :
    (x e).2 = (x e).2.on e.stack e.sp e.frame e.limits.maxSlots :=
  congrArg Prod.snd (hx.run_gist (s := e) (t := e) rfl)

/-- On engines of one core a blind computation ends alike. -/
theorem Blind.run {x : Eval α} (hx : Blind x) {s t : Engine} (h : s.core = t.core) :
    x s = ((x t).1, (x t).2.withStack s.stack s.sp s.frame) := by
  rw [hx.run_gist (Engine.gist_of_core h), hx.same_room t, Engine.limits_of_core h]
  rfl

theorem Blind.core_run {x : Eval α} (hx : Blind x) {s t : Engine} (h : s.core = t.core) :
    (x s).1 = (x t).1 ∧ (x s).2.core = (x t).2.core := by
  rw [hx.run h]
  exact ⟨rfl, rfl⟩

/-- A blind computation leaves the stack alone. -/
theorem Blind.same_stack {x : Eval α} (hx : Blind x) {e e' : Engine} {r : Except Stop α}
    (h : x e = (r, e')) : e'.stack = e.stack ∧ e'.sp = e.sp ∧ e'.frame = e.frame := by
  have hroom : e' = e'.on e.stack e.sp e.frame e.limits.maxSlots := by
    simpa only [h] using hx.same_room e
  rw [hroom]
  exact ⟨rfl, rfl, rfl⟩

theorem Blind.pure (a : α) : Blind (pure a) :=
  fun _ _ _ _ _ => rfl

theorem Blind.throw (stop : Stop) : Blind (throw stop : Eval α) :=
  fun _ _ _ _ _ => rfl

theorem Blind.ofExcept (r : Except Error α) : Blind (Eval.ofExcept r) := by
  cases r <;> exact fun _ _ _ _ _ => rfl

theorem Blind.onStore (f : Store → α × Store) : Blind (Eval.onStore f) :=
  fun _ _ _ _ _ => rfl

theorem Blind.modify {f : Engine → Engine}
    (hf : ∀ e stack sp frame maxSlots,
      f (e.on stack sp frame maxSlots) = (f e).on stack sp frame maxSlots) :
    Blind (modify f) := by
  intro e stack sp frame maxSlots
  rw [modify_run, modify_run, hf]

theorem Blind.bind {x : Eval α} {f : α → Eval β} (hx : Blind x) (hf : ∀ a, Blind (f a)) :
    Blind (x >>= f) := by
  intro e stack sp frame maxSlots
  rw [bind_run, bind_run, hx]
  rcases x e with ⟨_ | a, e'⟩
  · rfl
  · exact hf a e' stack sp frame maxSlots

/-- Looking at the engine, to go on in a way that depends on neither stack nor limit. -/
theorem Blind.reading {g : Engine → Eval α}
    (hg : ∀ e stack sp frame maxSlots, g (e.on stack sp frame maxSlots) = g e)
    (h : ∀ e, Blind (g e)) : Blind (get >>= g) := by
  intro e stack sp frame maxSlots
  rw [bind_of_ok (get_run _), bind_of_ok (get_run _), hg]
  exact h e e stack sp frame maxSlots

theorem Blind.make (action : Make α) : Blind (Eval.make action) :=
  .bind (.onStore _) fun _ => .ofExcept _

end Eval

end StackLisp

import StackLisp.Interpreter
import StackLisp.Proofs.Lockstep
import StackLisp.Proofs.Verified

/-!
# The engines that can be reached

A host program builds an interpreter and then, in any order, registers functions, binds names,
evaluates and compiles, calls what it has compiled, and resets. While a program runs, the machine
calls back: macros are expanded, closures applied, files loaded. `Reached` holds of the engines
between all of these, and `Working` of the machines in the middle of a call.

- `Engine.Usable`: code may be run on the engine;
- `Asks`: a computation asks its evaluator for something;
- `Task`: what a host program can have done;
- `Reached.usable`, `Working.coherent`: the invariants of all of them.
-/

namespace StackLisp

open Eval

/-- A new interpreter differs from a new engine by its symbols and bindings only. -/
theorem Interpreter.bare_eq (setup : Setup) (files : String → FileAnswer) :
    bare setup files = { Engine.new setup.limits files with
      store := (bare setup files).store, globals := (bare setup files).globals } := by
  have hfold : ∀ (functions : List Intrinsic) (e : Engine), functions.foldl Engine.register e =
      { e with
        store := (functions.foldl Engine.register e).store
        globals := (functions.foldl Engine.register e).globals } := by
    intro functions
    induction functions with
    | nil => exact fun _ => rfl
    | cons function functions ih => exact fun e => ih (e.register function)
  unfold bare
  dsimp only
  split
  · exact hfold _ _
  · rfl

/-- A new stack has the size that the limits say. -/
theorem Engine.lawful_reset (e : Engine) : e.reset.room.Lawful := by
  have hsize : e.reset.stack.size = e.limits.initialSlots := by
    simp [Engine.reset, Stack.size, Stack.ofSize]
  exact ⟨Nat.zero_le _, hsize.ge, hsize.le.trans (le_max_left _ _)⟩

/-! ## Tasks and requests -/

/-- What a host program can have done by an evaluator. -/
inductive Task where
  | loadText (text : String)
  | loadFile (path : String)
  | evalForm (form : Value)
  | apply (c : Closure) (args : List Value)
  | compileThunk (form : Value)
  | compileFunction (form : Value)
  | expand (form : Value)

/-- How the evaluator does it. What is compiled is given as a value. -/
def Task.run (task : Task) (ev : Evaluator) : Eval Value :=
  match task with
  | .loadText text => Machine.loadText ev text
  | .loadFile path => Machine.loadFile ev path
  | .evalForm form => Machine.evalForm ev form
  | .apply c args => ev.apply c args
  | .compileThunk form => do return .closure (← Compiler.compileThunk ev form)
  | .compileFunction form => do return .closure (← Compiler.compileFunction ev form)
  | .expand form => Compiler.expand ev form

/-- What code may ask of an evaluator. -/
inductive Request where
  | apply (c : Closure) (args : List Value)
  | loadFile (path : String)

/-- What an evaluator does when it is asked. -/
def Request.answer (ev : Evaluator) : Request → Eval Value
  | .apply c args => ev.apply c args
  | .loadFile path => ev.loadFile path

/-- A computation that was started at the engine `e` asks its evaluator for something at the engine
`t`: it would have ended differently, if only this answer had been different. -/
def Asks {α : Type} (F : Evaluator → Eval α) (ev : Evaluator) (e : Engine) (request : Request)
    (t : Engine) : Prop :=
  ∃ other : Evaluator, other.fuel = ev.fuel ∧
    (∀ r s, ¬ (r = request ∧ s = t) → r.answer other s = r.answer ev s) ∧
    (F other e).1 ≠ (F ev e).1

/-! ## Functions without parameters -/

/-- A function without parameters was called from outside at the engine `e`. -/
structure Started (c : Closure) (e e' : Engine) : Prop where
  start : Machine.start c [] e = (.ok ⟨c, 1⟩, e')
  holds : e'.Holds e.frame e.sp [⟨c, e.envs.size, [], 0⟩]
  envs : e'.envs = (e.envs.create [] c.env).2
  limits : e'.limits = e.limits
  depth : e'.depth = e.depth

open Machine CallFrame in
/-- Where there is room for it, a call of such a function starts. -/
theorem exists_started {c : Closure} {body : List Term} {e : Engine} (hc : c.Implements body)
    (hpositional : c.positional = 0) (hvariadic : c.variadic = false)
    (hroom : e.sp + c.code.maxStack + 5 ≤ e.limits.maxSlots) : ∃ e', Started c e e' := by
  -- room is asked for twice, to push the callee and for the frame with its operands
  rcases pushCall_run c [] e with ⟨hfull, -⟩ | ⟨-, e₀, hpush, hr, hprepared⟩
  · exact absurd (.inr (by rw [List.length_nil]; omega)) hfull
  rcases performs_enter hc hprepared with ⟨hfull, -⟩ | ⟨-, hperforms⟩
  · refine absurd (fun _ => .inr ?_) hfull
    rw [hr.limits, demand, hprepared.sp, header, List.length_nil]
    omega
  obtain ⟨e', hentered, hr', hholds⟩ :=
    hperforms.ok (Reference.enter_thunk hpositional hvariadic e₀)
  rw [hr.envs] at hholds
  refine ⟨e', (bind_of_ok hpush _).trans hentered, hholds, ?_, ?_, ?_⟩
  · rw [hr'.envs, hr.envs]
  · exact hr'.limits.trans hr.limits
  · exact hr'.retains.depth.trans hr.retains.depth

namespace Started

variable {c : Closure} {e e' : Engine}

theorem sp (h : Started c e e') : e'.sp = e.sp + 4 := by
  obtain ⟨_, base, -, hsp, hnil, -⟩ := h.holds.inv
  cases hnil
  exact hsp

theorem callee (h : Started c e e') : e'.stack.slots[e.sp]? = some (.value (.closure c)) := by
  obtain ⟨_, base, -, -, hnil, hslot, -⟩ := h.holds.inv
  cases hnil
  exact hslot

theorem size_envs (h : Started c e e') : e'.envs.size = e.envs.size + 1 := by
  rw [h.envs, Environments.size_create]

theorem envs_le (h : Started c e e') : e.envs.size ≤ e'.envs.size :=
  h.size_envs ▸ Nat.le_succ _

theorem next? (h : Started c e e') : e'.envs.next? e.envs.size = c.env := by
  rw [h.envs, Environments.next?_create, if_pos rfl]

end Started

/-! ## Engines that code may be run on -/

variable [Unbound]

/-- The evaluator of the machine is safe. -/
theorem Machine.safe_evaluator (fuel : Nat) : (Machine.evaluator fuel).Safe := by
  induction fuel with
  | zero =>
    exact ⟨fun _ _ hs _ => ⟨.refl _, hs, trivial⟩, fun _ _ hs _ => ⟨.refl _, hs, trivial⟩⟩
  | succ fuel ih =>
    exact ⟨Machine.safe_applyWith ih fuel, fun e path =>
      (Machine.agrees_loadFile ih.agree e path).safe⟩

/-- Code may be run on the engine. -/
structure Engine.Usable (e : Engine) : Prop where
  sound : e.Sound
  frame_le : e.frame ≤ e.sp
  room : e.room.Lawful

namespace Engine.Usable

variable {e e' : Engine}

theorem of_same (h : e.Usable) (hglobals : e'.globals = e.globals) (henvs : e'.envs = e.envs)
    (hhosts : e'.hosts = e.hosts) (hframe : e'.frame ≤ e'.sp) (hroom : e'.room.Lawful) :
    e'.Usable := by
  refine ⟨⟨?_, ?_, henvs ▸ h.sound.older, hhosts ▸ h.sound.hosts⟩, hframe, hroom⟩
  · rw [hglobals, henvs]
    exact h.sound.globals
  · rw [henvs]
    exact h.sound.bindings

/-- One more call from outside the machine is counted. -/
theorem withDepth (h : e.Usable) (depth : Nat) : Engine.Usable { e with depth } :=
  h.of_same rfl rfl rfl h.frame_le (Engine.lawful_withDepth h.room depth)

theorem of_safe {α : Type} {x : Eval α} {Q : α → Engine → Prop} (h : e.Usable)
    (hx : x.Safe e Q) : (x e).2.Usable := by
  obtain ⟨hk, hs, -⟩ := hx h.sound h.frame_le
  exact ⟨hs, hk.frame_le h.frame_le, hk.lawful h.room⟩

theorem reset (h : e.Usable) : e.reset.Usable :=
  h.of_same rfl rfl rfl le_rfl e.lawful_reset

theorem defineName (h : e.Usable) (name : String) {v : Value} (hv : v.Proper e.envs.size) :
    (e.defineName name v).Usable :=
  ⟨Sound.define (s := (e.store.intern name).1) (h.sound.withStore (e.store.intern name).2) hv,
    h.frame_le, h.room⟩

theorem register (h : e.Usable) (function : Intrinsic) : (e.register function).Usable := by
  have hstore : Engine.Usable { e with store := (e.store.intrinsic function).2 } :=
    h.of_same rfl rfl rfl h.frame_le h.room
  exact hstore.defineName function.name (.intrinsic _ _)

theorem registerHost (h : e.Usable) (name : String) {function : HostFunction}
    (hb : function.Behaves) : (e.registerHost name function).Usable := by
  have hpush : Engine.Usable { e with hosts := e.hosts.push function } := by
    refine ⟨⟨h.sound.globals, h.sound.bindings, h.sound.older, fun f hf => ?_⟩, h.frame_le, h.room⟩
    rcases Array.mem_push.1 hf with hf | rfl
    · exact h.sound.hosts f hf
    · exact hb
  exact hpush.register _

theorem read (h : e.Usable) (text : String) : (Interpreter.read text e).2.Usable := by
  unfold Interpreter.read
  split
  · exact h.of_same rfl rfl rfl h.frame_le h.room
  · exact h.of_same rfl rfl rfl h.frame_le h.room

end Engine.Usable

theorem Engine.usable_new (limits : Limits) (files : String → FileAnswer) :
    (Engine.new limits files).Usable := by
  refine ⟨⟨fun {s v} hv => ?_, fun {env s v} hv => ?_, fun env next hn => ?_, fun _ h => ?_⟩,
    le_rfl, Engine.lawful_reset (Engine.new limits files)⟩
  · rw [show (Engine.new limits files).globals = Globals.empty from rfl, Globals.get?_empty] at hv
    cases hv
  · rw [show (Engine.new limits files).envs.bindings env = [] from rfl] at hv
    cases hv
  · rw [show (Engine.new limits files).envs.next? env = none from rfl] at hn
    cases hn
  · cases Array.not_mem_empty _ h

theorem Interpreter.usable_bare (setup : Setup) (files : String → FileAnswer) :
    (bare setup files).Usable := by
  have hfold : ∀ (functions : List Intrinsic) {e : Engine}, e.Usable →
      (functions.foldl Engine.register e).Usable := by
    intro functions
    induction functions with
    | nil => exact fun h => h
    | cons function functions ih => exact fun h => ih (h.register function)
  unfold bare
  dsimp only
  split
  · exact hfold _ (Engine.usable_new _ _)
  · exact Engine.usable_new _ _

/-- What is read holds no closures. -/
theorem Interpreter.proper_of_read {text : String} {form : Value} {e e' : Engine}
    (h : read text e = (.ok form, e')) : form.Proper 0 := by
  have hfine := Datum.fine_readOne 0 e.store text
  unfold read at h
  split at h
  · rename_i heq
    rw [heq] at hfine
    cases h
    exact hfine
  · cases h

/-! ## What is asked -/

/-- What is asked for may be done when there are `n` environments. -/
def Request.Allowed (n : Nat) : Request → Prop
  | .apply c args => c.Callable n ∧ ∀ v ∈ args, v.Proper n
  | .loadFile _ => True

/-- Computations that agree strictly end alike. -/
theorem Agrees.same_result {α : Type} {t : Engine} {x y : Eval α} {Q : α → Engine → Prop}
    (h : Agrees .strict t (fun _ => x) y Q) (ht : t.Usable) : (x t).1 = (y t).1 := by
  have hlike : Leeway.strict.Like t t := ⟨rfl, ht.frame_le, fun _ => rfl, ht.room⟩
  rcases h.together (fun _ _ _ _ => id) ht.sound ht.frame_le hlike with hfollows | ⟨hx, hy⟩
  · exact hfollows.result
  · exact hx.trans hy.symm

/-- If a computation does the same with all evaluators that agree on what is allowed, it asks only
for what is allowed. -/
theorem Asks.allowed {α : Type} {F : Evaluator → Eval α} {ev : Evaluator} {e t : Engine}
    {request : Request} (h : Asks F ev e request t) (hev : ev.Safe)
    (hF : ∀ other, Evaluator.Agree .strict (fun _ => other) ev → (F other e).1 = (F ev e).1) :
    t.Usable ∧ request.Allowed t.envs.size := by
  -- otherwise the evaluators differ only where agreement says nothing
  obtain ⟨other, hfuel, hsame, hne⟩ := h
  by_contra hnot
  refine hne (hF other ⟨⟨0, fun _ _ => hfuel.ge⟩, fun _ _ => hfuel.le, ?_, ?_⟩)
  · intro s c args hc hargs
    refine .of_eq (hev.apply hc hargs) fun hs hf hroom => hsame (.apply c args) s ?_
    rintro ⟨rfl, rfl⟩
    exact hnot ⟨⟨hs, hf, hroom⟩, hc, hargs⟩
  · intro s path
    refine .of_eq (hev.loadFile s path) fun hs hf hroom => hsame (.loadFile path) s ?_
    rintro ⟨rfl, rfl⟩
    exact hnot ⟨⟨hs, hf, hroom⟩, trivial⟩

/-- A step of a coherent machine does the same with evaluators that agree. -/
theorem Machine.step_same {ev other : Evaluator} {home floor : Nat} {a : Activation} {e : Engine}
    (h : Coherent home floor e a) (hroom : e.room.Lawful)
    (hev : Evaluator.Agree .strict (fun _ => other) ev) :
    (step other home a e).1 = (step ev home a e).1 := by
  obtain ⟨hhome, -, f, rest, -, hf, -⟩ := id h
  have hlike : Leeway.strict.Like e e := ⟨rfl, hf.frame_le hhome, fun _ => rfl, hroom⟩
  exact (step_abreast hev (fun _ _ _ _ => id) ⟨h, h, rfl, ⟨_, hf, hf⟩, hroom, hroom⟩ hlike).1.result

/-! ## What is reached -/

/-- What the task is about has been read, compiled or computed before, when there are `n`
environments. -/
def Task.Allowed (n : Nat) : Task → Prop
  | .loadText _ | .loadFile _ => True
  | .evalForm form | .compileThunk form | .compileFunction form | .expand form => form.Proper n
  | .apply c args => c.Callable n ∧ ∀ v ∈ args, v.Proper n

/-- Tasks agree with evaluators that agree. -/
theorem Task.agrees_run {κ : Leeway} {X : Nat → Evaluator} {y : Evaluator} {t : Engine}
    (hev : Evaluator.Agree κ X y) {task : Task} (h : task.Allowed t.envs.size) :
    Agrees κ t (fun i => task.run (X i)) (task.run y) AnyResult := by
  have hany : ∀ {F : Nat → Eval Value} {f : Eval Value} {Q : Value → Engine → Prop},
      Agrees κ t F f Q → Agrees κ t F f AnyResult := fun h => h.mono fun _ _ _ _ => trivial
  match task with
  | .loadText text => exact hany (Machine.agrees_loadText hev t text)
  | .loadFile path => exact hany (Machine.agrees_loadFile hev t path)
  | .evalForm form => exact hany (Machine.agrees_evalForm hev h)
  | .apply c args => exact hany (hev.apply h.1 h.2)
  | .compileThunk form =>
    exact .bind (Compiler.agrees_compileThunk hev h) fun _ _ _ _ _ _ => .pure fun _ => trivial
  | .compileFunction form =>
    exact .bind (Compiler.agrees_compileFunction hev h) fun _ _ _ _ _ _ => .pure fun _ => trivial
  | .expand form => exact hany (Compiler.agrees_expand hev h)

mutual

/-- There can be such an engine, in the course of what host programs do with an interpreter. Names
may be bound, and functions called, whenever there is an engine. -/
inductive Reached : Engine → Prop
  | bare (setup : Setup) (files : String → FileAnswer) : Reached (Interpreter.bare setup files)
  | registerHost {e : Engine} (name : String) {function : HostFunction} : Reached e →
      function.Behaves → Reached (e.registerHost name function)
  | defineName {e : Engine} (name : String) {v : Value} : Reached e → v.Proper e.envs.size →
      Reached (e.defineName name v)
  | files {e : Engine} (files : String → FileAnswer) : Reached e → Reached { e with files }
  | takeOutput {e : Engine} : Reached e → Reached (Interpreter.takeOutput e).2
  | intern {e : Engine} (name : String) : Reached e → Reached (Eval.intern name e).2
  | reset {e : Engine} : Reached e → Reached e.reset
  | read {e : Engine} (text : String) : Reached e → Reached (Interpreter.read text e).2
  /-- A task is over, with or without a result. -/
  | done {e : Engine} (fuel : Nat) (task : Task) : Reached e → task.Allowed e.envs.size →
      Reached (task.run (Machine.evaluator fuel) e).2
  /-- Something is asked in the course of a task. -/
  | asked {e t : Engine} {fuel : Nat} (task : Task) {request : Request} : Reached e →
      task.Allowed e.envs.size → Asks task.run (Machine.evaluator fuel) e request t → Reached t
  /-- The machine is between two instructions. -/
  | working {e : Engine} {fuel home : Nat} {a : Activation} : Working fuel home e a → Reached e
  /-- Something is asked in the course of an instruction. -/
  | stepAsked {e t : Engine} {fuel home : Nat} {a : Activation} {request : Request} :
      Working fuel home e a → Asks (Machine.step · home a) (Machine.evaluator fuel) e request t →
      Reached t

/-- There can be such a machine at work, on the calls that were made since frame pointer `home`. -/
inductive Working : (fuel home : Nat) → Engine → Activation → Prop
  | start {e e' : Engine} {fuel : Nat} {c : Closure} {args : List Value} {a : Activation} :
      Reached e → c.Callable e.envs.size → (∀ v ∈ args, v.Proper e.envs.size) →
      e.depth < e.limits.maxApplyDepth →
      Machine.start c args { e with depth := e.depth + 1 } = (.ok a, e') →
      Working fuel e.frame e' a
  | step {e e' : Engine} {fuel home : Nat} {a a' : Activation} : Working fuel home e a →
      Machine.step (Machine.evaluator fuel) home a e = (.ok (.running a'), e') →
      Working fuel home e' a'

end

/-- What is asked in the course of a task is allowed. -/
theorem Task.allowed_of_asks {e t : Engine} {fuel : Nat} (task : Task) {request : Request}
    (he : e.Usable) (htask : task.Allowed e.envs.size)
    (h : Asks task.run (Machine.evaluator fuel) e request t) :
    t.Usable ∧ request.Allowed t.envs.size :=
  h.allowed (Machine.safe_evaluator fuel) fun _ hother =>
    (Task.agrees_run hother htask).same_result he

/-- What is asked in the course of an instruction is allowed. -/
theorem Coherent.allowed_of_asks {e t : Engine} {fuel home floor : Nat} {a : Activation}
    {request : Request} (h : Coherent home floor e a) (hroom : e.room.Lawful)
    (hasks : Asks (Machine.step · home a) (Machine.evaluator fuel) e request t) :
    t.Usable ∧ request.Allowed t.envs.size :=
  hasks.allowed (Machine.safe_evaluator fuel) fun _ hother => Machine.step_same h hroom hother

theorem Coherent.usable {home floor : Nat} {e : Engine} {a : Activation}
    (h : Coherent home floor e a) (hroom : e.room.Lawful) : e.Usable := by
  obtain ⟨hhome, hs, f, rest, -, hf, -⟩ := h
  exact ⟨hs, hf.frame_le hhome, hroom⟩

mutual

/-- Code may be run on every engine that is reached. -/
theorem Reached.usable {e : Engine} : Reached e → e.Usable
  | .bare setup files => Interpreter.usable_bare setup files
  | .registerHost name he hb => he.usable.registerHost name hb
  | .defineName name he hv => he.usable.defineName name hv
  | .files files he => he.usable.of_same rfl rfl rfl he.usable.frame_le he.usable.room
  | .takeOutput he => he.usable.of_same rfl rfl rfl he.usable.frame_le he.usable.room
  | .intern name he => he.usable.of_same rfl rfl rfl he.usable.frame_le he.usable.room
  | .reset he => he.usable.reset
  | .read text he => he.usable.read text
  | .done fuel task he htask =>
    he.usable.of_safe (Task.agrees_run (Machine.safe_evaluator fuel).agree htask).safe
  | .asked task he htask hasks => (task.allowed_of_asks he.usable htask hasks).1
  | .working hw => by
    obtain ⟨floor, hcoherent, hroom⟩ := hw.coherent
    exact hcoherent.usable hroom
  | .stepAsked hw hasks => by
    obtain ⟨floor, hcoherent, hroom⟩ := hw.coherent
    exact (hcoherent.allowed_of_asks hroom hasks).1

/-- Every machine at work is coherent. -/
theorem Working.coherent {fuel home : Nat} {e : Engine} {a : Activation} :
    Working fuel home e a → ∃ floor, Coherent home floor e a ∧ e.room.Lawful
  | @Working.start _ e₀ _ _ c args _ he hc hargs _ hstart => by
    have husable := he.usable.withDepth (e₀.depth + 1)
    have hstarts := Machine.start_coherent husable.sound husable.frame_le hc hargs
    rw [hstart] at hstarts
    obtain ⟨hr, hcoherent⟩ := hstarts
    exact ⟨_, hcoherent, hr.lawful husable.room hcoherent.sp_le⟩
  | .step hw hstep => by
    obtain ⟨floor, hcoherent, hroom⟩ := hw.coherent
    have hnext := Machine.step_coherent (Machine.safe_evaluator fuel) hcoherent
    rw [hstep] at hnext
    obtain ⟨hr, hcoherent'⟩ := hnext
    exact ⟨floor, hcoherent', hr.lawful hroom hcoherent'.sp_le⟩

end

/-- What the compiler makes may be called. -/
theorem Reached.of_compile {e e' : Engine} (he : Reached e) {fuel : Nat} {form : Value}
    {c : Closure} (hform : form.Proper e.envs.size)
    (h : Compiler.compileThunk (Machine.evaluator fuel) form e = (.ok c, e') ∨
      Compiler.compileFunction (Machine.evaluator fuel) form e = (.ok c, e')) :
    Reached e' ∧ c.Callable e'.envs.size := by
  have husable := he.usable
  have hev := (Machine.safe_evaluator fuel).agree
  rcases h with h | h
  · have hdone := he.done fuel (.compileThunk form) hform
    rw [Task.run, bind_of_ok h] at hdone
    have hsafe := (Compiler.agrees_compileThunk hev hform).safe
    exact ⟨hdone, (hsafe.of_ok husable.sound husable.frame_le h).2.2.1⟩
  · have hdone := he.done fuel (.compileFunction form) hform
    rw [Task.run, bind_of_ok h] at hdone
    have hsafe := (Compiler.agrees_compileFunction hev hform).safe
    exact ⟨hdone, (hsafe.of_ok husable.sound husable.frame_le h).2.2.1⟩

theorem Started.working {c : Closure} {e e' : Engine}
    (h : Started c { e with depth := e.depth + 1 } e') (he : Reached e)
    (hc : c.Callable e.envs.size) (hshallow : e.depth < e.limits.maxApplyDepth) (fuel : Nat) :
    Working fuel e.frame e' ⟨c, 1⟩ :=
  .start he hc (List.forall_mem_nil _) hshallow h.start

/-- The form `(fn ())` is compiled by a new interpreter, and its function called. -/
theorem Working.literal_within {limits : Limits} (hslots : 6 ≤ limits.maxSlots)
    (happly : 0 < limits.maxApplyDepth) {room : Nat}
    (hcompile : limits.maxCompileDepth = room + 1) :
    ∃ (e e₁ : Engine) (c : Closure), Reached e ∧ c.Callable e.envs.size ∧
      (c.positional = 0 ∧ c.variadic = false ∧ c.code.maxStack = 1) ∧
      (e.limits = limits ∧ e.sp = 0 ∧ e.depth = 0) ∧ e.depth < e.limits.maxApplyDepth ∧
      Started c { e with depth := e.depth + 1 } e₁ ∧ ∀ fuel, Working fuel e.frame e₁ ⟨c, 1⟩ := by
  have hreached := Reached.bare { limits } fun _ => .unread
  -- named, since the new interpreter is not to be computed here
  obtain ⟨e, he⟩ : ∃ e, e = Interpreter.bare { limits } fun _ => .unread := ⟨_, rfl⟩
  have hnew := Interpreter.bare_eq { limits } fun _ => .unread
  rw [← he] at hreached hnew
  have hlimits : e.limits = limits := by rw [hnew]; rfl
  have hsp : e.sp = 0 := by rw [hnew]; rfl
  have hdepth : e.depth = 0 := by rw [hnew]; rfl
  have hproper : (Compiler.emptyLiteral (Keywords.intern e.store).1).Proper e.envs.size :=
    .list (.symbol _) fun v hv => List.mem_singleton.1 hv ▸ .nil
  have hthunk : Compiler.compileThunk (Machine.evaluator 2) _ e = _ :=
    Compiler.compileThunk_emptyLiteral Nat.one_pos e (hlimits ▸ hcompile)
  obtain ⟨he', hc⟩ := hreached.of_compile hproper (.inl hthunk)
  generalize (Keywords.intern e.store).2.fresh.2.fresh.2 = store at he' hc
  obtain ⟨himplements, -⟩ := hc.coded
  obtain ⟨e₁, hstarted⟩ := exists_started (e := { e with store, depth := e.depth + 1 }) himplements
    rfl rfl (show e.sp + 1 + 5 ≤ e.limits.maxSlots by rw [hsp, hlimits]; omega)
  have hshallow : e.depth < e.limits.maxApplyDepth := by rw [hdepth, hlimits]; exact happly
  exact ⟨{ e with store }, e₁, _, he', hc, ⟨rfl, rfl, rfl⟩, ⟨hlimits, hsp, hdepth⟩, hshallow,
    hstarted, hstarted.working he' hc hshallow⟩

/-- The same with the limits that are set if nothing else is asked for. -/
theorem Working.literal : ∃ (e e₁ : Engine) (c : Closure), Reached e ∧ c.Callable e.envs.size ∧
    (c.positional = 0 ∧ c.variadic = false ∧ c.code.maxStack = 1) ∧
    (e.limits = {} ∧ e.sp = 0 ∧ e.depth = 0) ∧ e.depth < e.limits.maxApplyDepth ∧
    Started c { e with depth := e.depth + 1 } e₁ ∧ ∀ fuel, Working fuel e.frame e₁ ⟨c, 1⟩ :=
  literal_within (by decide) (by decide) rfl

end StackLisp
